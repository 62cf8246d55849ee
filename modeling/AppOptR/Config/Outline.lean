import AppOptR.Lib.Mealy
import AppOptR.Config.Line

/-!
# `Config.Outline` — the block structure of a rules file

The abstract reading of a rules file that the loader and the editor both claim to follow: a line is read
by its *place* (outside every block, with or without a header waiting for its brace; or inside a block,
which has an owner) and takes one *role* there. The roles say which rules the file holds (`entry`) and
where its blocks open and close (`nextPlace`); nothing here counts failures, keeps line numbers or looks
for one package, which is what the two concrete readers add.

A header whose key is empty (a line `=`) is the one thing the two readers disagree on: a bare `{` after it
(`Clash`) opens a block for the editor and none for the loader. Up to that line, both refine the outline.
-/

namespace AppOptR

open Text

/-- Where a line stands. `outside (some key)` has a header `key` waiting for a bare `{`. -/
inductive Place where
  | outside (waiting : Option Str)
  | inside (owner : Str)
  deriving DecidableEq

/-- What a line does at its place. -/
inductive Role where
  | skip
  | close
  | thread (name cpus : Str) (closed : Bool)
  | idle
  | outer (l : OuterLine)
  deriving DecidableEq

/-- The role of a (trimmed, readable) line inside a block. -/
def insideRole (p : Str) : Role :=
  if closeLike p then .close
  else match splitRuleLine p with
    | some (name, cpus, closed) => .thread name cpus closed
    | none => if '}' ∈ p then .close else .idle

/-- The role of a line at a place. -/
def roleOf (place : Place) (line : Str) : Role :=
  let p := trim line
  if skipped p then .skip
  else match place with
    | .inside _ => insideRole p
    | .outside _ => .outer (parseOuter p)

/-- The place behind a line of some role. -/
def nextPlace (place : Place) : Role → Place
  | .skip | .idle => place
  | .close => .outside none
  | .thread _ _ closed => if closed then .outside none else place
  | .outer (.single pkg _ _ opens) => if opens then .inside pkg else .outside none
  | .outer (.rule pkg _ opens) => if opens then .inside pkg else .outside none
  | .outer (.bareOpen pkg) =>
    if pkg ≠ [] then .inside pkg
    else match place with
      | .outside (some key) => .inside key
      | _ => place
  | .outer (.pending key) => .outside (some key)
  | .outer .junk => .outside none

/-- The rule a line states: package, thread (empty for the package itself) and CPU spec. -/
def entry (place : Place) : Role → List (Str × Str × Str)
  | .thread name cpus _ =>
    match place with
    | .inside owner => [(owner, name, cpus)]
    | .outside _ => []
  | .outer (.single pkg thread cpus _) => [(pkg, thread, cpus)]
  | .outer (.rule pkg cpus _) => [(pkg, [], cpus)]
  | _ => []

/-- One line of the outline: the next place, and the line's place and role. -/
def outlineStep (place : Place) (line : Str) : Place × List (Place × Role) :=
  let role := roleOf place line
  (nextPlace place role, [(place, role)])

/-- The first place of a file. -/
def Place.start : Place := .outside none

/-- The place after some lines of a file. -/
def placeAfter (ls : List Str) : Place := Mealy.final outlineStep Place.start ls

/-- A bare `{` while the waiting header has an empty key. -/
def Clash (place : Place) (line : Str) : Prop :=
  place = .outside (some []) ∧ roleOf place line = .outer (.bareOpen [])

instance (place : Place) (line : Str) : Decidable (Clash place line) :=
  inferInstanceAs (Decidable (_ ∧ _))

/-- No bare `{` of the text stands under a header with an empty key. -/
def ClashFree (ls : List Str) : Prop :=
  Mealy.Along outlineStep (fun place line => ¬ Clash place line) Place.start ls

instance (ls : List Str) : Decidable (ClashFree ls) :=
  inferInstanceAs (Decidable (Mealy.Along _ _ _ _))

/-! ## Places and roles -/

variable {place : Place} {line owner : Str} {waiting : Option Str}

theorem roleOf_skipped (h : skipped (trim line) = true) : roleOf place line = .skip := by
  simp only [roleOf, h, if_true]

theorem roleOf_inside (h : skipped (trim line) = false) :
    roleOf (.inside owner) line = insideRole (trim line) := by
  simp only [roleOf, h, Bool.false_eq_true, if_false]

theorem roleOf_outside (h : skipped (trim line) = false) :
    roleOf (.outside waiting) line = .outer (parseOuter (trim line)) := by
  simp only [roleOf, h, Bool.false_eq_true, if_false]

theorem insideRole_ne_outer (p : Str) (l : OuterLine) : insideRole p ≠ .outer l := by
  unfold insideRole
  split
  · simp
  · split
    · simp
    · split <;> simp

/-! ## Growing a text by one line -/

theorem placeAfter_concat (pre : List Str) (line : Str) :
    placeAfter (pre ++ [line]) = nextPlace (placeAfter pre) (roleOf (placeAfter pre) line) := by
  rw [placeAfter, Mealy.final_append]
  rfl

theorem clashFree_concat {pre : List Str} {line : Str} :
    ClashFree (pre ++ [line]) ↔ ClashFree pre ∧ ¬ Clash (placeAfter pre) line := by
  unfold ClashFree
  rw [Mealy.along_append]
  simp only [Mealy.along_cons, Mealy.along_nil, and_true]
  rfl

/-- The numbered lines of the outline. -/
def outlineAt (ls : List Str) : List (Nat × Place × Role) :=
  Mealy.emit (Mealy.indexed outlineStep) Place.start ls.zipIdx

theorem outlineAt_concat (pre : List Str) (line : Str) :
    outlineAt (pre ++ [line])
      = outlineAt pre ++ [(pre.length, placeAfter pre, roleOf (placeAfter pre) line)] := by
  rw [outlineAt, List.zipIdx_append, Mealy.emit_append, Mealy.final_indexed]
  simp [Mealy.indexed, outlineStep, outlineAt, placeAfter]

end AppOptR
