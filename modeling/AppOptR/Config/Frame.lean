import AppOptR.Config.Load

/-!
# `Config.Frame` — what one package sees of a rules file

An edit of one package may move, add and remove lines; another package `q` is untouched when it reads the
same rules before and after. This file says what `q` reads, and what it cannot tell apart.

* `Place.Alike` — places that `q` cannot tell apart: the same shape, with another owner or waiting header as
  long as neither of the two is `q`'s;
* `nextPlace_outside_any`, `entriesFor_outside_any` — outside every block the waiting header matters to a bare `{`
  only;
* `Frame` — the result: the rules `q` sees are the same. `callsFor_written`, `rulesFor_eq` carry it to the rules
  of the written file.
-/

namespace AppOptR

open Text

variable {q : Str} {p p' : Place} {line : Str} {ls ls' : List Str}

/-! ## Places one package cannot tell apart -/

/-- Two keys that are the same to `q`: both `q` or neither, and both empty or neither. -/
structure KeyAlike (q k k' : Str) : Prop where
  own : k = q ↔ k' = q
  empty : k = [] ↔ k' = []

theorem KeyAlike.refl (k : Str) : KeyAlike q k k := ⟨Iff.rfl, Iff.rfl⟩

/-- Two places that a package does not tell apart. -/
inductive Place.Alike (q : Str) : Place → Place → Prop
  | outside : Place.Alike q (.outside none) (.outside none)
  | waiting {k k' : Str} (h : KeyAlike q k k') : Place.Alike q (.outside (some k)) (.outside (some k'))
  | inside {k k' : Str} (h : KeyAlike q k k') : Place.Alike q (.inside k) (.inside k')

theorem Place.Alike.refl : ∀ p : Place, Place.Alike q p p
  | .outside none => .outside
  | .outside (some k) => .waiting (KeyAlike.refl k)
  | .inside k => .inside (KeyAlike.refl k)

/-- They read a line alike. -/
theorem Place.Alike.role (h : Place.Alike q p p') (line : Str) : roleOf p line = roleOf p' line := by
  cases h <;> rfl

/-- They go on to alike places. -/
theorem Place.Alike.next (h : Place.Alike q p p') (r : Role) :
    Place.Alike q (nextPlace p r) (nextPlace p' r) := by
  cases r with
  | skip => exact h
  | idle => exact h
  | close => exact .outside
  | thread name cpus closed =>
    cases closed with
    | true => exact .outside
    | false => exact h
  | outer l =>
    cases l with
    | single pg th cpus opens => cases opens <;> exact Place.Alike.refl _
    | rule pg cpus opens => cases opens <;> exact Place.Alike.refl _
    | pending key => exact Place.Alike.refl _
    | junk => exact .outside
    | bareOpen pg =>
      by_cases hpg : pg = []
      · subst hpg
        cases h with
        | outside => exact .outside
        | waiting hk => exact .inside hk
        | inside hk => exact .inside hk
      · simp only [nextPlace, ne_eq, hpg, not_false_eq_true, if_true]
        exact Place.Alike.refl _

/-- They clash with the same lines. -/
theorem Place.Alike.clash (h : Place.Alike q p p') (line : Str) : Clash p line ↔ Clash p' line := by
  unfold Clash
  rw [h.role line]
  cases h with
  | outside => exact Iff.rfl
  | inside _ => simp
  | waiting hk => simp [hk.empty]

/-! ## What a package sees -/

/-- The rules a line states for `q`: thread and CPU spec. -/
def entriesFor (q : Str) (l : Place × Role) : List (Str × Str) :=
  ((entry l.1 l.2).filter fun e => e.1 = q).map (·.2)

/-- The rules some lines state for `q`, read from a place. -/
def seen (q : Str) (p : Place) (ls : List Str) : List (Str × Str) :=
  (Mealy.emit outlineStep p ls).flatMap (entriesFor q)

/-- The place after some lines, read from a place. -/
abbrev placeFrom (p : Place) (ls : List Str) : Place := Mealy.final outlineStep p ls

/-- The roles of the lines alone. -/
def rolesFrom (p : Place) (ls : List Str) : List Role := (Mealy.emit outlineStep p ls).map (·.2)

/-- No bare `{` stands under a header with an empty key, read from a place. -/
def ClashFreeFrom (p : Place) (ls : List Str) : Prop :=
  Mealy.Along outlineStep (fun place line => ¬ Clash place line) p ls

@[simp] theorem seen_nil : seen q p [] = [] := rfl

theorem seen_cons (line : Str) (ls : List Str) :
    seen q p (line :: ls)
      = entriesFor q (p, roleOf p line) ++ seen q (nextPlace p (roleOf p line)) ls := rfl

theorem seen_append (as bs : List Str) :
    seen q p (as ++ bs) = seen q p as ++ seen q (placeFrom p as) bs := by
  rw [seen, Mealy.emit_append, List.flatMap_append]
  rfl

theorem placeFrom_append (as bs : List Str) : placeFrom p (as ++ bs) = placeFrom (placeFrom p as) bs :=
  Mealy.final_append

theorem placeFrom_cons (line : Str) (ls : List Str) :
    placeFrom p (line :: ls) = placeFrom (nextPlace p (roleOf p line)) ls := rfl

theorem placeAfter_append (as bs : List Str) : placeAfter (as ++ bs) = placeFrom (placeAfter as) bs :=
  Mealy.final_append

@[simp] theorem rolesFrom_nil : rolesFrom p [] = [] := rfl

theorem rolesFrom_cons (line : Str) (ls : List Str) :
    rolesFrom p (line :: ls) = roleOf p line :: rolesFrom (nextPlace p (roleOf p line)) ls := rfl

theorem rolesFrom_append (as bs : List Str) :
    rolesFrom p (as ++ bs) = rolesFrom p as ++ rolesFrom (placeFrom p as) bs := by
  rw [rolesFrom, Mealy.emit_append, List.map_append]
  rfl

theorem clashFreeFrom_cons {ls : List Str} :
    ClashFreeFrom p (line :: ls)
      ↔ ¬ Clash p line ∧ ClashFreeFrom (nextPlace p (roleOf p line)) ls := Iff.rfl

theorem clashFreeFrom_append {as bs : List Str} :
    ClashFreeFrom p (as ++ bs) ↔ ClashFreeFrom p as ∧ ClashFreeFrom (placeFrom p as) bs :=
  Mealy.along_append

/-- Nothing a line of a block says concerns a package other than the owner. -/
theorem entriesFor_inside {owner : Str} (ho : owner ≠ q) (line : Str) :
    entriesFor q (.inside owner, roleOf (.inside owner) line) = [] := by
  by_cases hs : skipped (trim line) = true
  · rw [roleOf_skipped hs]
    rfl
  · rw [roleOf_inside (by simpa using hs)]
    cases hr : insideRole (trim line) with
    | thread name cpus closed => simp [entriesFor, entry, ho]
    | outer l => exact absurd hr (insideRole_ne_outer _ _)
    | skip => rfl
    | close => rfl
    | idle => rfl

/-- They show the package the same entries. -/
theorem Place.Alike.entries (h : Place.Alike q p p') (r : Role) :
    entriesFor q (p, r) = entriesFor q (p', r) := by
  cases r with
  | thread name cpus closed =>
    cases h with
    | outside => rfl
    | waiting _ => rfl
    | inside hk =>
      rename_i k k'
      by_cases hq : k = q
      · simp [entriesFor, entry, hq, hk.own.mp hq]
      · have hq' : k' ≠ q := fun h' => hq (hk.own.mpr h')
        simp [entriesFor, entry, hq, hq']
  | skip => rfl
  | close => rfl
  | idle => rfl
  | outer l => cases l <;> rfl

/-- A line that is not a bare `{` forgets the waiting header. -/
theorem nextPlace_outside_any {l : OuterLine} (h : l ≠ .bareOpen []) (w w' : Option Str) :
    nextPlace (.outside w) (.outer l) = nextPlace (.outside w') (.outer l) := by
  cases l with
  | bareOpen pg =>
    have hpg : pg ≠ [] := fun he => h (by rw [he])
    simp [nextPlace, hpg]
  | single => rfl
  | rule => rfl
  | pending => rfl
  | junk => rfl

theorem entriesFor_outside_any (w w' : Option Str) (r : Role) :
    entriesFor q (.outside w, r) = entriesFor q (.outside w', r) := by
  cases r with
  | outer l => cases l <;> rfl
  | _ => rfl

/-! ## The same to one package -/

/-- `q` reads the same rules in both texts, and the second is as well formed as the first. -/
structure Frame (q : Str) (ls ls' : List Str) : Prop where
  seen : seen q Place.start ls = seen q Place.start ls'
  clashFree : ClashFree ls'

/-! ## The loader's side -/

/-- The calls of `add_rule` for `q`: thread and CPU spec, in file order. -/
def callsFor (q : Str) (ls : List Str) : List (Str × Str) :=
  (((Mealy.emit loadCtlStep {} ls).flatMap addArgs).filter fun e => e.1 = q).map (·.2)

/-- On a text without a clash the loader calls `add_rule` for `q` with what `q` sees. -/
theorem callsFor_eq_seen (h : ClashFree ls) : callsFor q ls = seen q Place.start ls := by
  have hrun := (load_sim.run (s := Place.start) (t := {}) rfl h).2
  rw [callsFor, ← hrun, List.filter_flatMap, List.map_flatMap]
  rfl

/-- What `add_rule` makes of a call, as far as a client of the rules of one package compares it. -/
def ruleView (topo : CpuTopology) (q : Str) (e : Str × Str) : Option (Str × CpuSet) :=
  (addRule (fun _ => true) topo q e.1 e.2).map fun r => (r.thread, r.cpus)

/-- What is added shows the arguments. -/
theorem addRule_view (create : Str → Bool) (topo : CpuTopology) (pkg thread cpus : Str) :
    (addRule create topo pkg thread cpus).map (fun r => (r.thread, r.cpus))
      = ruleView topo pkg (thread, cpus) := by
  unfold ruleView addRule
  dsimp only
  split
  · rfl
  split
  · rfl
  split
  · rfl
  split
  · rfl
  · rfl

theorem addRule_pkg {create : Str → Bool} {topo : CpuTopology} {pkg thread cpus : Str} {r : AffinityRule}
    (h : addRule create topo pkg thread cpus = some r) : r.pkg = pkg := by
  unfold addRule at h
  dsimp only at h
  split at h
  · cases h
  split at h
  · cases h
  split at h
  · cases h
  split at h
  · cases h
  · cases h
    rfl

/-- The arguments of a call, without the line. -/
def AddCall.args (c : AddCall) : Str × Str × Str := (c.pkg, c.thread, c.cpus)

theorem addCalls_args (ls : List Str) :
    (addCalls ls).map AddCall.args = (Mealy.emit loadCtlStep {} ls).flatMap addArgs := by
  rw [addCalls, List.map_map]
  exact Mealy.emit_indexed_view addArgs _ ls 0

/-- **The rules of a package are its calls**, whatever the environment of the load. -/
theorem rulesFor_eq (createCpusetDir : Nat → Str → Bool) (topo : CpuTopology) (q : Str) (ls : List Str) :
    rulesFor q (loadLines createCpusetDir topo ls).rules = (callsFor q ls).filterMap (ruleView topo q) := by
  rw [loadLines_rules, callsFor, ← addCalls_args]
  generalize addCalls ls = calls
  induction calls with
  | nil => rfl
  | cons c calls ih =>
    have hview := addRule_view (createCpusetDir c.line) topo c.pkg c.thread c.cpus
    cases hr : c.rule createCpusetDir topo with
    | none =>
      rw [AddCall.rule] at hr
      rw [hr, Option.map_none] at hview
      rw [List.filterMap_cons, AddCall.rule, hr, ih]
      by_cases hq : c.pkg = q
      · subst hq
        simp only [List.map_cons, AddCall.args, List.filter_cons, decide_true, if_true, List.filterMap_cons,
          ← hview]
      · simp [AddCall.args, hq]
    | some r =>
      rw [AddCall.rule] at hr
      rw [hr, Option.map_some] at hview
      have hpkg := addRule_pkg hr
      rw [List.filterMap_cons, AddCall.rule, hr]
      by_cases hq : c.pkg = q
      · subst hq
        simp only [rulesFor, List.filter_cons, hpkg, decide_true, if_true, List.map_cons, AddCall.args,
          List.filterMap_cons, ← hview]
        exact congrArg _ ih
      · simp only [rulesFor, List.filter_cons, hpkg, hq, decide_false, Bool.false_eq_true, if_false,
          List.map_cons, AddCall.args]
        exact ih

/-- `add_rule` refuses a rule without a package. -/
theorem rulesFor_empty (create : Nat → Str → Bool) (topo : CpuTopology) (ls : List Str) :
    rulesFor [] (loadLines create topo ls).rules = [] := by
  rw [rulesFor_eq, List.filterMap_eq_nil_iff]
  intro e _
  simp [ruleView, addRule]

/-- Blanks around a line mean nothing. -/
theorem loadCtlStep_congr {l l' : Str} (h : trim l = trim l') (c : LoadCtl) :
    loadCtlStep c l = loadCtlStep c l' := by
  unfold loadCtlStep
  rw [h]

/-- **Written and read back**, the lines say the same. -/
theorem callsFor_written (h : ∀ l ∈ ls, '\n' ∉ l) : callsFor q (lines (unlines ls)) = callsFor q ls := by
  by_cases hne : ls = []
  · subst hne
    rfl
  · have hrun : ∀ (c : LoadCtl) (ls : List Str),
        Mealy.emit loadCtlStep c (ls.map stripCr) = Mealy.emit loadCtlStep c ls := by
      intro c ls
      induction ls generalizing c with
      | nil => rfl
      | cons l ls ih =>
        rw [List.map_cons, Mealy.emit_cons, Mealy.emit_cons, loadCtlStep_congr (trim_stripCr l), ih]
    rw [lines_unlines hne h, callsFor, hrun]
    rfl

end AppOptR
