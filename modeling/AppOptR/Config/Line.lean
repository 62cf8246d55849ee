import AppOptR.Cpuset

/-!
# `Config.Line` — the line grammar of the rules file

The readers of `config.rs` that look at one line: the comment cut, the two rule readers (inside a block:
`splitRuleLine`, `closeLike`; outside: `parseOuter`, `splitSingleLine`) and the check of a CPU spec. The
loader and the rule editor share all of them; what each does with their answers is elsewhere
(`Config.Load`, `RuleEdit.Scan`).
-/

namespace AppOptR

open Text

def maxPkgLen : Nat := 128
def maxThreadLen : Nat := 32

/-! ## CPU specs -/

/-- One part of a spec that `spec_like` accepts: a tier name, a number, or two numbers and a dash. -/
def specPartLike (t : Str) : Bool :=
  t = "e-core".toList || t = "p-core".toList || t = "hp-core".toList || t = "all-core".toList ||
    allDigits t ||
    (splitFirst '-' t).any fun (a, b) => !a.isEmpty && !b.isEmpty && allDigits a && allDigits b

/-- `spec_like`: every part that is not blank is well shaped, and there is one. -/
def specLike (s : Str) : Bool :=
  let parts := ((s.splitOn ',').map trim).filter fun t => !t.isEmpty
  parts.all specPartLike && !parts.isEmpty

/-! ## Comments -/

/-- The position of the first `#` or `//` that follows white space; `prevWs` says whether the character
    before the text was white space. -/
def commentFind (prevWs : Bool) : Str → Option Nat
  | [] => none
  | c :: s =>
    if prevWs && (c == '#' || (c == '/' && s.head? == some '/')) then some 0
    else (commentFind (isWhitespace c) s).map (· + 1)

/-- `comment_at`: where the trailing comment starts, the blanks before it included. -/
def commentAt (s : Str) : Option Nat :=
  (commentFind false s).map fun i => (trimEnd (s.take i)).length

/-- `strip_comment`: the line up to its comment. -/
def stripComment (s : Str) : Str := s.take ((commentAt s).getD s.length)

/-- Lines both readers skip: blank ones and comment lines (`p` is already trimmed). -/
def skipped (p : Str) : Bool :=
  p.isEmpty || p.head? == some '#' || "//".toList.isPrefixOf p

/-! ## Inside a block -/

/-- `kv`: cut at the last `=`; the key must not be blank. -/
def kv (s : Str) : Option (Str × Str) :=
  match splitLast '=' s with
  | some (k, v) => if (trim k).isEmpty then none else some (trim k, trim v)
  | none => none

/-- The first `}` with a key and value before it; `pre` is what has been read of the line. -/
def kvBeforeBrace (pre : Str) : Str → Option (Str × Str)
  | [] => none
  | c :: s =>
    if c = '}' then
      match kv pre with
      | some r => some r
      | none => kvBeforeBrace (pre ++ [c]) s
    else kvBeforeBrace (pre ++ [c]) s

/-- `split_rule_line`: thread, CPU spec, and whether a `}` on the line closes the block. -/
def splitRuleLine (p : Str) : Option (Str × Str × Bool) :=
  let p := stripComment p
  match kvBeforeBrace [] p with
  | some (k, v) => some (k, v, true)
  | none => (kv p).map fun (k, v) => (k, v, false)

/-- `close_like`: a `}` that stands alone, up to a blank or a comment. -/
def closeLike (p : Str) : Bool :=
  match p with
  | '}' :: r => r.isEmpty || r.head?.any isWhitespace || r.head? == some '#' || "//".toList.isPrefixOf r
  | _ => false

/-! ## Outside every block -/

/-- `split_single_line`: the one-line form `pkg{thread}=spec`. -/
def splitSingleLine (body : Str) : Option (Str × Str × Str) :=
  match splitLast '=' body with
  | none => none
  | some (l, r) =>
    match stripSuffix '}' (trimEnd l) with
    | none => none
    | some left =>
      match splitFirst '{' (trimEnd left) with
      | none => none
      | some (pkg, thread) =>
        if (trim pkg).isEmpty || (trim thread).isEmpty then none
        else some (trim pkg, trim thread, trim r)

/-- `OuterLine`; `opens` is the source's `open`. -/
inductive OuterLine where
  | rule (pkg cpus : Str) (opens : Bool)
  | bareOpen (pkg : Str)
  | pending (pkg : Str)
  | single (pkg thread cpus : Str) (opens : Bool)
  | junk
  deriving DecidableEq

/-- The line without its comment, and without the `{` that opens a block. -/
def outerBody (p : Str) : Bool × Str :=
  let p := stripComment p
  match stripSuffix '{' p with
  | some b => (true, trimEnd b)
  | none => (false, p)

/-- The key part of `parse_outer`, after the one-line form and stray closes are out of the way. -/
def parseHeader (opens : Bool) (body : Str) : OuterLine :=
  match splitLast '=' body with
  | some (l, r) =>
    if (trim r).isEmpty then (if opens then .bareOpen (trim l) else .pending (trim l))
    else .rule (trim l) (trim r) opens
  | none => if opens then .bareOpen body else .pending body

/-- `parse_outer`: a line outside the blocks. -/
def parseOuter (p : Str) : OuterLine :=
  match outerBody p with
  | (opens, body) =>
    match splitSingleLine body with
    | some (pkg, thread, cpus) => .single pkg thread cpus opens
    | none => if !opens && closeLike body then .junk else parseHeader opens body

/-! ## What the readers return -/

/-- A single-line rule has a thread name. -/
theorem parseOuter_single {p pg th cpus : Str} {opens : Bool}
    (h : parseOuter p = .single pg th cpus opens) : pg ≠ [] ∧ th ≠ [] := by
  unfold parseOuter at h
  split at h
  split at h
  · next hs =>
    simp only [OuterLine.single.injEq] at h
    obtain ⟨rfl, rfl, rfl, rfl⟩ := h
    unfold splitSingleLine at hs
    split at hs
    · cases hs
    · split at hs
      · cases hs
      · split at hs
        · cases hs
        · split at hs
          · cases hs
          · next hne =>
            simp only [Option.some.injEq, Prod.mk.injEq] at hs
            obtain ⟨rfl, rfl, rfl⟩ := hs
            simpa using hne
  · split at h
    · cases h
    · unfold parseHeader at h
      split at h
      · split at h
        · split at h <;> cases h
        · cases h
      · split at h <;> cases h

theorem kv_key {s k v : Str} (h : kv s = some (k, v)) : k ≠ [] := by
  unfold kv at h
  split at h
  · split at h
    · cases h
    · next hne =>
      simp only [Option.some.injEq, Prod.mk.injEq] at h
      rw [← h.1]
      simpa using hne
  · cases h

theorem kvBeforeBrace_key {pre s k v : Str} (h : kvBeforeBrace pre s = some (k, v)) : k ≠ [] := by
  induction s generalizing pre with
  | nil => cases h
  | cons c s ih =>
    unfold kvBeforeBrace at h
    split at h
    · split at h
      · next hk => exact kv_key (hk.trans h)
      · exact ih h
    · exact ih h

/-- A rule line inside a block has a thread name. -/
theorem splitRuleLine_key {p k v : Str} {closed : Bool} (h : splitRuleLine p = some (k, v, closed)) :
    k ≠ [] := by
  unfold splitRuleLine at h
  dsimp only at h
  split at h
  · next hk =>
    simp only [Option.some.injEq, Prod.mk.injEq] at h
    exact kvBeforeBrace_key (h.1 ▸ hk)
  · simp only [Option.map_eq_some_iff, Prod.exists, Prod.mk.injEq] at h
    obtain ⟨k', v', hk, rfl, _, _⟩ := h
    exact kv_key hk

/-- The five shapes of a line outside a block. -/
example : parseOuter "com.a=0-3 \x7b # big".toList = .rule "com.a".toList "0-3".toList true := by
  decide +kernel
example : parseOuter "com.a \x7bRender\x7d=4".toList
    = .single "com.a".toList "Render".toList "4".toList false := by decide +kernel

end AppOptR
