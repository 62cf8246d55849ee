import Mathlib

/-!
# `Lib.Text` — Rust text as a list of characters

A Rust `&str` is a sequence of Unicode scalar values, and so is a `List Char`; every operation here is
the Rust one of the same name, with a character index where Rust has a byte index (a byte index of the
standard library always lands on a character boundary, so it cuts the text at the same place).

* `trim`, `splitLast`, `splitFirst`, `stripSuffix` — the cutting primitives, each with the one equation
  that characterises it (`splitLast_eq_some`, `stripSuffix_eq_some`, `trim_decomp`);
* `lines` / `unlines` — `str::lines` and the `join("\n")` + final newline that undoes it.
-/

namespace AppOptR
namespace Text

/-- Text: the characters of a Rust `&str` or `String`. -/
abbrev Str := List Char

/-- `char::is_whitespace`, the Unicode `White_Space` property. -/
def isWhitespace (c : Char) : Bool :=
  let n := c.toNat
  (9 ≤ n && n ≤ 13) || n == 32 || n == 0x85 || n == 0xA0 || n == 0x1680 ||
    (0x2000 ≤ n && n ≤ 0x200A) || n == 0x2028 || n == 0x2029 || n == 0x202F || n == 0x205F ||
    n == 0x3000

/-- The byte test `b < 0x20 || b == 0x7f`. Every byte of a multi-byte character is at least `0x80`, so
    testing the bytes of a text is testing its characters. -/
def isControl (c : Char) : Bool := c.toNat < 0x20 || c.toNat == 0x7f

/-- `str::len`: the length in UTF-8 bytes. -/
def byteLen (s : Str) : Nat := (s.map Char.utf8Size).sum

/-- `str::trim_start`. -/
def trimStart (s : Str) : Str := s.dropWhile isWhitespace

/-- `str::trim_end`. -/
def trimEnd (s : Str) : Str := s.rdropWhile isWhitespace

/-- `str::trim`. -/
def trim (s : Str) : Str := trimEnd (trimStart s)

/-- `str::strip_suffix` by one character. -/
def stripSuffix (c : Char) (s : Str) : Option Str :=
  if s.getLast? = some c then some s.dropLast else none

/-- The two sides of the last `c`, as `rfind` and the two slices around it give them. -/
def splitLast (c : Char) : Str → Option (Str × Str)
  | [] => none
  | d :: s =>
    match splitLast c s with
    | some (a, b) => some (d :: a, b)
    | none => if d = c then some ([], s) else none

/-- The two sides of the first `c`, as `find` and the two slices around it give them. -/
def splitFirst (c : Char) : Str → Option (Str × Str)
  | [] => none
  | d :: s => if d = c then some ([], s) else (splitFirst c s).map fun p => (d :: p.1, p.2)

/-- `str::contains` for a string pattern. -/
def containsStr (p s : Str) : Bool := s.tails.any p.isPrefixOf

/-- One trailing carriage return, which `str::lines` takes off with the line feed. -/
def stripCr (s : Str) : Str := (stripSuffix '\r' s).getD s

/-- `str::lines`: cut at every line feed; the text after the last one is a line only when it is not
    empty, and keeps its carriage return. -/
def lines (s : Str) : List Str :=
  let parts := s.splitOn '\n'
  parts.dropLast.map stripCr ++ (if parts.getLastD [] = [] then [] else [parts.getLastD []])

/-- `lines.join("\n")` followed by a final line feed. -/
def unlines (ls : List Str) : Str := ['\n'].intercalate ls ++ ['\n']

/-! ## Cutting at a character -/

theorem splitLast_eq_none {c : Char} {s : Str} : splitLast c s = none ↔ c ∉ s := by
  induction s with
  | nil => simp [splitLast]
  | cons d s ih =>
    unfold splitLast
    cases h : splitLast c s with
    | some p =>
      have hc : c ∈ s := by
        by_contra hn
        rw [ih.mpr hn] at h
        cases h
      simp [hc]
    | none =>
      have hc : c ∉ s := ih.mp h
      by_cases hd : d = c
      · simp [hd]
      · simp [hd, hc, Ne.symm hd]

/-- **The last cut.** `splitLast` returns the one decomposition whose right side is free of `c`. -/
theorem splitLast_eq_some {c : Char} {s a b : Str} :
    splitLast c s = some (a, b) ↔ s = a ++ c :: b ∧ c ∉ b := by
  induction s generalizing a b with
  | nil => simp [splitLast]
  | cons d s ih =>
    unfold splitLast
    cases h : splitLast c s with
    | some p =>
      -- the last `c` is in the tail
      obtain ⟨a', b'⟩ := p
      obtain ⟨hs, hb'⟩ := ih.mp h
      constructor
      · intro he
        simp only [Option.some.injEq, Prod.mk.injEq] at he
        obtain ⟨rfl, rfl⟩ := he
        exact ⟨by rw [hs]; rfl, hb'⟩
      · rintro ⟨he, hb⟩
        cases a with
        | nil =>
          rw [List.nil_append, List.cons.injEq] at he
          exact absurd (by rw [← he.2, hs]; simp) hb
        | cons x a =>
          rw [List.cons_append, List.cons.injEq] at he
          have := h.symm.trans (ih.mpr ⟨he.2, hb⟩)
          simp only [Option.some.injEq, Prod.mk.injEq] at this
          rw [he.1, this.1, this.2]
    | none =>
      -- no `c` in the tail: the head is the last one, or there is none
      have hc : c ∉ s := splitLast_eq_none.mp h
      by_cases hd : d = c
      · subst hd
        simp only [if_true, Option.some.injEq, Prod.mk.injEq]
        constructor
        · rintro ⟨rfl, rfl⟩
          exact ⟨rfl, hc⟩
        · rintro ⟨he, hb⟩
          cases a with
          | nil => exact ⟨rfl, (List.cons.inj he).2⟩
          | cons x a =>
            rw [List.cons_append, List.cons.injEq] at he
            exact absurd (by rw [he.2]; simp) hc
      · simp only [hd, if_false, reduceCtorEq, false_iff, not_and]
        intro he
        cases a with
        | nil => exact absurd (List.cons.inj he).1 hd
        | cons x a =>
          rw [List.cons_append, List.cons.injEq] at he
          exact absurd (by rw [he.2]; simp) hc

theorem splitFirst_eq_none {c : Char} {s : Str} : splitFirst c s = none ↔ c ∉ s := by
  induction s with
  | nil => simp [splitFirst]
  | cons d s ih =>
    unfold splitFirst
    by_cases hd : d = c
    · simp [hd]
    · simp [hd, ih, Ne.symm hd]

/-- **The first cut.** `splitFirst` returns the one decomposition whose left side is free of `c`. -/
theorem splitFirst_eq_some {c : Char} {s a b : Str} :
    splitFirst c s = some (a, b) ↔ s = a ++ c :: b ∧ c ∉ a := by
  induction s generalizing a b with
  | nil => simp [splitFirst]
  | cons d s ih =>
    unfold splitFirst
    by_cases hd : d = c
    · subst hd
      cases a with
      | nil => simp
      | cons x a =>
        simp only [if_true, Option.some.injEq, Prod.mk.injEq, reduceCtorEq, false_and, List.cons_append,
          List.cons.injEq, List.mem_cons, not_or, false_iff, not_and]
        intro h hx
        exact absurd h.1 hx
    · cases a with
      | nil => simp [hd]
      | cons x a =>
        simp only [hd, if_false, Option.map_eq_some_iff, Prod.exists, Prod.mk.injEq, List.cons.injEq,
          List.cons_append, List.mem_cons, not_or]
        constructor
        · rintro ⟨a', b', h, ⟨rfl, rfl⟩, rfl⟩
          exact ⟨⟨rfl, (ih.mp h).1⟩, Ne.symm hd, (ih.mp h).2⟩
        · rintro ⟨⟨rfl, h⟩, _, ha⟩
          exact ⟨a, b, ih.mpr ⟨h, ha⟩, ⟨rfl, rfl⟩, rfl⟩

theorem stripSuffix_eq_some {c : Char} {s b : Str} : stripSuffix c s = some b ↔ s = b ++ [c] := by
  unfold stripSuffix
  constructor
  · intro h
    split at h
    · next hl =>
      simp only [Option.some.injEq] at h
      rw [← h]
      exact (List.dropLast_append_getLast? c hl).symm
    · cases h
  · rintro rfl
    simp

theorem stripSuffix_eq_none {c : Char} {s : Str} : stripSuffix c s = none ↔ s.getLast? ≠ some c := by
  unfold stripSuffix
  split <;> simp_all

/-! ## Trimming -/

/-- The text does not start with white space. -/
def HeadSolid (s : Str) : Prop := ∀ c, s.head? = some c → isWhitespace c = false

/-- The text does not end with white space. -/
def LastSolid (s : Str) : Prop := ∀ c, s.getLast? = some c → isWhitespace c = false

theorem trimStart_eq_self {s : Str} : trimStart s = s ↔ HeadSolid s := by
  cases s with
  | nil => simp [trimStart, HeadSolid]
  | cons c s =>
    unfold trimStart HeadSolid
    cases h : isWhitespace c with
    | false => simp [h]
    | true =>
      simp only [List.dropWhile_cons, h, if_true, List.head?_cons, Option.some.injEq, forall_eq',
        Bool.true_eq_false, iff_false]
      intro he
      have := congrArg List.length he
      have hle := (List.dropWhile_sublist isWhitespace (l := s)).length_le
      simp only [List.length_cons] at this
      omega

theorem trimEnd_eq_self {s : Str} : trimEnd s = s ↔ LastSolid s := by
  unfold trimEnd LastSolid
  rw [List.rdropWhile_eq_self_iff]
  constructor
  · intro h c hc
    obtain ⟨ys, rfl⟩ := List.getLast?_eq_some_iff.mp hc
    simpa using h (by simp)
  · intro h hne
    simpa using h _ (List.getLast?_eq_some_getLast hne)

/-- White space and nothing else. -/
def Blank (s : Str) : Prop := ∀ c ∈ s, isWhitespace c = true

theorem Blank.append {s t : Str} (hs : Blank s) (ht : Blank t) : Blank (s ++ t) := by
  intro c hc
  exact (List.mem_append.mp hc).elim (hs c) (ht c)

theorem blank_nil : Blank [] := by intro c hc; cases hc

theorem trimStart_append {w : Str} (hw : Blank w) (s : Str) : trimStart (w ++ s) = trimStart s :=
  List.dropWhile_append_of_pos hw

theorem trimEnd_append {w : Str} (hw : Blank w) (s : Str) : trimEnd (s ++ w) = trimEnd s := by
  induction w using List.reverseRecOn with
  | nil => simp
  | append_singleton w c ih =>
    have hc : isWhitespace c = true := hw c (by simp)
    rw [← List.append_assoc]
    show List.rdropWhile isWhitespace (s ++ w ++ [c]) = _
    rw [List.rdropWhile_concat_pos _ _ _ hc]
    exact ih fun x hx => hw x (by simp [hx])

theorem trimEnd_append_cons {x : Char} (hx : isWhitespace x = false) (s t : Str) :
    trimEnd (s ++ x :: t) = s ++ x :: trimEnd t := by
  unfold trimEnd
  induction t using List.reverseRecOn with
  | nil => exact List.rdropWhile_concat_neg _ _ _ (by simp [hx])
  | append_singleton t y ih =>
    rw [← List.cons_append, ← List.append_assoc]
    cases hy : isWhitespace y with
    | true => rw [List.rdropWhile_concat_pos _ _ _ hy, List.rdropWhile_concat_pos _ _ _ hy, ih]
    | false =>
      rw [List.rdropWhile_concat_neg _ _ _ (by simp [hy]), List.rdropWhile_concat_neg _ _ _ (by simp [hy])]
      simp

theorem trimStart_decomp (s : Str) : ∃ w, Blank w ∧ s = w ++ trimStart s :=
  ⟨s.takeWhile isWhitespace, fun _ hc => List.mem_takeWhile_imp hc,
    (List.takeWhile_append_dropWhile).symm⟩

theorem trimEnd_decomp (s : Str) : ∃ w, Blank w ∧ s = trimEnd s ++ w :=
  ⟨s.rtakeWhile isWhitespace, fun _ hc => List.mem_rtakeWhile_imp hc,
    (List.rdropWhile_append_rtakeWhile).symm⟩

theorem trimStart_append_cons {x : Char} (hx : isWhitespace x = false) (s t : Str) :
    trimStart (s ++ x :: t) = trimStart s ++ x :: t := by
  induction s with
  | nil => simp [trimStart, hx]
  | cons c s ih =>
    rw [List.cons_append]
    unfold trimStart at ih ⊢
    rw [List.dropWhile_cons, List.dropWhile_cons]
    split
    · exact ih
    · rfl

theorem headSolid_trimStart (s : Str) : HeadSolid (trimStart s) :=
  trimStart_eq_self.mp (List.dropWhile_idempotent _ _)

theorem lastSolid_trimEnd (s : Str) : LastSolid (trimEnd s) :=
  trimEnd_eq_self.mp (List.rdropWhile_idempotent _ _)

theorem HeadSolid.append {a : Str} (ha : HeadSolid a) (hne : a ≠ []) (b : Str) : HeadSolid (a ++ b) := by
  cases a with
  | nil => exact absurd rfl hne
  | cons c a => exact ha

theorem HeadSolid.of_append {a b : Str} (h : HeadSolid (a ++ b)) : HeadSolid a := by
  cases a with
  | nil => intro c hc; cases hc
  | cons c a => exact h

theorem LastSolid.append {b : Str} (hb : LastSolid b) (hne : b ≠ []) (a : Str) : LastSolid (a ++ b) := by
  intro c hc
  rw [List.getLast?_append_of_ne_nil _ hne] at hc
  exact hb c hc

theorem LastSolid.of_append {a b : Str} (h : LastSolid (a ++ b)) : LastSolid b := by
  by_cases hb : b = []
  · subst hb; intro c hc; cases hc
  · intro c hc
    exact h c (by rw [List.getLast?_append_of_ne_nil _ hb]; exact hc)

/-- What trimming the end leaves starts as the text did. -/
theorem headSolid_trimEnd {s : Str} (h : HeadSolid s) : HeadSolid (trimEnd s) := by
  obtain ⟨w, _, hs⟩ := trimEnd_decomp s
  rw [hs] at h
  exact h.of_append

theorem headSolid_trim (s : Str) : HeadSolid (trim s) := headSolid_trimEnd (headSolid_trimStart s)

theorem lastSolid_trim (s : Str) : LastSolid (trim s) := lastSolid_trimEnd _

theorem trim_of_solid {s : Str} (hh : HeadSolid s) (hl : LastSolid s) : trim s = s := by
  unfold trim
  rw [trimStart_eq_self.mpr hh, trimEnd_eq_self.mpr hl]

@[simp] theorem trim_trim (s : Str) : trim (trim s) = trim s :=
  trim_of_solid (headSolid_trim s) (lastSolid_trim s)

@[simp] theorem trim_nil : trim [] = [] := rfl

/-- **Trimming takes blanks off both sides.** -/
theorem trim_decomp (s : Str) : ∃ w w', Blank w ∧ Blank w' ∧ s = w ++ (trim s ++ w') := by
  obtain ⟨w, hw, hs⟩ := trimStart_decomp s
  obtain ⟨w', hw', hs'⟩ := trimEnd_decomp (trimStart s)
  exact ⟨w, w', hw, hw', by rw [hs]; exact congrArg (w ++ ·) (by rw [← hs]; exact hs')⟩

theorem trim_blank_append {w : Str} (hw : Blank w) (s : Str) : trim (w ++ s) = trim s := by
  unfold trim; rw [trimStart_append hw]

theorem trimEnd_eq_nil {s : Str} : trimEnd s = [] ↔ Blank s := List.rdropWhile_eq_nil_iff

theorem trimStart_eq_nil {s : Str} : trimStart s = [] ↔ Blank s := List.dropWhile_eq_nil_iff

theorem trim_eq_nil {s : Str} : trim s = [] ↔ Blank s := by
  constructor
  · intro h
    obtain ⟨w, w', hw, hw', hs⟩ := trim_decomp s
    rw [hs, h, List.nil_append]
    exact hw.append hw'
  · intro h
    unfold trim
    rw [trimStart_eq_nil.mpr h]
    rfl

/-- Trimming at the end commutes with trimming at the start. -/
theorem trim_append_blank {w : Str} (hw : Blank w) (s : Str) : trim (s ++ w) = trim s := by
  by_cases hs : Blank s
  · rw [trim_eq_nil.mpr hs, trim_eq_nil.mpr (hs.append hw)]
  · obtain ⟨v, hv, he⟩ := trimStart_decomp s
    have hne : trimStart s ≠ [] := fun h => hs (trimStart_eq_nil.mp h)
    have hsolid : HeadSolid (trimStart s ++ w) := (headSolid_trimStart s).append hne w
    calc trim (s ++ w) = trim (v ++ (trimStart s ++ w)) := by rw [← List.append_assoc, ← he]
      _ = trim (trimStart s ++ w) := trim_blank_append hv _
      _ = trimEnd (trimStart s ++ w) := by unfold trim; rw [trimStart_eq_self.mpr hsolid]
      _ = trim s := trimEnd_append hw _

theorem HeadSolid.trim_eq {s : Str} (h : HeadSolid s) : trim s = trimEnd s := by
  unfold trim; rw [trimStart_eq_self.mpr h]

theorem trim_trimEnd (s : Str) : trim (trimEnd s) = trim s := by
  obtain ⟨w, hw, hs⟩ := trimEnd_decomp s
  conv_rhs => rw [hs, trim_append_blank hw]

/-! ## Substrings -/

theorem containsStr_iff {p s : Str} : containsStr p s = true ↔ p <:+: s := by
  simp only [containsStr, List.any_eq_true, List.mem_tails, List.isPrefixOf_iff_prefix]
  rw [List.infix_iff_prefix_suffix]
  exact exists_congr fun t => and_comm

theorem mem_intercalate {x c : Char} {ls : List Str} (h : c ∈ [x].intercalate ls) :
    c = x ∨ ∃ l ∈ ls, c ∈ l := by
  induction ls with
  | nil => simp at h
  | cons l ls ih =>
    cases ls with
    | nil => exact .inr ⟨l, by simp, by simpa using h⟩
    | cons l' ls =>
      rw [List.intercalate_cons_cons, List.append_assoc] at h
      rcases List.mem_append.mp h with h | h
      · exact .inr ⟨l, by simp, h⟩
      · rcases List.mem_append.mp h with h | h
        · exact .inl (List.mem_singleton.mp h)
        · rcases ih h with h | ⟨p, hp, hc⟩
          · exact .inl h
          · exact .inr ⟨p, List.mem_cons_of_mem _ hp, hc⟩

/-- Every character of a text other than the cut stands in one of the parts. -/
theorem mem_splitOn {x c : Char} {s : Str} (h : c ∈ s) : c = x ∨ ∃ p ∈ s.splitOn x, c ∈ p := by
  apply mem_intercalate
  rwa [List.intercalate_splitOn]

/-- A two-character text that avoids `x` cannot straddle an `x`. -/
theorem infix_pair_append_cons {c d x : Char} (hc : c ≠ x) (hd : d ≠ x) {a b : Str} :
    [c, d] <:+: a ++ x :: b ↔ [c, d] <:+: a ∨ [c, d] <:+: b := by
  constructor
  · induction a with
    | nil =>
      intro h
      rcases List.infix_cons_iff.mp h with h | h
      · obtain ⟨t, ht⟩ := h
        exact absurd (List.cons.inj ht).1 hc
      · exact .inr h
    | cons y a ih =>
      intro h
      rcases List.infix_cons_iff.mp h with h | h
      · obtain ⟨t, ht⟩ := h
        obtain ⟨hy, hrest⟩ := List.cons.inj ht
        cases a with
        | nil => exact absurd (List.cons.inj hrest).1 hd
        | cons z a =>
          rw [← hy, ← (List.cons.inj hrest).1]
          exact .inl ⟨[], a, rfl⟩
      · rcases ih h with h | h
        · exact .inl (List.infix_cons h)
        · exact .inr h
  · rintro (h | h)
    · exact h.trans (List.prefix_append _ _).isInfix
    · exact h.trans ((List.suffix_cons x b).trans (List.suffix_append a _)).isInfix

/-! ## Lines -/

@[simp] theorem lines_nil : lines [] = [] := rfl

/-- What stands before a line feed is cut into lines on its own. -/
theorem lines_append_newline (s t : Str) :
    lines (s ++ '\n' :: t) = (s.splitOn '\n').map stripCr ++ lines t := by
  have hne : t.splitOn '\n' ≠ [] := List.splitOn_ne_nil _ _
  have hlast : (s.splitOn '\n' ++ t.splitOn '\n').getLastD [] = (t.splitOn '\n').getLastD [] := by
    rw [List.getLastD_eq_getLast?, List.getLastD_eq_getLast?, List.getLast?_append_of_ne_nil _ hne]
  unfold lines
  dsimp only
  rw [List.splitOn_append_cons_self, hlast, List.dropLast_append_of_ne_nil hne, List.map_append,
    List.append_assoc]

theorem lines_line {s : Str} (h : '\n' ∉ s) (t : Str) : lines (s ++ '\n' :: t) = stripCr s :: lines t := by
  rw [lines_append_newline, List.splitOn_eq_singleton h]
  rfl

theorem unlines_singleton (l : Str) : unlines [l] = l ++ ['\n'] := by simp [unlines]

theorem unlines_cons (l : Str) {ls : List Str} (h : ls ≠ []) : unlines (l :: ls) = l ++ '\n' :: unlines ls := by
  cases ls with
  | nil => exact absurd rfl h
  | cons l' ls => simp [unlines, List.intercalate_cons_cons]

/-- **Reading back what was written**: the lines return, less a carriage return at the end of one. -/
theorem lines_unlines {ls : List Str} (hne : ls ≠ []) (h : ∀ l ∈ ls, '\n' ∉ l) :
    lines (unlines ls) = ls.map stripCr := by
  induction ls with
  | nil => exact absurd rfl hne
  | cons l ls ih =>
    have hl : '\n' ∉ l := h l (by simp)
    by_cases hls : ls = []
    · subst hls
      rw [unlines_singleton, lines_line hl]
      rfl
    · rw [unlines_cons l hls, lines_line hl, ih hls fun l' hl' => h l' (by simp [hl'])]
      rfl

/-- A text with a line feed, cut at the last one. -/
theorem newline_split {s : Str} (h : '\n' ∈ s) : ∃ a b, s = a ++ '\n' :: b ∧ '\n' ∉ b := by
  cases hs : splitLast '\n' s with
  | none => exact absurd h (splitLast_eq_none.mp hs)
  | some p => exact ⟨p.1, p.2, splitLast_eq_some.mp hs⟩

theorem trim_stripCr (s : Str) : trim (stripCr s) = trim s := by
  unfold stripCr
  cases h : stripSuffix '\r' s with
  | none => rfl
  | some b =>
    have hs : s = b ++ ['\r'] := stripSuffix_eq_some.mp h
    have hw : Blank ['\r'] := by simp only [Blank, List.mem_singleton, forall_eq]; decide
    rw [Option.getD_some, hs, trim_append_blank hw]

theorem stripCr_subset (s : Str) : stripCr s ⊆ s := by
  unfold stripCr
  cases h : stripSuffix '\r' s with
  | none => exact List.Subset.refl s
  | some b =>
    rw [stripSuffix_eq_some.mp h]
    exact List.subset_append_left b _

/-- No line of a text holds a line feed. -/
theorem lines_no_newline {s l : Str} (h : l ∈ lines s) : '\n' ∉ l := by
  -- by the number of characters: the first line feed cuts one line off
  generalize hn : s.length = n
  induction n using Nat.strong_induction_on generalizing s with
  | _ n ih =>
    cases hs : splitFirst '\n' s with
    | none =>
      have hfree : '\n' ∉ s := splitFirst_eq_none.mp hs
      unfold lines at h
      rw [List.splitOn_eq_singleton hfree] at h
      replace h : l ∈ (if s = [] then [] else [s]) := h
      split at h
      · cases h
      · rwa [List.mem_singleton.mp h]
    | some cut =>
      obtain ⟨a, b⟩ := cut
      obtain ⟨rfl, ha⟩ := splitFirst_eq_some.mp hs
      rw [lines_line ha] at h
      rcases List.mem_cons.mp h with rfl | h
      · exact fun hm => ha (stripCr_subset a hm)
      · refine ih b.length ?_ h rfl
        simp only [List.length_append, List.length_cons] at hn
        omega

theorem stripCr_of_solid {s : Str} (h : LastSolid s) : stripCr s = s := by
  unfold stripCr
  cases hs : stripSuffix '\r' s with
  | none => rfl
  | some b =>
    rw [stripSuffix_eq_some.mp hs] at h
    exact absurd (h '\r' (by simp)) (by decide)

end Text
end AppOptR
