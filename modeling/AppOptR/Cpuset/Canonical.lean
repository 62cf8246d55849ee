import AppOptR.Cpuset.Ranges

/-!
# `Cpuset.Canonical` — the range string names the set

The range string is the name of a cpuset directory, shared by every rule with the set, and what is written to its
`cpus` file. `parse_cpu_ranges` reads each of its ranges as the numbers between the bounds, since none of them comes
near the end of `usize` (`printRange_read`); so it reads the string as the set, and two sets never share a name
(`range_string_canonical`).
-/

namespace AppOptR

open Text Runs

variable {s set : CpuSet} {present : Option CpuSet} {i : Nat} {r : Nat × Nat} {rs : List (Nat × Nat)}

/-! ## Reading the ranges -/

/-- A printed number below `usize::MAX` is read as itself. -/
theorem parseUnsigned_toDigits {n : Nat} (h : n < cpuSetsize) : parseUnsigned 64 (Nat.toDigits 10 n) = some n := by
  have hfit : n < 2 ^ 64 := by
    have : cpuSetsize = 1024 := rfl
    omega
  rw [parseUnsigned_digits (toDigits_allDigits n) Nat.toDigits_ne_nil, number_toDigits, if_pos hfit]

/-- **One range**: the part sets the present CPUs between its bounds. -/
theorem printRange_read (hle : r.1 ≤ r.2) (hlt : r.2 < cpuSetsize) :
    (parseCpuRangesPart present set (printRange r)).isSet i = true ↔
      set.isSet i = true ∨ (r.1 ≤ i ∧ i ≤ r.2) ∧ ∀ pr, present = some pr → pr.isSet i = true := by
  have hsize : cpuSetsize = 1024 := rfl
  have hmax : usizeMax = 2 ^ 64 - 1 := rfl
  have hlo : r.1 < cpuSetsize := hle.trans_lt hlt
  have hrange : (setRange present set r.1 r.2).isSet i = true ↔
      set.isSet i = true ∨ (r.1 ≤ i ∧ i ≤ r.2) ∧ ∀ pr, present = some pr → pr.isSet i = true := by
    rw [setRange_isSet]
    constructor
    · rintro (h | ⟨h₁, h₂, _, h₃⟩)
      · exact .inl h
      · exact .inr ⟨⟨h₁, h₂⟩, h₃⟩
    · rintro (h | ⟨⟨h₁, h₂⟩, h₃⟩)
      · exact .inl h
      · exact .inr ⟨h₁, h₂, h₂.trans_lt hlt, h₃⟩
  rw [← hrange]
  unfold parseCpuRangesPart
  dsimp only
  rw [trim_printRange, if_neg (by simpa using printRange_ne_nil)]
  unfold printRange
  -- a range of one CPU is written without a dash
  by_cases he : r.1 = r.2
  · rw [if_pos he, splitFirst_eq_none.mpr (digits_no_dash (toDigits_allDigits _))]
    dsimp only
    rw [parseUnsigned_toDigits hlo, Option.getD_some, if_neg (by omega), ← he]
  · rw [if_neg he, splitFirst_eq_some.mpr ⟨rfl, digits_no_dash (toDigits_allDigits _)⟩]
    dsimp only
    rw [parseUnsigned_toDigits hlo, parseUnsigned_toDigits hlt, Option.getD_some, Option.getD_some,
      if_neg (by omega), if_neg (by omega)]

/-- The ranges, one after the other. -/
theorem foldl_printRange {set : CpuSet} (h : ∀ r ∈ rs, r.1 ≤ r.2 ∧ r.2 < cpuSetsize) :
    ((rs.map printRange).foldl (parseCpuRangesPart present) set).isSet i = true ↔
      set.isSet i = true ∨ (∃ r ∈ rs, r.1 ≤ i ∧ i ≤ r.2) ∧ ∀ pr, present = some pr → pr.isSet i = true := by
  induction rs generalizing set with
  | nil => simp
  | cons r rs ih =>
    obtain ⟨hle, hlt⟩ := h r (by simp)
    rw [List.map_cons, List.foldl_cons, ih fun r' hr' => h r' (List.mem_cons_of_mem _ hr'), printRange_read hle hlt,
      List.exists_mem_cons_iff, or_assoc, ← or_and_right]

theorem printRuns_ne_nil (h : rs ≠ []) : printRuns rs ≠ [] := by
  cases rs with
  | nil => exact absurd rfl h
  | cons r rs =>
    rw [printRuns]
    simp [printRange_ne_nil]

/-- **The range string read by `parse_cpu_ranges`**: the members of the set that are present. -/
theorem parseCpuRanges_rangeString (s : CpuSet) (present : Option CpuSet) (i : Nat) :
    (parseCpuRanges s.toRangeString present).isSet i = true ↔
      s.isSet i = true ∧ ∀ pr, present = some pr → pr.isSet i = true := by
  have hcover : (∃ r ∈ runs s.isSet cpuSetsize, r.1 ≤ i ∧ i ≤ r.2) ↔ s.isSet i = true := by
    rw [mem_runs]
    exact ⟨fun h => h.2, fun h => ⟨CpuSet.isSet_lt h, h⟩⟩
  rw [toRangeString_eq]
  unfold parseCpuRanges
  by_cases hne : runs s.isSet cpuSetsize = []
  · rw [hne] at hcover ⊢
    rw [if_pos (by rfl), CpuSet.isSet_new, ← hcover]
    simp
  · rw [if_neg (by simpa using printRuns_ne_nil hne), splitOn_printRuns hne,
      foldl_printRange fun r hr => runs_bounds r (List.mem_reverse.mp hr), CpuSet.isSet_new, ← hcover]
    simp only [List.mem_reverse, Bool.false_eq_true, false_or]

/-! ## The name of a set -/

/-- The range string of `s` lists ranges that go up and do not touch, is read back as `s`, and is the name of no
    other set. -/
structure CanonicalName (s : CpuSet) : Prop where
  ranges : ∃ rs : List (Nat × Nat), s.toRangeString = [','].intercalate (rs.map printRange) ∧
    (∀ r ∈ rs, r.1 ≤ r.2) ∧ rs.Pairwise fun r r' => r.2 + 1 < r'.1
  readBack : parseCpuRanges s.toRangeString none = s
  unique : ∀ t : CpuSet, t ≠ s → t.toRangeString ≠ s.toRangeString

theorem parseCpuRanges_toRangeString (s : CpuSet) : parseCpuRanges s.toRangeString none = s := by
  apply CpuSet.ext_isSet
  intro i
  rw [Bool.eq_iff_iff, parseCpuRanges_rangeString]
  exact ⟨fun h => h.1, fun h => ⟨h, fun _ hpr => by cases hpr⟩⟩

/-- **The range string is a canonical name** of its set. -/
theorem range_string_canonical (s : CpuSet) : CanonicalName s := by
  refine ⟨⟨(runs s.isSet cpuSetsize).reverse, ?_, fun r hr => ?_, ?_⟩, parseCpuRanges_toRangeString s,
    fun t hne hsame => ?_⟩
  · rw [toRangeString_eq, printRuns_eq]
  · exact (runs_bounds r (List.mem_reverse.mp hr)).1
  · exact List.pairwise_reverse.mpr runs_apart
  · apply hne
    rw [← parseCpuRanges_toRangeString t, hsame, parseCpuRanges_toRangeString]

/-- A run across a word boundary, and one that ends at the next. -/
example : (parseCpuRanges "127,60-70,100-101".toList none).toRangeString = "60-70,100-101,127".toList := by
  decide +kernel

end AppOptR
