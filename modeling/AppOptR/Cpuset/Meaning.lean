import AppOptR.Config.Line
import AppOptR.Cpuset.Members

/-!
# `Cpuset.Meaning` — what a CPU spec says

`NamesCpu` is the meaning of a spec: each part names a tier, a number, or all numbers between two bounds, with the
numbers read as naturals. `parse_cpu_spec` works in `usize` and marks "no number" by `usize::MAX`, so a range
with a bound that does not fit loses CPUs it names (`LosesCpu`). `parseCpuSpec_isSet` says which CPUs the parser
gives; the parser means what the spec says exactly when every CPU that one part loses is given by another.
-/

namespace AppOptR

open Text

variable {topo : CpuTopology} {present : Option CpuSet} {set : CpuSet} {s part : Str} {i : Nat}

/-! ## Numbers -/

/-- A digit string as a natural number, of any length. -/
def number (s : Str) : Nat := Nat.ofDigitChars 10 s 0

theorem allDigits_mem (h : allDigits s = true) {c : Char} (hc : c ∈ s) : c.isDigit = true :=
  List.all_eq_true.mp h c hc

/-- A digit string is read as its number, or not at all. -/
theorem parseUnsigned_digits {width : Nat} (h : allDigits s = true) (hne : s ≠ []) :
    parseUnsigned width s = if number s < 2 ^ width then some (number s) else none := by
  have hplus : s.head? ≠ some '+' := fun hp => by
    have := allDigits_mem h (List.mem_of_head? hp)
    revert this
    decide
  have hguard : ¬ (s.isEmpty || !allDigits s) = true := by simp [h, hne]
  unfold parseUnsigned
  rw [if_neg hplus]
  exact if_neg hguard

theorem digits_no_dash (h : allDigits s = true) : '-' ∉ s := fun hm => by
  have := allDigits_mem h hm
  revert this
  decide

theorem digits_no_comma (h : allDigits s = true) : ',' ∉ s := fun hm => by
  have := allDigits_mem h hm
  revert this
  decide

/-! ## What a part names, and what the parser loses of it -/

/-- The set a tier name stands for. -/
def tierOf (topo : CpuTopology) (part : Str) : Option CpuSet :=
  if part = "e-core".toList then some topo.eCore
  else if part = "p-core".toList then some topo.pCore
  else if part = "hp-core".toList then some topo.hpCore
  else if part = "all-core".toList then some topo.presentCpus
  else none

/-- The bounds of a numeric part. -/
def boundsOf (part : Str) : Nat × Nat :=
  match splitFirst '-' part with
  | some (a, b) => (number a, number b)
  | none => (number part, number part)

/-- The part names CPU `i`. -/
def PartNames (topo : CpuTopology) (part : Str) (i : Nat) : Prop :=
  match tierOf topo part with
  | some tier => tier.isSet i = true
  | none => topo.presentCpus.isSet i = true ∧ min (boundsOf part).1 (boundsOf part).2 ≤ i ∧
      i ≤ max (boundsOf part).1 (boundsOf part).2

/-- The parser loses CPU `i` of a range: the first bound is `usize::MAX` or more, or the second does not fit and
    `i` is not the first. -/
def PartLoses (topo : CpuTopology) (part : Str) (i : Nat) : Prop :=
  tierOf topo part = none ∧ '-' ∈ part ∧
    (usizeMax ≤ (boundsOf part).1 ∨ 2 ^ 64 ≤ (boundsOf part).2 ∧ i ≠ (boundsOf part).1)

instance (topo : CpuTopology) (part : Str) (i : Nat) : Decidable (PartNames topo part i) := by
  unfold PartNames
  split <;> infer_instance

instance (topo : CpuTopology) (part : Str) (i : Nat) : Decidable (PartLoses topo part i) :=
  inferInstanceAs (Decidable (_ ∧ _ ∧ (_ ∨ _ ∧ _)))

/-- The non-blank parts of a spec, trimmed. -/
def specParts (s : Str) : List Str := ((s.splitOn ',').map trim).filter fun t => !t.isEmpty

/-- **The meaning of a spec**: some part names the CPU. -/
def NamesCpu (topo : CpuTopology) (s : Str) (i : Nat) : Prop := ∃ part ∈ specParts s, PartNames topo part i

instance (topo : CpuTopology) (s : Str) (i : Nat) : Decidable (NamesCpu topo s i) :=
  inferInstanceAs (Decidable (∃ part ∈ specParts s, PartNames topo part i))

/-- Some part names the CPU and the parser loses it there. -/
def LosesCpu (topo : CpuTopology) (s : Str) (i : Nat) : Prop :=
  ∃ part ∈ specParts s, PartNames topo part i ∧ PartLoses topo part i

/-- Some part names the CPU and the parser keeps it. -/
def KeepsCpu (topo : CpuTopology) (s : Str) (i : Nat) : Prop :=
  ∃ part ∈ specParts s, PartNames topo part i ∧ ¬ PartLoses topo part i

/-! ## Ranges -/

/-- The inner loop sets the numbers in its range that are present. -/
theorem foldl_set {is : List Nat} :
    (is.foldl (fun set i => if present.any fun pr => !pr.isSet i then set else set.set i) set).isSet i = true ↔
      set.isSet i = true ∨ i ∈ is ∧ i < cpuSetsize ∧ ∀ pr, present = some pr → pr.isSet i = true := by
  induction is generalizing set with
  | nil => simp
  | cons j is ih =>
    rw [List.foldl_cons, ih]
    -- one member: set unless the present CPUs lack it
    have hstep : (if present.any fun pr => !pr.isSet j then set else set.set j).isSet i = true ↔
        set.isSet i = true ∨ i = j ∧ i < cpuSetsize ∧ ∀ pr, present = some pr → pr.isSet i = true := by
      cases present with
      | none =>
        simp only [Option.any_none, Bool.false_eq_true, if_false, CpuSet.isSet_set, Bool.or_eq_true,
          decide_eq_true_eq]
        constructor
        · rintro (h | ⟨rfl, h⟩)
          · exact .inl h
          · exact .inr ⟨rfl, h, fun _ h => by cases h⟩
        · rintro (h | ⟨rfl, h, _⟩)
          · exact .inl h
          · exact .inr ⟨rfl, h⟩
      | some pr =>
        by_cases hpr : pr.isSet j = true
        · simp only [Option.any_some, hpr, Bool.not_true, Bool.false_eq_true, if_false, CpuSet.isSet_set,
            Bool.or_eq_true, decide_eq_true_eq]
          constructor
          · rintro (h | ⟨rfl, h⟩)
            · exact .inl h
            · exact .inr ⟨rfl, h, fun _ h => by obtain rfl := Option.some.inj h; exact hpr⟩
          · rintro (h | ⟨rfl, h, _⟩)
            · exact .inl h
            · exact .inr ⟨rfl, h⟩
        · rw [Bool.not_eq_true] at hpr
          simp only [Option.any_some, hpr, Bool.not_false, if_true]
          constructor
          · exact .inl
          · rintro (h | ⟨rfl, _, h⟩)
            · exact h
            · have := h pr rfl
              rw [hpr] at this
              cases this
    rw [hstep, List.mem_cons]
    tauto

theorem setRange_isSet {lo hi : Nat} :
    (setRange present set lo hi).isSet i = true ↔
      set.isSet i = true ∨ lo ≤ i ∧ i ≤ hi ∧ i < cpuSetsize ∧ ∀ pr, present = some pr → pr.isSet i = true := by
  unfold setRange
  rw [foldl_set, List.mem_range'_1]
  have : lo ≤ i ∧ i < lo + (min hi (cpuSetsize - 1) + 1 - lo) ↔ lo ≤ i ∧ i ≤ hi ∧ i < cpuSetsize := by
    have : cpuSetsize = 1024 := rfl
    omega
  rw [this]
  tauto

/-! ## The parser, part by part -/

theorem specPartLike_cases (h : specPartLike s = true) :
    (tierOf topo s).isSome ∨ tierOf topo s = none ∧ (allDigits s = true ∨
      ∃ a b, s = a ++ '-' :: b ∧ a ≠ [] ∧ b ≠ [] ∧ allDigits a = true ∧ allDigits b = true) := by
  by_cases ht : (tierOf topo s).isSome
  · exact .inl ht
  refine .inr ⟨by simpa using ht, ?_⟩
  have hno : ¬ s = "e-core".toList ∧ ¬ s = "p-core".toList ∧ ¬ s = "hp-core".toList ∧ ¬ s = "all-core".toList := by
    refine ⟨?_, ?_, ?_, ?_⟩ <;> (rintro rfl; exact ht rfl)
  obtain ⟨h₁, h₂, h₃, h₄⟩ := hno
  simp only [specPartLike, h₁, h₂, h₃, h₄, decide_false, Bool.false_or, Bool.or_eq_true] at h
  rcases h with h | h
  · exact .inl h
  · cases hab : splitFirst '-' s with
    | none =>
      rw [hab] at h
      cases h
    | some p =>
      rw [hab] at h
      simp only [Option.any_some, Bool.and_eq_true, Bool.not_eq_true', List.isEmpty_eq_false_iff] at h
      exact .inr ⟨p.1, p.2, (splitFirst_eq_some.mp hab).1, h.1.1.1, h.1.1.2, h.1.2, h.2⟩

/-- One part: its tier, or the ranges it is read as. -/
theorem parseCpuSpecPart_eq {raw : Str} (hne : trim raw ≠ []) :
    parseCpuSpecPart topo set raw
      = set.or ((tierOf topo (trim raw)).getD (parseCpuRanges (trim raw) (some topo.presentCpus))) := by
  unfold parseCpuSpecPart tierOf
  dsimp only
  rw [if_neg (by simpa using hne)]
  split
  · rfl
  split
  · rfl
  split
  · rfl
  split
  · rfl
  · rfl

/-- A part without a comma goes through the loop of `parse_cpu_ranges` once. -/
theorem parseCpuRanges_part (hcomma : ',' ∉ part) (hne : part ≠ []) :
    parseCpuRanges part present = parseCpuRangesPart present CpuSet.new part := by
  unfold parseCpuRanges
  rw [if_neg (by simpa using hne), List.splitOn_eq_singleton hcomma]
  rfl

/-- The range of a part, as the loop sets it: within the present CPUs. -/
theorem setRange_present {pr : CpuSet} {lo hi : Nat} :
    (setRange (some pr) CpuSet.new lo hi).isSet i = true ↔ pr.isSet i = true ∧ lo ≤ i ∧ i ≤ hi := by
  rw [setRange_isSet, CpuSet.isSet_new]
  constructor
  · rintro (h | ⟨hlo, hhi, _, hpr⟩)
    · cases h
    · exact ⟨hpr pr rfl, hlo, hhi⟩
  · rintro ⟨hpr, hlo, hhi⟩
    exact .inr ⟨hlo, hhi, CpuSet.isSet_lt hpr, fun _ h => Option.some.inj h ▸ hpr⟩

/-- The first bound of a part: `usize::MAX` stands for every number from there on. -/
theorem firstBound (h : allDigits s = true) (hne : s ≠ []) :
    (parseUnsigned 64 s).getD usizeMax = min (number s) usizeMax := by
  have hmax : usizeMax = 2 ^ 64 - 1 := rfl
  rw [parseUnsigned_digits h hne]
  split
  · rw [Option.getD_some]
    omega
  · rw [Option.getD_none]
    omega

/-- **A number** is read as itself, if it is present. -/
theorem parseCpuRanges_digits (h : allDigits part = true) (htrim : trim part = part) (hne : part ≠ [])
    (pr : CpuSet) :
    (parseCpuRanges part (some pr)).isSet i = true ↔ pr.isSet i = true ∧ i = number part := by
  have hmax : usizeMax = 2 ^ 64 - 1 := rfl
  have hsize : cpuSetsize = 1024 := rfl
  rw [parseCpuRanges_part (digits_no_comma h) hne]
  unfold parseCpuRangesPart
  dsimp only
  rw [htrim, if_neg (by simpa using hne), splitFirst_eq_none.mpr (digits_no_dash h)]
  dsimp only
  rw [firstBound h hne]
  by_cases hlt : number part < usizeMax
  · rw [if_neg (by omega), setRange_present]
    refine and_congr_right fun _ => ?_
    omega
  · -- too large to be read, and larger than every CPU
    rw [if_pos (by omega), CpuSet.isSet_new]
    refine ⟨fun h => (by cases h), fun ⟨hpr, hi⟩ => ?_⟩
    have := CpuSet.isSet_lt hpr
    omega

/-- **A range** is read as what lies between its bounds, as far as they fit. -/
theorem parseCpuRanges_range {a b : Str} (ha : allDigits a = true) (hb : allDigits b = true) (hane : a ≠ [])
    (hbne : b ≠ []) (htrim : trim (a ++ '-' :: b) = a ++ '-' :: b) (pr : CpuSet) :
    (parseCpuRanges (a ++ '-' :: b) (some pr)).isSet i = true ↔
      (pr.isSet i = true ∧ min (number a) (number b) ≤ i ∧ i ≤ max (number a) (number b)) ∧
        ¬ (usizeMax ≤ number a ∨ 2 ^ 64 ≤ number b ∧ i ≠ number a) := by
  have hmax : usizeMax = 2 ^ 64 - 1 := rfl
  have hcomma : ',' ∉ a ++ '-' :: b := by
    simp [digits_no_comma ha, digits_no_comma hb]
  rw [parseCpuRanges_part hcomma (by simp)]
  unfold parseCpuRangesPart
  dsimp only
  rw [htrim, if_neg (by simp), splitFirst_eq_some.mpr ⟨rfl, digits_no_dash ha⟩]
  dsimp only
  rw [firstBound ha hane, parseUnsigned_digits hb hbne, and_assoc]
  by_cases hafit : number a < usizeMax
  · have hmin : min (number a) usizeMax = number a := by omega
    rw [hmin, if_neg (show ¬ number a = usizeMax by omega)]
    by_cases hbfit : number b < 2 ^ 64
    · rw [if_pos hbfit, Option.getD_some]
      split
      · rw [setRange_present]
        refine and_congr_right fun _ => ?_
        omega
      · rw [setRange_present]
        refine and_congr_right fun _ => ?_
        omega
    · -- the second bound falls back to the first
      rw [if_neg hbfit, Option.getD_none, if_neg (lt_irrefl _), setRange_present]
      refine and_congr_right fun _ => ?_
      omega
  · rw [if_pos (by omega), CpuSet.isSet_new]
    refine ⟨fun h => (by cases h), fun h => ?_⟩
    exact absurd (.inl (Nat.le_of_not_lt hafit)) h.2.2

/-- **One part of a spec** gives what it names and does not lose. -/
theorem parseCpuSpecPart_isSet {raw : Str} (h : specPartLike (trim raw) = true) (hne : trim raw ≠ []) :
    (parseCpuSpecPart topo set raw).isSet i = true ↔
      set.isSet i = true ∨ PartNames topo (trim raw) i ∧ ¬ PartLoses topo (trim raw) i := by
  rw [parseCpuSpecPart_eq hne]
  unfold PartNames PartLoses
  rcases @specPartLike_cases topo _ h with ht | ⟨ht, hnum⟩
  · obtain ⟨t, ht⟩ := Option.isSome_iff_exists.mp ht
    simp [ht]
  have hlift : ∀ {P : Prop}, ((parseCpuRanges (trim raw) (some topo.presentCpus)).isSet i = true ↔ P) →
      ((set.or (parseCpuRanges (trim raw) (some topo.presentCpus))).isSet i = true ↔ set.isSet i = true ∨ P) := by
    intro P hP
    rw [CpuSet.isSet_or, Bool.or_eq_true, hP]
  rw [ht, Option.getD_none]
  refine hlift ?_
  rcases hnum with hd | ⟨a, b, hab, hane, hbne, ha, hb⟩
  · rw [parseCpuRanges_digits hd (trim_trim raw) hne, boundsOf, splitFirst_eq_none.mpr (digits_no_dash hd)]
    have hdash : '-' ∉ trim raw := digits_no_dash hd
    simp only [hdash, false_and, and_false, not_false_eq_true, and_true, min_self, max_self]
    refine and_congr_right fun _ => ?_
    omega
  · have hdash : '-' ∈ trim raw := by simp [hab]
    have hbounds : boundsOf (trim raw) = (number a, number b) := by
      rw [boundsOf, hab, splitFirst_eq_some.mpr ⟨rfl, digits_no_dash ha⟩]
    rw [hbounds]
    have htrim := trim_trim raw
    rw [hab] at htrim
    have hr := parseCpuRanges_range (i := i) ha hb hane hbne htrim topo.presentCpus
    rw [← hab] at hr
    rw [hr]
    simp only [hdash, true_and]

/-! ## The spec -/

theorem blankPart {raw : Str} (h : trim raw = []) : parseCpuSpecPart topo set raw = set := by
  unfold parseCpuSpecPart
  dsimp only
  rw [if_pos (by simp [h])]

theorem foldl_parts {parts : List Str}
    (h : ∀ t ∈ (parts.map trim).filter fun t => !t.isEmpty, specPartLike t = true) :
    (parts.foldl (parseCpuSpecPart topo) set).isSet i = true ↔ set.isSet i = true ∨
      ∃ t ∈ (parts.map trim).filter fun t => !t.isEmpty, PartNames topo t i ∧ ¬ PartLoses topo t i := by
  induction parts generalizing set with
  | nil => simp
  | cons raw parts ih =>
    rw [List.foldl_cons, List.map_cons]
    by_cases hraw : trim raw = []
    · have hblank : (!(trim raw).isEmpty) = false := by simp [hraw]
      rw [List.map_cons, List.filter_cons_of_neg (by simp [hraw])] at h
      rw [blankPart hraw, ih h, List.filter_cons_of_neg (by simp [hraw])]
    · rw [List.map_cons, List.filter_cons_of_pos (by simp [hraw])] at h
      rw [ih fun t ht => h t (List.mem_cons_of_mem _ ht), parseCpuSpecPart_isSet (h _ (by simp)) hraw,
        List.filter_cons_of_pos (by simp [hraw]), List.exists_mem_cons_iff, or_assoc]

/-- **What the parser gives**: the CPUs that a part names and keeps. -/
theorem parseCpuSpec_isSet (h : specLike s = true) :
    (parseCpuSpec s topo).isSet i = true ↔ KeepsCpu topo s i := by
  have hne : s ≠ [] := by
    rintro rfl
    revert h
    decide
  obtain ⟨hall, _⟩ := Bool.and_eq_true _ _ ▸ h
  unfold parseCpuSpec
  rw [if_neg (by simpa using hne), foldl_parts (List.all_eq_true.mp hall), CpuSet.isSet_new]
  simp only [Bool.false_eq_true, false_or]
  rfl

/-- **A spec means what it says**, exactly when each CPU that one of its parts loses is kept by another. -/
theorem spec_means_iff (topo : CpuTopology) (s : Str) (h : specLike s = true) :
    (∀ i, (parseCpuSpec s topo).isSet i = true ↔ NamesCpu topo s i) ↔
      ∀ i, LosesCpu topo s i → KeepsCpu topo s i := by
  constructor
  · rintro hmeans i ⟨part, hpart, hnames, _⟩
    exact (parseCpuSpec_isSet h).mp ((hmeans i).mpr ⟨part, hpart, hnames⟩)
  · intro hcover i
    rw [parseCpuSpec_isSet h]
    constructor
    · rintro ⟨part, hpart, hnames, _⟩
      exact ⟨part, hpart, hnames⟩
    · rintro ⟨part, hpart, hnames⟩
      by_cases hloses : PartLoses topo part i
      · exact hcover i ⟨part, hpart, hnames, hloses⟩
      · exact ⟨part, hpart, hnames, hloses⟩

/-- A tier, and a range from the larger bound to the smaller. -/
theorem spec_means_reversed :
    specLike "hp-core, 2-0".toList = true ∧ ∀ i, (parseCpuSpec "hp-core, 2-0".toList quadTopology).isSet i = true ↔
      NamesCpu quadTopology "hp-core, 2-0".toList i := by
  refine ⟨by decide, (spec_means_iff quadTopology "hp-core, 2-0".toList (by decide)).mpr ?_⟩
  rintro i ⟨part, hpart, _, hloses⟩
  have hparts : specParts "hp-core, 2-0".toList = ["hp-core".toList, "2-0".toList] := by decide
  rw [hparts] at hpart
  obtain ⟨htier, _, hbound⟩ := hloses
  rcases List.mem_cons.mp hpart with rfl | hpart
  · cases htier
  · obtain rfl := List.mem_singleton.mp hpart
    rcases hbound with h | ⟨h, _⟩
    · exact absurd h (by decide)
    · exact absurd h (by decide)

/-- The second bound does not fit, so the range is read as its first bound alone. -/
theorem spec_bound_overflow :
    specLike "0-18446744073709551616".toList = true ∧
      ¬ ∀ i, (parseCpuSpec "0-18446744073709551616".toList quadTopology).isSet i = true ↔
        NamesCpu quadTopology "0-18446744073709551616".toList i := by
  refine ⟨by decide, fun h => ?_⟩
  have hnames : NamesCpu quadTopology "0-18446744073709551616".toList 1 := by decide +kernel
  have hset := (h 1).mpr hnames
  revert hset
  decide +kernel

end AppOptR
