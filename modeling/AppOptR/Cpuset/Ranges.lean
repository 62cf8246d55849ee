import AppOptR.Cpuset.Meaning
import AppOptR.Lib.Utf8
import AppOptR.Lib.Runs

/-!
# `Cpuset.Ranges` — the range string of a CPU set

`to_range_string` scans the bits of the sixteen words, skipping a word that is zero, and writes the maximal runs of
the set, the bounds of each joined by `-` (`toRangeString_eq`). Read as a spec, the string names exactly the members
of the set (`parseCpuSpec_rangeString`), and its length is a sum over the bounds of the runs (`byteLen_rangeString`).
-/

namespace AppOptR

open Text Runs

variable {topo : CpuTopology} {s : CpuSet} {p : Nat → Bool} {n i : Nat} {r : Nat × Nat} {rs : List (Nat × Nat)}
  {acc : CpuSet.RangeAcc}

/-! ## Runs as text -/

/-- A range as `push_range` prints it. -/
def printRange (r : Nat × Nat) : Str :=
  if r.1 = r.2 then Nat.toDigits 10 r.1 else Nat.toDigits 10 r.1 ++ '-' :: Nat.toDigits 10 r.2

/-- The runs as text, the last first in the list and in the text the last. -/
def printRuns : List (Nat × Nat) → Str
  | [] => []
  | r :: rs => printRuns rs ++ (if rs.isEmpty then [] else [',']) ++ printRange r

theorem printRuns_eq (rs : List (Nat × Nat)) : printRuns rs = [','].intercalate (rs.reverse.map printRange) := by
  induction rs with
  | nil => rfl
  | cons r rs ih =>
    have hsnoc : ∀ ls : List Str, ∀ l, [','].intercalate (ls ++ [l])
        = [','].intercalate ls ++ (if ls.isEmpty then [] else [',']) ++ l := by
      intro ls l
      induction ls with
      | nil => simp
      | cons l' ls ih' =>
        cases ls with
        | nil => simp [List.intercalate_cons_cons]
        | cons l'' ls => simpa [List.intercalate_cons_cons] using ih'
    rw [List.reverse_cons, List.map_append, List.map_singleton, hsnoc, ← ih, printRuns]
    simp

theorem printRange_ne_nil : printRange r ≠ [] := by
  have : Nat.toDigits 10 r.1 ≠ [] := Nat.toDigits_ne_nil
  unfold printRange
  split
  · exact this
  · simp [this]

/-! ## The scan

`Holds acc n rs`: before CPU `n` the locals of the loops hold the runs `rs`. The last one is in `start` and `stop`
and not yet written, or it is written and ended before the CPU last seen. -/

/-- The written part. -/
def Written (acc : CpuSet.RangeAcc) (rs : List (Nat × Nat)) : Prop :=
  acc.result = printRuns rs ∧ acc.first = rs.isEmpty

inductive Holds (acc : CpuSet.RangeAcc) (n : Nat) : List (Nat × Nat) → Prop
  | opened {lo hi : Nat} {rs : List (Nat × Nat)} : acc.start = some lo → acc.stop = some hi → Written acc rs →
      Holds acc n ((lo, hi) :: rs)
  | closed {rs : List (Nat × Nat)} : acc.start = none → Written acc rs → (∀ r ∈ rs.head?, r.2 + 1 < n) →
      Holds acc n rs

/-- `push_range` writes the open run. -/
theorem pushRange_written {lo hi : Nat} (hstart : acc.start = some lo) (hstop : acc.stop = some hi)
    (h : Written acc rs) : Written (CpuSet.pushRange acc) ((lo, hi) :: rs) := by
  unfold CpuSet.pushRange
  rw [hstart, hstop]
  refine ⟨?_, rfl⟩
  show acc.result ++ _ ++ _ = printRuns rs ++ _ ++ printRange (lo, hi)
  rw [h.1, h.2]
  rfl

/-- `push_range` writes nothing when no run is open. -/
theorem pushRange_closed (hstart : acc.start = none) : CpuSet.pushRange acc = acc := by
  unfold CpuSet.pushRange
  rw [hstart]

/-- **One bit**: the loop extends the runs as `runs` does. -/
theorem rangeBit_holds {word : BitVec 64} {base bit : Nat} (hbit : bit < 64)
    (hp : word.getLsbD bit = p (base + bit)) (h : Holds acc (base + bit) (runs p (base + bit))) :
    Holds (CpuSet.rangeBit word base acc bit) (base + bit + 1) (runs p (base + bit + 1)) := by
  unfold CpuSet.rangeBit
  rw [CpuSet.bit_ne_zero word hbit, hp]
  cases hmem : p (base + bit) with
  | false =>
    -- a clear bit: nothing is written, and the gap below an already closed run grows
    rw [runs_succ_of_not_mem hmem, if_neg (by simp)]
    generalize runs p (base + bit) = rs at h
    cases h with
    | opened hstart hstop hw => exact .opened hstart hstop hw
    | closed hstart hw hgap => exact .closed hstart hw fun r hr => Nat.lt_succ_of_lt (hgap r hr)
  | true =>
    rw [runs_succ_of_mem hmem, if_pos rfl]
    generalize runs p (base + bit) = rs at h
    cases h with
    | closed hstart hw hgap =>
      dsimp only
      rw [hstart, Option.isNone_none, if_pos rfl]
      have hext : extend rs (base + bit) = (base + bit, base + bit) :: rs := by
        cases rs with
        | nil => rfl
        | cons r rs =>
          have := hgap r rfl
          exact if_neg (by omega)
      rw [hext]
      exact .opened rfl rfl hw
    | @opened lo hi rs hstart hstop hw =>
      dsimp only
      rw [hstart, Option.isNone_some, if_neg (by simp), hstop, Option.any_some, extend_cons]
      -- a set bit extends the open run when it is adjacent, else flushes it
      by_cases hnext : base + bit = hi + 1
      · rw [if_pos (by simpa using hnext), if_pos hnext]
        exact .opened rfl rfl hw
      · rw [if_neg (by simpa using hnext), if_neg hnext]
        have hw' := pushRange_written hstart hstop hw
        exact .opened rfl rfl ⟨hw'.1, hw'.2⟩

/-- **The bits of a word**, one after the other. -/
theorem rangeBits_holds {word : BitVec 64} {base : Nat} (hp : ∀ b < 64, word.getLsbD b = p (base + b))
    (h : Holds acc base (runs p base)) {k : Nat} (hk : k ≤ 64) :
    Holds ((List.range k).foldl (CpuSet.rangeBit word base) acc) (base + k) (runs p (base + k)) := by
  induction k with
  | zero => exact h
  | succ k ih =>
    rw [List.range_succ, List.foldl_append]
    exact rangeBit_holds hk (hp k hk) (ih (Nat.le_of_succ_le hk))

/-- **One word**: a zero word closes the open run, as the bits would leave the runs alone. -/
theorem rangeWord_holds {word : BitVec 64} {k : Nat} (hp : ∀ b < 64, word.getLsbD b = p (k * 64 + b))
    (h : Holds acc (k * 64) (runs p (k * 64))) :
    Holds (CpuSet.rangeWord acc (word, k)) (k * 64 + 64) (runs p (k * 64 + 64)) := by
  unfold CpuSet.rangeWord
  by_cases hzero : word = 0#64
  · have hnone : ∀ b < 64, p (k * 64 + b) = false := fun b hb => by
      rw [← hp b hb, hzero]
      exact BitVec.getLsbD_zero
    rw [if_pos hzero, runs_add hnone]
    have hbounds := runs_bounds (p := p) (n := k * 64)
    generalize runs p (k * 64) = rs at h hbounds
    cases h with
    | opened hstart hstop hw =>
      rw [hstart, Option.isSome_some, if_pos rfl]
      have hw' := pushRange_written hstart hstop hw
      refine .closed rfl ⟨hw'.1, hw'.2⟩ fun r hr => ?_
      obtain rfl := Option.some.inj hr
      have := hbounds _ List.mem_cons_self
      omega
    | closed hstart hw hgap =>
      rw [hstart, Option.isSome_none, if_neg (by simp)]
      exact .closed hstart hw fun r hr => Nat.lt_add_right 64 (hgap r hr)
  · rw [if_neg hzero]
    exact rangeBits_holds hp h (le_refl 64)

/-- **The words**, one after the other. -/
theorem rangeWords_holds {words : List (BitVec 64)} {k : Nat}
    (hp : ∀ j, (hj : j < words.length) → ∀ b < 64, (words.get ⟨j, hj⟩).getLsbD b = p ((k + j) * 64 + b))
    (h : Holds acc (k * 64) (runs p (k * 64))) :
    Holds ((words.zipIdx k).foldl CpuSet.rangeWord acc) ((k + words.length) * 64)
      (runs p ((k + words.length) * 64)) := by
  induction words generalizing k acc with
  | nil => exact h
  | cons word words ih =>
    rw [List.zipIdx_cons, List.foldl_cons]
    have hword : Holds (CpuSet.rangeWord acc (word, k)) (k * 64 + 64) (runs p (k * 64 + 64)) :=
      rangeWord_holds (hp 0 (by simp)) h
    have hlen : (k + (word :: words).length) * 64 = (k + 1 + words.length) * 64 := by
      rw [List.length_cons]
      omega
    have hnext : k * 64 + 64 = (k + 1) * 64 := by omega
    rw [hlen]
    rw [hnext] at hword
    refine ih (fun j hj b hb => ?_) hword
    have := hp (j + 1) (by simpa using hj) b hb
    rw [show k + 1 + j = k + (j + 1) by omega]
    exact this

/-- **`to_range_string` writes the maximal runs of the set.** -/
theorem toRangeString_eq (s : CpuSet) : s.toRangeString = printRuns (runs s.isSet cpuSetsize) := by
  have hlen : s.bits.toList.length = 16 := Vector.length_toList
  -- bit `b` of word `j` is member `64 j + b`
  have hword : ∀ j, (hj : j < s.bits.toList.length) → ∀ b < 64,
      (s.bits.toList.get ⟨j, hj⟩).getLsbD b = s.isSet ((0 + j) * 64 + b) := by
    intro j hj b hb
    have hj' : j < 16 := hlen ▸ hj
    have hlt : (0 + j) * 64 + b < cpuSetsize := by
      show (0 + j) * 64 + b < 1024
      omega
    have hw : ((0 + j) * 64 + b) / cpuWordBits = j := by
      show ((0 + j) * 64 + b) / 64 = j
      omega
    have hm : ((0 + j) * 64 + b) % cpuWordBits = b := by
      show ((0 + j) * 64 + b) % 64 = b
      omega
    rw [CpuSet.isSet_eq s hlt]
    simp only [hw, hm, List.get_eq_getElem, Vector.getElem_toList, Vector.get_eq_getElem]
  have hstart : Holds {} (0 * 64) (runs s.isSet (0 * 64)) := .closed rfl ⟨rfl, rfl⟩ (by simp [runs])
  have h := rangeWords_holds hword hstart
  rw [hlen] at h
  show (CpuSet.pushRange (s.bits.toList.zipIdx.foldl CpuSet.rangeWord {})).result = _
  have hsize : (0 + 16) * 64 = cpuSetsize := rfl
  rw [hsize] at h
  generalize runs s.isSet cpuSetsize = rs at h
  -- the last call of `push_range` writes the run that is still open
  cases h with
  | opened hopen hstop hw => exact (pushRange_written hopen hstop hw).1
  | closed hopen hw _ =>
    rw [pushRange_closed hopen]
    exact hw.1

/-! ## The length of the string -/

/-- What a bound takes in the string: its digits and one separator. -/
def boundWidth (i : Nat) : Nat := (Nat.toDigits 10 i).length + 1

/-- The width of the range string of a set, with one separator too many: the bounds of its runs. -/
def rangeWidth (s : CpuSet) : Nat := (((List.range cpuSetsize).filter (isBound s.isSet)).map boundWidth).sum

theorem byteLen_printRange (r : Nat × Nat) : byteLen (printRange r) + 1 = weight boundWidth r := by
  have hdigits : ∀ n, byteLen (Nat.toDigits 10 n) = (Nat.toDigits 10 n).length := fun n =>
    (digits_plain (toDigits_allDigits n)).2.2.2
  have hdash : byteLen ['-'] = 1 := by decide
  unfold printRange weight boundWidth
  split
  · rw [hdigits]
  · rw [← List.singleton_append, byteLen_append, byteLen_append, hdigits, hdigits, hdash]
    omega

theorem byteLen_printRuns (h : rs ≠ []) : byteLen (printRuns rs) + 1 = (rs.map (weight boundWidth)).sum := by
  induction rs with
  | nil => exact absurd rfl h
  | cons r rs ih =>
    have hr := byteLen_printRange r
    rw [printRuns, List.map_cons, List.sum_cons, byteLen_append, byteLen_append]
    cases rs with
    | nil =>
      show 0 + 0 + byteLen (printRange r) + 1 = _
      rw [← hr]
      simp
    | cons r' rs =>
      have hcomma : byteLen [','] = 1 := by decide
      have ih := ih (by simp)
      rw [← ih, ← hr, List.isEmpty_cons, if_neg (by simp), hcomma]
      omega

theorem runs_ne_nil (h : s.count ≠ 0) : runs s.isSet cpuSetsize ≠ [] := by
  intro hnil
  refine h (CpuSet.count_eq_zero_iff.mpr fun i => ?_)
  rw [← Bool.not_eq_true]
  intro hi
  obtain ⟨r, hr, _⟩ := mem_runs.mpr ⟨CpuSet.isSet_lt hi, hi⟩
  rw [hnil] at hr
  cases hr

/-- **How long a range string is.** -/
theorem byteLen_rangeString (h : s.count ≠ 0) : byteLen s.toRangeString + 1 = rangeWidth s := by
  have hbeyond : s.isSet cpuSetsize = false := by
    rw [← Bool.not_eq_true]
    intro hi
    exact lt_irrefl _ (CpuSet.isSet_lt hi)
  rw [toRangeString_eq, byteLen_printRuns (runs_ne_nil h), sum_weight _ hbeyond]
  rfl

/-! ## Reading the string back -/

theorem number_toDigits (n : Nat) : number (Nat.toDigits 10 n) = n := Nat.ofDigitChars_ten_toDigits

/-- A printed range is digits and dashes. -/
theorem printRange_chars {c : Char} (hc : c ∈ printRange r) : c.isDigit = true ∨ c = '-' := by
  have hdigits : ∀ {n}, c ∈ Nat.toDigits 10 n → c.isDigit = true := fun h => allDigits_mem (toDigits_allDigits _) h
  unfold printRange at hc
  split at hc
  · exact .inl (hdigits hc)
  · rcases List.mem_append.mp hc with hc | hc
    · exact .inl (hdigits hc)
    · rcases List.mem_cons.mp hc with hc | hc
      · exact .inr hc
      · exact .inl (hdigits hc)

theorem printRange_avoids {c : Char} (hdigit : c.isDigit = false) (hdash : c ≠ '-') : c ∉ printRange r := by
  intro hc
  rcases printRange_chars hc with h | h
  · rw [hdigit] at h
    cases h
  · exact hdash h

theorem trim_printRange (r : Nat × Nat) : trim (printRange r) = printRange r := by
  have hsolid : ∀ c ∈ printRange r, isWhitespace c = false := by
    intro c hc
    rcases printRange_chars hc with h | rfl
    · exact (digit_plain h).1
    · decide
  exact trim_of_solid (fun c hc => hsolid c (List.mem_of_head? hc)) fun c hc => hsolid c (List.mem_of_getLast? hc)

/-- The ranges of a range string, cut at the commas. -/
theorem splitOn_printRuns (h : rs ≠ []) : (printRuns rs).splitOn ',' = rs.reverse.map printRange := by
  have hcomma : ∀ l ∈ rs.reverse.map printRange, ',' ∉ l := by
    intro l hl
    obtain ⟨r, _, rfl⟩ := List.mem_map.mp hl
    exact printRange_avoids (by decide) (by decide)
  rw [printRuns_eq]
  exact List.splitOn_intercalate ',' hcomma (by simp [h])

/-- The parts of a range string are its ranges. -/
theorem specParts_printRuns (h : rs ≠ []) : specParts (printRuns rs) = rs.reverse.map printRange := by
  have htrim : (rs.reverse.map printRange).map trim = rs.reverse.map printRange := by
    rw [List.map_map]
    exact List.map_congr_left fun r _ => trim_printRange r
  unfold specParts
  rw [splitOn_printRuns h, htrim, List.filter_eq_self]
  intro l hl
  obtain ⟨r, _, rfl⟩ := List.mem_map.mp hl
  simp [printRange_ne_nil]

theorem specPartLike_printRange (r : Nat × Nat) : specPartLike (printRange r) = true := by
  unfold specPartLike printRange
  split
  · simp [toDigits_allDigits]
  · have hsplit : splitFirst '-' (Nat.toDigits 10 r.1 ++ '-' :: Nat.toDigits 10 r.2)
        = some (Nat.toDigits 10 r.1, Nat.toDigits 10 r.2) :=
      splitFirst_eq_some.mpr ⟨rfl, digits_no_dash (toDigits_allDigits _)⟩
    have hne : ∀ n, (Nat.toDigits 10 n).isEmpty = false := fun n => by simp
    rw [hsplit]
    simp [toDigits_allDigits, hne]

/-- **A range string is a well-shaped spec.** -/
theorem specLike_printRuns (h : rs ≠ []) : specLike (printRuns rs) = true := by
  show ((specParts (printRuns rs)).all specPartLike && !(specParts (printRuns rs)).isEmpty) = true
  rw [specParts_printRuns h, Bool.and_eq_true]
  refine ⟨List.all_eq_true.mpr fun l hl => ?_, by simp [h]⟩
  obtain ⟨r, _, rfl⟩ := List.mem_map.mp hl
  exact specPartLike_printRange r

theorem tierOf_printRange (r : Nat × Nat) : tierOf topo (printRange r) = none := by
  have hno : ∀ {t : Str}, 'c' ∈ t → printRange r ≠ t := by
    rintro t ht rfl
    exact printRange_avoids (by decide) (by decide) ht
  unfold tierOf
  rw [if_neg (hno (by decide)), if_neg (hno (by decide)), if_neg (hno (by decide)), if_neg (hno (by decide))]

theorem boundsOf_printRange (r : Nat × Nat) : boundsOf (printRange r) = r := by
  unfold boundsOf printRange
  by_cases he : r.1 = r.2
  · rw [if_pos he, splitFirst_eq_none.mpr (digits_no_dash (toDigits_allDigits _))]
    dsimp only
    rw [number_toDigits]
    exact Prod.ext rfl he
  · rw [if_neg he, splitFirst_eq_some.mpr ⟨rfl, digits_no_dash (toDigits_allDigits _)⟩]
    dsimp only
    rw [number_toDigits, number_toDigits]

/-- **A range string read as a spec** gives the members that are present. -/
theorem parseCpuSpec_rangeString (h : s.count ≠ 0) (topo : CpuTopology) (i : Nat) :
    (parseCpuSpec s.toRangeString topo).isSet i = true ↔ topo.presentCpus.isSet i = true ∧ s.isSet i = true := by
  have hne := runs_ne_nil h
  have hbounds := runs_bounds (p := s.isSet) (n := cpuSetsize)
  have hsize : cpuSetsize = 1024 := rfl
  have hmax : usizeMax = 2 ^ 64 - 1 := rfl
  rw [toRangeString_eq, parseCpuSpec_isSet (specLike_printRuns hne)]
  unfold KeepsCpu
  rw [specParts_printRuns hne]
  -- each range names its members that are present, and loses none
  have hpart : ∀ r ∈ runs s.isSet cpuSetsize,
      (PartNames topo (printRange r) i ∧ ¬ PartLoses topo (printRange r) i ↔
        topo.presentCpus.isSet i = true ∧ r.1 ≤ i ∧ i ≤ r.2) := by
    intro r hr
    obtain ⟨hle, hlt⟩ := hbounds r hr
    have hkept : ¬ PartLoses topo (printRange r) i := by
      rintro ⟨_, _, hlose⟩
      rw [boundsOf_printRange] at hlose
      omega
    have hmin : min r.1 r.2 = r.1 := min_eq_left hle
    have hmaxr : max r.1 r.2 = r.2 := max_eq_right hle
    unfold PartNames
    rw [tierOf_printRange, boundsOf_printRange]
    dsimp only
    rw [hmin, hmaxr]
    exact ⟨fun h => h.1, fun h => ⟨h, hkept⟩⟩
  constructor
  · rintro ⟨t, ht, hnames⟩
    obtain ⟨r, hr, rfl⟩ := List.mem_map.mp ht
    have hr := List.mem_reverse.mp hr
    obtain ⟨hpresent, hle⟩ := (hpart r hr).mp hnames
    exact ⟨hpresent, (mem_runs.mp ⟨r, hr, hle⟩).2⟩
  · rintro ⟨hpresent, hi⟩
    obtain ⟨r, hr, hle⟩ := mem_runs.mpr ⟨CpuSet.isSet_lt hi, hi⟩
    exact ⟨printRange r, List.mem_map_of_mem (List.mem_reverse.mpr hr), (hpart r hr).mpr ⟨hpresent, hle⟩⟩

end AppOptR
