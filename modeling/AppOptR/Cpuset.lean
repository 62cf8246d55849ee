import AppOptR.Lib.Text

/-!
# `Cpuset` — CPU sets, their specs and the topology they are read on

The bit sets of `cpuset.rs` (sixteen 64-bit words, as `cpu_set_t` lays them out), the two parsers of CPU
specs, the range printer, and the topology record. Creating a cpuset directory is a system call; its
outcome is a parameter (`ensureCpusetDir`).
-/

namespace AppOptR

open Text

def cpuSetsize : Nat := 1024
def cpuWordBits : Nat := 64
def cpuWords : Nat := 16

/-- `usize::MAX`, which `parse_cpu_ranges` also uses as its "no number here" mark. -/
def usizeMax : Nat := 2 ^ 64 - 1

/-- `CpuSet`: bit `cpu % 64` of word `cpu / 64` says whether `cpu` is in the set. -/
structure CpuSet where
  bits : Vector (BitVec 64) cpuWords
  deriving DecidableEq

namespace CpuSet

/-- `CpuSet::new`: no CPU. -/
def new : CpuSet := ⟨Vector.replicate cpuWords 0#64⟩

/-- The word that holds `cpu`'s bit is one of the sixteen. -/
theorem word_lt {cpu : Nat} (h : cpu < cpuSetsize) : cpu / cpuWordBits < cpuWords := by
  simp only [cpuSetsize, cpuWordBits, cpuWords] at *
  omega

/-- `CpuSet::set`; a CPU from 1024 on is dropped. -/
def set (s : CpuSet) (cpu : Nat) : CpuSet :=
  if h : cpu < cpuSetsize then
    ⟨s.bits.set (cpu / cpuWordBits)
      (s.bits.get ⟨cpu / cpuWordBits, word_lt h⟩ ||| 1#64 <<< (cpu % cpuWordBits)) (word_lt h)⟩
  else s

/-- `CpuSet::is_set`. -/
def isSet (s : CpuSet) (cpu : Nat) : Bool :=
  if h : cpu < cpuSetsize then
    (s.bits.get ⟨cpu / cpuWordBits, word_lt h⟩ &&& 1#64 <<< (cpu % cpuWordBits)) != 0#64
  else false

/-- `u64::count_ones`. -/
def countOnes (w : BitVec 64) : Nat := (List.range cpuWordBits).countP fun i => w.getLsbD i

/-- `CpuSet::count`. -/
def count (s : CpuSet) : Nat := (s.bits.toList.map countOnes).sum

/-- `CpuSet::or`. -/
def or (s other : CpuSet) : CpuSet := ⟨s.bits.zipWith (· ||| ·) other.bits⟩

theorem countOnes_eq_zero {w : BitVec 64} : countOnes w = 0 ↔ w = 0#64 := by
  rw [countOnes, List.countP_eq_zero]
  constructor
  · intro h
    apply BitVec.eq_of_getLsbD_eq
    intro i hi
    rw [BitVec.getLsbD_zero]
    simpa using h i (List.mem_range.mpr hi)
  · rintro rfl i _
    simp

theorem count_eq_zero {s : CpuSet} : s.count = 0 ↔ ∀ i (h : i < cpuWords), s.bits[i] = 0#64 := by
  rw [count, List.sum_eq_zero_iff]
  constructor
  · intro h i hi
    have hmem : s.bits[i] ∈ s.bits.toList := by simp
    exact countOnes_eq_zero.mp (h _ (List.mem_map.mpr ⟨_, hmem, rfl⟩))
  · intro h n hn
    obtain ⟨w, hw, rfl⟩ := List.mem_map.mp hn
    obtain ⟨i, hi, rfl⟩ := Vector.mem_iff_getElem.mp (Vector.mem_toList_iff.mp hw)
    exact countOnes_eq_zero.mpr (h i hi)

/-- A union is empty when both sets are. -/
theorem count_or_eq_zero {s t : CpuSet} : (s.or t).count = 0 ↔ s.count = 0 ∧ t.count = 0 := by
  rw [count_eq_zero, count_eq_zero, count_eq_zero]
  simp only [or, Vector.getElem_zipWith, BitVec.or_eq_zero_iff]
  exact ⟨fun h => ⟨fun i hi => (h i hi).1, fun i hi => (h i hi).2⟩, fun h i hi => ⟨h.1 i hi, h.2 i hi⟩⟩

theorem or_comm (s t : CpuSet) : s.or t = t.or s := by
  refine congrArg CpuSet.mk (Vector.ext fun i hi => ?_)
  rw [Vector.getElem_zipWith, Vector.getElem_zipWith]
  exact BitVec.or_comm _ _

theorem or_assoc (s t u : CpuSet) : (s.or t).or u = s.or (t.or u) := by
  refine congrArg CpuSet.mk (Vector.ext fun i hi => ?_)
  simp only [or, Vector.getElem_zipWith]
  exact BitVec.or_assoc _ _ _

theorem new_or (s : CpuSet) : new.or s = s := by
  refine congrArg CpuSet.mk (Vector.ext fun i hi => ?_)
  rw [Vector.getElem_zipWith]
  simp [new]

/-- The locals of `to_range_string`'s loops. -/
structure RangeAcc where
  result : Str := []
  start : Option Nat := none
  stop : Option Nat := none
  first : Bool := true

/-- `push_range`: write the open range, if there is one, with a comma before all but the first. -/
def pushRange (acc : RangeAcc) : RangeAcc :=
  match acc.start, acc.stop with
  | some lo, some hi =>
    let sep : Str := if acc.first then [] else [',']
    let range := if lo = hi then Nat.toDigits 10 lo else Nat.toDigits 10 lo ++ '-' :: Nat.toDigits 10 hi
    { acc with result := acc.result ++ sep ++ range, first := false }
  | _, _ => acc

/-- The inner loop of `to_range_string`: one bit of a word. -/
def rangeBit (word : BitVec 64) (base : Nat) (acc : RangeAcc) (bit : Nat) : RangeAcc :=
  if word &&& 1#64 <<< bit != 0#64 then
    let cpu := base + bit
    if acc.start.isNone then { acc with start := some cpu, stop := some cpu }
    else if acc.stop.any fun e => cpu == e + 1 then { acc with stop := some cpu }
    else { pushRange acc with start := some cpu, stop := some cpu }
  else acc

/-- The outer loop: a word without a bit ends the range that is open. -/
def rangeWord (acc : RangeAcc) (w : BitVec 64 × Nat) : RangeAcc :=
  if w.1 = 0#64 then
    if acc.start.isSome then { pushRange acc with start := none, stop := none } else acc
  else (List.range cpuWordBits).foldl (rangeBit w.1 (w.2 * cpuWordBits)) acc

/-- `CpuSet::to_range_string`. -/
def toRangeString (s : CpuSet) : Str :=
  (pushRange (s.bits.toList.zipIdx.foldl rangeWord {})).result

end CpuSet

/-! ## Reading numbers and specs -/

/-- Decimal digits and nothing else. -/
def allDigits (s : Str) : Bool := s.all Char.isDigit

/-- `str::parse` for an unsigned integer of `width` bits: an optional `+`, at least one digit, no
    overflow. -/
def parseUnsigned (width : Nat) (s : Str) : Option Nat :=
  let ds := if s.head? = some '+' then s.tail else s
  if ds.isEmpty || !allDigits ds then none
  else
    let n := Nat.ofDigitChars 10 ds 0
    if n < 2 ^ width then some n else none

/-- A digit is neither white space nor a control character, is its own lower case and takes one byte. -/
theorem digit_plain {c : Char} (h : c.isDigit = true) :
    isWhitespace c = false ∧ isControl c = false ∧ c.toLower = c ∧ c.utf8Size = 1 := by
  have hrange : 48 ≤ c.toNat ∧ c.toNat ≤ 57 := by
    simp only [Char.isDigit, Bool.and_eq_true, decide_eq_true_eq, ge_iff_le, UInt32.le_iff_toNat_le] at h
    exact h
  have hsize : c.utf8Size = 1 := by
    unfold Char.utf8Size
    have : c.val ≤ 0x7f := by
      rw [UInt32.le_iff_toNat_le]
      exact hrange.2.trans (by decide)
    simp [this]
  refine ⟨?_, ?_, ?_, hsize⟩
  · simp only [isWhitespace, Bool.or_eq_false_iff, Bool.and_eq_false_iff, decide_eq_false_iff_not,
      beq_eq_false_iff_ne]
    omega
  · simp only [isControl, Bool.or_eq_false_iff, decide_eq_false_iff_not, beq_eq_false_iff_ne]
    omega
  · unfold Char.toLower
    have : ¬ (65 ≤ c.val ∧ c.val ≤ 90) := by
      rw [UInt32.le_iff_toNat_le]
      intro hc
      have : 65 ≤ c.toNat := hc.1
      omega
    simp [this]

theorem digits_plain {s : Str} (h : allDigits s = true) :
    trim s = s ∧ s.any isControl = false ∧ s.map Char.toLower = s ∧ byteLen s = s.length := by
  have hall : ∀ c ∈ s, c.isDigit = true := List.all_eq_true.mp h
  refine ⟨trim_of_solid ?_ ?_, ?_, ?_, ?_⟩
  · intro c hc
    exact (digit_plain (hall c (List.mem_of_head? hc))).1
  · intro c hc
    exact (digit_plain (hall c (List.mem_of_getLast? hc))).1
  · rw [List.any_eq_false]
    intro c hc
    simp [(digit_plain (hall c hc)).2.1]
  · have : s.map Char.toLower = s.map id := List.map_congr_left fun c hc => (digit_plain (hall c hc)).2.2.1
    rw [this, List.map_id]
  · have : s.map Char.utf8Size = s.map fun _ => 1 :=
      List.map_congr_left fun c hc => (digit_plain (hall c hc)).2.2.2
    simp [byteLen, this]

theorem toDigits_allDigits (n : Nat) : allDigits (Nat.toDigits 10 n) = true :=
  List.all_eq_true.mpr fun _ hc => Nat.isDigit_of_mem_toDigits (by decide) (by decide) hc

/-- The inner loop of `parse_cpu_ranges`: `lo..=min(hi, 1023)`, filtered by the present CPUs. -/
def setRange (present : Option CpuSet) (set : CpuSet) (lo hi : Nat) : CpuSet :=
  (List.range' lo (min hi (cpuSetsize - 1) + 1 - lo)).foldl
    (fun set i => if present.any fun pr => !pr.isSet i then set else set.set i) set

/-- One part of a list of ranges: a CPU, or a range in either direction. A part that does not start with a number
    is dropped, and an end that is none is the start again. -/
def parseCpuRangesPart (present : Option CpuSet) (set : CpuSet) (rawPart : Str) : CpuSet :=
  let part := trim rawPart
  if part.isEmpty then set
  else match splitFirst '-' part with
  | some (left, right) =>
    let a := (parseUnsigned 64 left).getD usizeMax
    let b := (parseUnsigned 64 right).getD a
    if a = usizeMax then set
    else if a > b then setRange present set b a else setRange present set a b
  | none =>
    let a := (parseUnsigned 64 part).getD usizeMax
    if a = usizeMax then set else setRange present set a a

/-- `parse_cpu_ranges`. -/
def parseCpuRanges (spec : Str) (present : Option CpuSet) : CpuSet :=
  if spec.isEmpty then CpuSet.new
  else (spec.splitOn ',').foldl (parseCpuRangesPart present) CpuSet.new

/-- `CpuTopology`. -/
structure CpuTopology where
  presentCpus : CpuSet
  presentStr : Str
  memsStr : Str
  cpusetEnabled : Bool
  eCore : CpuSet
  pCore : CpuSet
  hpCore : CpuSet

/-- One part of a spec: a core tier by name, anything else as numeric ranges. -/
def parseCpuSpecPart (topo : CpuTopology) (set : CpuSet) (rawPart : Str) : CpuSet :=
  let part := trim rawPart
  if part.isEmpty then set
  else if part = "e-core".toList then set.or topo.eCore
  else if part = "p-core".toList then set.or topo.pCore
  else if part = "hp-core".toList then set.or topo.hpCore
  else if part = "all-core".toList then set.or topo.presentCpus
  else set.or (parseCpuRanges part (some topo.presentCpus))

/-- `parse_cpu_spec`: a list of tiers and ranges. -/
def parseCpuSpec (spec : Str) (topo : CpuTopology) : CpuSet :=
  if spec.isEmpty then CpuSet.new
  else (spec.splitOn ',').foldl (parseCpuSpecPart topo) CpuSet.new

/-- `ensure_cpuset_dir`: the directory named after the set, or the empty name when cpusets are off or the
    directory could not be created. `createCpusetDir` is the outcome of the system calls for a name. -/
def ensureCpusetDir (createCpusetDir : Str → Bool) (cpus : CpuSet) (topo : CpuTopology) : Str :=
  if !topo.cpusetEnabled then []
  else
    let dirName := cpus.toRangeString
    if createCpusetDir dirName then dirName else []

/-- Four cores: two little ones, a big and a prime one, cpusets on. -/
def quadTopology : CpuTopology where
  presentCpus := parseCpuRanges "0-3".toList none
  presentStr := "0-3".toList
  memsStr := "0".toList
  cpusetEnabled := true
  eCore := parseCpuRanges "0-1".toList none
  pCore := parseCpuRanges "2".toList none
  hpCore := parseCpuRanges "3".toList none

/-- A spec of tiers and numbers; CPUs that are not present drop out. -/
example : (parseCpuSpec "e-core, 3-5".toList quadTopology).toRangeString = "0-1,3".toList := by
  decide +kernel

end AppOptR
