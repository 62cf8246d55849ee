import AppOptR.Cpuset

/-!
# `Cpuset.Members` — a CPU set by its members

`isSet` decides a `CpuSet`: two sets with the same members are equal (`CpuSet.ext_isSet`), and each operation of
`cpuset.rs` has one lemma that says which CPUs are members of its result. Everything about specs and ranges is
proved through these, not through the words.
-/

namespace AppOptR
namespace CpuSet

variable {s t : CpuSet} {i j : Nat}

/-- The bit that `set` writes and `isSet` reads. -/
theorem bit_ne_zero (w : BitVec 64) {k : Nat} (hk : k < 64) : (w &&& 1#64 <<< k != 0#64) = w.getLsbD k := by
  have hbit : ∀ j, (w &&& 1#64 <<< k).getLsbD j = (w.getLsbD j && decide (j = k)) := by
    intro j
    rw [BitVec.getLsbD_and, BitVec.getLsbD_shiftLeft, BitVec.getLsbD_one]
    by_cases hj : j = k
    · subst hj
      simp [hk]
    · have : ¬ (j < 64 ∧ ¬ j < k ∧ j - k = 0) := by omega
      by_cases h₁ : j < 64 <;> by_cases h₂ : j < k <;> simp_all
  by_cases h : w.getLsbD k = true
  · rw [h, bne_iff_ne]
    intro hz
    have := hbit k
    rw [hz, BitVec.getLsbD_zero, h] at this
    simp at this
  · rw [Bool.not_eq_true] at h
    rw [h, bne_eq_false_iff_eq]
    apply BitVec.eq_of_getLsbD_eq
    intro j _
    rw [hbit, BitVec.getLsbD_zero]
    by_cases hj : j = k
    · rw [hj, h, Bool.false_and]
    · simp [hj]

/-- **Membership**, by the bit of the word. -/
theorem isSet_eq (s : CpuSet) (h : i < cpuSetsize) :
    s.isSet i = (s.bits.get ⟨i / cpuWordBits, word_lt h⟩).getLsbD (i % cpuWordBits) := by
  unfold isSet
  rw [dif_pos h]
  exact bit_ne_zero _ (Nat.mod_lt _ (by decide))

theorem isSet_lt (h : s.isSet i = true) : i < cpuSetsize := by
  by_contra hn
  rw [isSet, dif_neg hn] at h
  cases h

/-- **Two sets with the same members are equal.** -/
theorem ext_isSet (h : ∀ i, s.isSet i = t.isSet i) : s = t := by
  refine congrArg CpuSet.mk (Vector.ext fun k hk => ?_)
  apply BitVec.eq_of_getLsbD_eq
  intro b hb
  have hlt : k * 64 + b < cpuSetsize := by
    show k * 64 + b < 1024
    have : k < 16 := hk
    omega
  have hword : (k * 64 + b) / cpuWordBits = k := by
    show (k * 64 + b) / 64 = k
    omega
  have hbit : (k * 64 + b) % cpuWordBits = b := by
    show (k * 64 + b) % 64 = b
    omega
  have := h (k * 64 + b)
  rw [isSet_eq s hlt, isSet_eq t hlt] at this
  simpa only [hword, hbit, Vector.get_eq_getElem] using this

@[simp] theorem isSet_new (i : Nat) : new.isSet i = false := by
  by_cases h : i < cpuSetsize
  · rw [isSet_eq new h]
    simp [new, Vector.get_eq_getElem]
  · rw [isSet, dif_neg h]

@[simp] theorem isSet_or (s t : CpuSet) (i : Nat) : (s.or t).isSet i = (s.isSet i || t.isSet i) := by
  by_cases h : i < cpuSetsize
  · rw [isSet_eq _ h, isSet_eq _ h, isSet_eq _ h, ← BitVec.getLsbD_or, or]
    simp only [Vector.get_eq_getElem, Vector.getElem_zipWith]
  · rw [isSet, isSet, isSet, dif_neg h, dif_neg h, dif_neg h, Bool.or_false]

/-- A CPU beyond the last word is never set. -/
theorem isSet_set (s : CpuSet) (j i : Nat) : (s.set j).isSet i = (s.isSet i || decide (i = j ∧ j < cpuSetsize)) := by
  by_cases hj : j < cpuSetsize
  · by_cases hi : i < cpuSetsize
    · rw [isSet_eq _ hi, isSet_eq _ hi, set, dif_pos hj]
      have hwi : i / 64 < 16 := word_lt hi
      by_cases hw : j / cpuWordBits = i / cpuWordBits
      · simp only [hw, Vector.getElem_set_self, Vector.get_eq_getElem, BitVec.getLsbD_or]
        refine congrArg _ ?_
        rw [BitVec.getLsbD_shiftLeft, BitVec.getLsbD_one]
        have hi' : i % cpuWordBits < 64 := Nat.mod_lt _ (by decide)
        have hsame : i = j ↔ i % cpuWordBits = j % cpuWordBits := by
          have hw' : j / 64 = i / 64 := hw
          show i = j ↔ i % 64 = j % 64
          omega
        by_cases he : i = j
        · simp [he, hj]
          exact Nat.mod_lt j (by decide)
        · have hne : ¬ i % cpuWordBits = j % cpuWordBits := fun hm => he (hsame.mpr hm)
          have hgap : ¬ (¬ i % cpuWordBits < j % cpuWordBits ∧ i % cpuWordBits - j % cpuWordBits = 0) := by omega
          simp only [he, false_and, decide_false]
          by_cases h₂ : i % cpuWordBits < j % cpuWordBits <;> simp_all
      · have hne : i ≠ j := fun he => hw (by rw [he])
        simp [Vector.get_eq_getElem, hw, hne]
    · have hno : ∀ u : CpuSet, u.isSet i = false := fun u => by rw [isSet, dif_neg hi]
      rw [hno, hno, Bool.false_or, eq_comm, decide_eq_false_iff_not]
      rintro ⟨rfl, _⟩
      exact hi hj
  · rw [set, dif_neg hj]
    simp [hj]

/-- A set without members counts none. -/
theorem count_eq_zero_iff : s.count = 0 ↔ ∀ i, s.isSet i = false := by
  constructor
  · intro h
    have hw := count_eq_zero.mp h
    have : s = new := by
      refine congrArg CpuSet.mk (Vector.ext fun k hk => ?_)
      rw [hw k hk]
      simp
    rw [this]
    exact isSet_new
  · intro h
    have : s = new := ext_isSet fun i => by rw [h i, isSet_new]
    rw [this]
    decide

end CpuSet
end AppOptR
