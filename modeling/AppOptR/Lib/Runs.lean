import Mathlib

/-!
# `Lib.Runs` — the maximal runs of a set of naturals

`runs p n` are the maximal runs of consecutive members of `p` below `n`, the last run first: the list a scan in
increasing order builds when it extends the run it is in (`extend`). Three facts are used of it: which numbers the
runs cover (`mem_runs`), that they are apart (`runs_apart`), and what a weight of their bounds adds up to, without
the list (`sum_weight`).
-/

namespace AppOptR
namespace Runs

variable {p : Nat → Bool} {n m i : Nat} {r : Nat × Nat} {rs : List (Nat × Nat)}

/-- Extend the last run by `n` when it ends just before, else open a new one. -/
def extend : List (Nat × Nat) → Nat → List (Nat × Nat)
  | [], n => [(n, n)]
  | (lo, hi) :: rs, n => if n = hi + 1 then (lo, n) :: rs else (n, n) :: (lo, hi) :: rs

theorem extend_cons (lo hi : Nat) (rs : List (Nat × Nat)) :
    extend ((lo, hi) :: rs) n = if n = hi + 1 then (lo, n) :: rs else (n, n) :: (lo, hi) :: rs := rfl

/-- The maximal runs of the members below `n`, the last first. -/
def runs (p : Nat → Bool) : Nat → List (Nat × Nat)
  | 0 => []
  | n + 1 => if p n then extend (runs p n) n else runs p n

theorem runs_succ_of_mem (h : p n = true) : runs p (n + 1) = extend (runs p n) n := if_pos h

theorem runs_succ_of_not_mem (h : p n = false) : runs p (n + 1) = runs p n := if_neg (by simp [h])

/-- A stretch without members adds nothing. -/
theorem runs_add (h : ∀ k < m, p (n + k) = false) : runs p (n + m) = runs p n := by
  induction m with
  | zero => rfl
  | succ m ih =>
    rw [← Nat.add_assoc, runs_succ_of_not_mem (h m (Nat.lt_succ_self m))]
    exact ih fun k hk => h k (Nat.lt_succ_of_lt hk)

/-! ## The shape of the runs -/

/-- The bounds of a run, in order and below the scan. -/
theorem runs_bounds : ∀ r ∈ runs p n, r.1 ≤ r.2 ∧ r.2 < n := by
  induction n with
  | zero => intro r hr; cases hr
  | succ n ih =>
    intro r hr
    cases hp : p n with
    | false =>
      rw [runs_succ_of_not_mem hp] at hr
      have := ih r hr
      omega
    | true =>
      rw [runs_succ_of_mem hp] at hr
      cases hruns : runs p n with
      | nil =>
        rw [hruns] at hr
        obtain rfl := List.mem_singleton.mp hr
        exact ⟨Nat.le_refl n, Nat.lt_succ_self n⟩
      | cons last rs =>
        obtain ⟨lo, hi⟩ := last
        have hlast := ih (lo, hi) (by rw [hruns]; exact List.mem_cons_self)
        rw [hruns] at hr
        rw [extend_cons] at hr
        -- an adjacent member moves the last upper bound, another one opens a run
        split at hr
        · rcases List.mem_cons.mp hr with rfl | hr
          · exact ⟨by dsimp only at hlast ⊢; omega, Nat.lt_succ_self n⟩
          · have := ih r (by rw [hruns]; exact List.mem_cons_of_mem _ hr)
            omega
        · rcases List.mem_cons.mp hr with rfl | hr
          · exact ⟨Nat.le_refl n, Nat.lt_succ_self n⟩
          · have := ih r (by rw [hruns]; exact hr)
            omega

/-- **What the runs cover**: the members below the scan. -/
theorem mem_runs : (∃ r ∈ runs p n, r.1 ≤ i ∧ i ≤ r.2) ↔ i < n ∧ p i = true := by
  induction n with
  | zero => simp [runs]
  | succ n ih =>
    cases hp : p n with
    | false =>
      rw [runs_succ_of_not_mem hp, ih]
      refine ⟨fun ⟨hi, hpi⟩ => ⟨by omega, hpi⟩, fun ⟨hi, hpi⟩ => ⟨?_, hpi⟩⟩
      have : i ≠ n := by
        rintro rfl
        rw [hp] at hpi
        cases hpi
      omega
    | true =>
      -- the new member is covered, and what was covered stays so
      have hcover : (∃ r ∈ extend (runs p n) n, r.1 ≤ i ∧ i ≤ r.2) ↔
          i = n ∨ ∃ r ∈ runs p n, r.1 ≤ i ∧ i ≤ r.2 := by
        have hbounds := runs_bounds (p := p) (n := n)
        cases hruns : runs p n with
        | nil =>
          simp only [extend, List.mem_singleton, exists_eq_left, List.not_mem_nil, false_and, exists_false, or_false]
          omega
        | cons last rs =>
          obtain ⟨lo, hi⟩ := last
          have hlast := hbounds (lo, hi) (by rw [hruns]; exact List.mem_cons_self)
          dsimp only at hlast
          rw [extend_cons]
          split
          · rw [List.exists_mem_cons_iff, List.exists_mem_cons_iff, ← or_assoc]
            refine or_congr ?_ Iff.rfl
            dsimp only
            omega
          · rw [List.exists_mem_cons_iff]
            refine or_congr ?_ Iff.rfl
            dsimp only
            omega
      rw [runs_succ_of_mem hp, hcover, ih]
      constructor
      · rintro (rfl | ⟨hi, hpi⟩)
        · exact ⟨Nat.lt_succ_self _, hp⟩
        · exact ⟨by omega, hpi⟩
      · rintro ⟨hi, hpi⟩
        by_cases he : i = n
        · exact .inl he
        · exact .inr ⟨by omega, hpi⟩

/-- **The runs are apart**: the next lower one ends before the number before this one. -/
theorem runs_apart : (runs p n).Pairwise fun r r' => r'.2 + 1 < r.1 := by
  induction n with
  | zero => exact List.Pairwise.nil
  | succ n ih =>
    cases hp : p n with
    | false => rwa [runs_succ_of_not_mem hp]
    | true =>
      rw [runs_succ_of_mem hp]
      have hbounds := runs_bounds (p := p) (n := n)
      cases hruns : runs p n with
      | nil => exact List.pairwise_singleton _ _
      | cons last rs =>
        obtain ⟨lo, hi⟩ := last
        rw [hruns] at ih hbounds
        obtain ⟨hhead, htail⟩ := List.pairwise_cons.mp ih
        rw [extend_cons]
        split
        · exact List.pairwise_cons.mpr ⟨hhead, htail⟩
        · next hgap =>
          have hlast := hbounds (lo, hi) List.mem_cons_self
          refine List.pairwise_cons.mpr ⟨fun r hr => ?_, ih⟩
          rcases List.mem_cons.mp hr with rfl | hr
          · dsimp only at hlast ⊢
            omega
          · have := hhead r hr
            dsimp only at hlast this ⊢
            omega

/-! ## The bounds, without the list -/

/-- `i` begins a run. -/
def begins (p : Nat → Bool) (i : Nat) : Bool := p i && (i == 0 || !p (i - 1))

/-- `i` is a bound of a run: it begins or ends one. -/
def isBound (p : Nat → Bool) (i : Nat) : Bool := begins p i || p i && !p (i + 1)

/-- The weight of a run: that of its two bounds, or of its one member. -/
def weight (w : Nat → Nat) (r : Nat × Nat) : Nat := if r.1 = r.2 then w r.1 else w r.1 + w r.2

/-- The run the scan is in, after a member. -/
theorem runs_head (h : p n = true) :
    ∃ lo rs, runs p (n + 1) = (lo, n) :: rs ∧ (lo = n ↔ begins p n = true) := by
  induction n with
  | zero => exact ⟨0, [], runs_succ_of_mem h, by simp [begins, h]⟩
  | succ n ih =>
    rw [runs_succ_of_mem h]
    have hbounds := runs_bounds (p := p) (n := n + 1)
    cases hp : p n with
    | false =>
      have hbegins : begins p (n + 1) = true := by simp [begins, h, hp]
      refine ⟨n + 1, runs p (n + 1), ?_, by simp [hbegins]⟩
      rw [runs_succ_of_not_mem hp]
      cases hruns : runs p n with
      | nil => rfl
      | cons last rs =>
        have := runs_bounds (p := p) (n := n) last (by rw [hruns]; exact List.mem_cons_self)
        exact if_neg (by omega)
    | true =>
      have hbegins : begins p (n + 1) = false := by simp [begins, hp]
      obtain ⟨lo, rs, hruns, _⟩ := ih hp
      have := hbounds (lo, n) (by rw [hruns]; exact List.mem_cons_self)
      dsimp only at this
      refine ⟨lo, rs, ?_, ?_⟩
      · rw [hruns]
        exact if_pos rfl
      · rw [hbegins]
        refine ⟨fun he => ?_, fun hf => by cases hf⟩
        omega

/-- What the last run weighs that is no bound yet: its end, when the next number goes on. -/
def openEnd (p : Nat → Bool) (w : Nat → Nat) : Nat → Nat
  | 0 => 0
  | n + 1 => if p n && !begins p n && p (n + 1) then w n else 0

/-- The weight of the runs is the weight of the bounds and of the open end. -/
theorem sum_weight_open (w : Nat → Nat) (n : Nat) :
    ((runs p n).map (weight w)).sum
      = (((List.range n).filter (isBound p)).map w).sum + openEnd p w n := by
  induction n with
  | zero => rfl
  | succ n ih =>
    rw [List.range_succ, List.filter_append, List.map_append, List.sum_append]
    cases hp : p n with
    | false =>
      have hbound : isBound p n = false := by simp [isBound, begins, hp]
      have hopen : openEnd p w n = 0 := by
        cases n with
        | zero => rfl
        | succ n => simp [openEnd, hp]
      rw [runs_succ_of_not_mem hp, ih, hopen]
      simp [openEnd, hp, hbound]
    | true =>
      -- either way the new member weighs in once: as a bound, or as the open end
      have hnew : (((List.filter (isBound p) [n]).map w).sum + openEnd p w (n + 1)) = w n := by
        cases hb : begins p n <;> cases hq : p (n + 1) <;> simp [isBound, openEnd, hp, hb, hq]
      rw [Nat.add_assoc, hnew]
      cases n with
      | zero => simp [runs, hp, extend, weight]
      | succ n =>
        rw [runs_succ_of_mem hp]
        cases hprev : p n with
        | false =>
          -- a member behind a gap begins a run
          have hopen : openEnd p w (n + 1) = 0 := by simp [openEnd, hprev]
          have hgap : extend (runs p (n + 1)) (n + 1) = (n + 1, n + 1) :: runs p (n + 1) := by
            rw [runs_succ_of_not_mem hprev]
            cases hruns : runs p n with
            | nil => rfl
            | cons last rs =>
              have := runs_bounds (p := p) (n := n) last (by rw [hruns]; exact List.mem_cons_self)
              exact if_neg (by omega)
          rw [hgap, List.map_cons, List.sum_cons, ih, hopen, weight, if_pos rfl, Nat.add_comm]
          rfl
        | true =>
          -- a member behind a member: the open end moves
          obtain ⟨lo, rs, hruns, hlo⟩ := runs_head hprev
          rw [hruns] at ih ⊢
          have hext : extend ((lo, n) :: rs) (n + 1) = (lo, n + 1) :: rs := if_pos rfl
          have hne : ¬ lo = n + 1 := by
            have := runs_bounds (p := p) (n := n + 1) (lo, n) (by rw [hruns]; exact List.mem_cons_self)
            dsimp only at this
            omega
          rw [hext, List.map_cons, List.sum_cons, weight]
          rw [List.map_cons, List.sum_cons, weight] at ih
          dsimp only at ih ⊢
          rw [if_neg hne]
          cases hb : begins p n with
          | true =>
            have hopen : openEnd p w (n + 1) = 0 := by simp [openEnd, hb]
            rw [if_pos (hlo.mpr hb), hopen] at ih
            omega
          | false =>
            have hopen : openEnd p w (n + 1) = w n := by simp [openEnd, hprev, hb, hp]
            have hlo' : ¬ lo = n := fun he => by
              rw [hlo.mp he] at hb
              cases hb
            rw [if_neg hlo', hopen] at ih
            omega

/-- **The weight of the runs is the weight of their bounds.** -/
theorem sum_weight (w : Nat → Nat) (hn : p n = false) :
    ((runs p n).map (weight w)).sum = (((List.range n).filter (isBound p)).map w).sum := by
  rw [sum_weight_open]
  cases n with
  | zero => rfl
  | succ n => simp [openEnd, hn]

end Runs
end AppOptR
