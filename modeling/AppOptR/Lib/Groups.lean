import Mathlib

/-!
# `Lib.Groups` — values collected by key

`add` puts values to those of an equal key, or opens a group for them behind the others; `collect` does so with a
list of keys and values, and `ranked` sorts the groups by key. What a group holds and which groups there are does
not depend on the order of the list (`held_collect`, `mem_keys_collect`), and a place in a list of ascending keys
says how its key compares with the others (`isLeast_iff`, `isGreatest_iff`).
-/

namespace AppOptR
namespace Groups

variable {κ α : Type*} {k k' : κ} {x : α} {xs : List α} {gs ps : List (κ × List α)}

/-- The keys in the order they have come up in. -/
def keys (gs : List (κ × List α)) : List κ := gs.map Prod.fst

/-- A group of key `k` holds `x`. -/
def Held (gs : List (κ × List α)) (k : κ) (x : α) : Prop := ∃ xs, (k, xs) ∈ gs ∧ x ∈ xs

theorem held_cons {g : κ × List α} : Held (g :: gs) k x ↔ g.1 = k ∧ x ∈ g.2 ∨ Held gs k x := by
  unfold Held
  constructor
  · rintro ⟨xs, h, hx⟩
    rcases List.mem_cons.mp h with rfl | h
    · exact .inl ⟨rfl, hx⟩
    · exact .inr ⟨xs, h, hx⟩
  · rintro (⟨rfl, hx⟩ | ⟨xs, h, hx⟩)
    · exact ⟨g.2, List.mem_cons_self, hx⟩
    · exact ⟨xs, List.mem_cons_of_mem _ h, hx⟩

/-! ## Collecting -/

section Collect

variable [DecidableEq κ]

/-- Put the values to the group of the key, or open one at the end. -/
def add (k : κ) (xs : List α) : List (κ × List α) → List (κ × List α)
  | [] => [(k, xs)]
  | g :: gs => if g.1 = k then (g.1, g.2 ++ xs) :: gs else g :: add k xs gs

/-- All pairs, collected by key. -/
def collect (ps : List (κ × List α)) : List (κ × List α) := ps.foldl (fun gs p => add p.1 p.2 gs) []

theorem mem_keys_add : k' ∈ keys (add k xs gs) ↔ k' ∈ keys gs ∨ k' = k := by
  induction gs with
  | nil => simp [add, keys]
  | cons g gs ih =>
    rw [add]
    split
    · next hg =>
      simp only [keys, List.map_cons, List.mem_cons]
      constructor
      · exact .inl
      · rintro (h | rfl)
        · exact h
        · exact .inl hg.symm
    · simp only [keys, List.map_cons, List.mem_cons] at ih ⊢
      rw [ih, or_assoc]

/-- No key gets a second group. -/
theorem nodup_add (h : (keys gs).Nodup) : (keys (add k xs gs)).Nodup := by
  induction gs with
  | nil => exact List.nodup_singleton k
  | cons g gs ih =>
    obtain ⟨hg, hgs⟩ := List.nodup_cons.mp h
    rw [add]
    split
    · exact h
    · next hne =>
      refine List.nodup_cons.mpr ⟨fun hm => ?_, ih hgs⟩
      rcases mem_keys_add.mp hm with hm | hm
      · exact hg hm
      · exact hne hm

theorem held_add : Held (add k xs gs) k' x ↔ Held gs k' x ∨ k' = k ∧ x ∈ xs := by
  induction gs with
  | nil =>
    rw [add, held_cons]
    simp [Held, eq_comm]
  | cons g gs ih =>
    rw [add]
    split
    · next hg =>
      rw [held_cons, held_cons]
      dsimp only
      rw [List.mem_append, hg]
      constructor
      · rintro (⟨rfl, h | h⟩ | h)
        · exact .inl (.inl ⟨rfl, h⟩)
        · exact .inr ⟨rfl, h⟩
        · exact .inl (.inr h)
      · rintro ((⟨rfl, h⟩ | h) | ⟨rfl, h⟩)
        · exact .inl ⟨rfl, .inl h⟩
        · exact .inr h
        · exact .inl ⟨rfl, .inr h⟩
    · rw [held_cons, held_cons, ih, or_assoc]

theorem mem_keys_collect : k ∈ keys (collect ps) ↔ ∃ p ∈ ps, p.1 = k := by
  unfold collect
  induction ps using List.reverseRecOn with
  | nil => simp [keys]
  | append_singleton ps p ih =>
    rw [List.foldl_concat, mem_keys_add, ih, @eq_comm _ k p.1]
    simp only [List.mem_append, List.mem_singleton, or_and_right, exists_or, exists_eq_left]

theorem nodup_collect : (keys (collect ps)).Nodup := by
  unfold collect
  induction ps using List.reverseRecOn with
  | nil => exact List.nodup_nil
  | append_singleton ps p ih =>
    rw [List.foldl_concat]
    exact nodup_add ih

/-- **What a group holds**: the values that came with its key. -/
theorem held_collect : Held (collect ps) k x ↔ ∃ p ∈ ps, p.1 = k ∧ x ∈ p.2 := by
  unfold collect
  induction ps using List.reverseRecOn with
  | nil => simp [Held]
  | append_singleton ps p ih =>
    rw [List.foldl_concat, held_add, ih, @eq_comm _ k p.1]
    simp only [List.mem_append, List.mem_singleton, or_and_right, exists_or, exists_eq_left]

end Collect

/-! ## Ranking -/

section Ranked

variable [LinearOrder κ]

/-- The groups in the order of their keys; equal keys keep their order. -/
def ranked (gs : List (κ × List α)) : List (κ × List α) := gs.insertionSort fun a b => a.1 ≤ b.1

theorem keys_ranked : (keys (ranked gs)).Perm (keys gs) := (List.perm_insertionSort _ gs).map _

theorem held_ranked : Held (ranked gs) k x ↔ Held gs k x := by
  unfold Held ranked
  simp only [List.mem_insertionSort]

/-- **The keys of the ranked groups ascend**, where no key has two groups. -/
theorem ranked_ascending (h : (keys gs).Nodup) : (keys (ranked gs)).Pairwise (· < ·) := by
  have htotal : Std.Total fun a b : κ × List α => a.1 ≤ b.1 := ⟨fun a b => le_total a.1 b.1⟩
  have htrans : IsTrans (κ × List α) fun a b => a.1 ≤ b.1 := ⟨fun _ _ _ => le_trans⟩
  have hle : (keys (ranked gs)).Pairwise (· ≤ ·) :=
    List.pairwise_map.mpr (List.pairwise_insertionSort (fun a b : κ × List α => a.1 ≤ b.1) gs)
  have hne : (keys (ranked gs)).Nodup := keys_ranked.nodup_iff.mpr h
  exact hle.imp₂ (fun _ _ => lt_of_le_of_ne) hne

variable {ks : List κ} {i : ℕ}

/-- The least of ascending keys is the first. -/
theorem isLeast_iff (hs : ks.Pairwise (· < ·)) (hi : i < ks.length) : IsLeast {k | k ∈ ks} ks[i] ↔ i = 0 := by
  have hlt := List.pairwise_iff_getElem.mp hs
  constructor
  · intro h
    by_contra hne
    have hpos : 0 < i := Nat.pos_of_ne_zero hne
    have hfirst : ks[0] ∈ ks := List.getElem_mem (hpos.trans hi)
    exact absurd (h.2 hfirst) (not_le_of_gt (hlt 0 i _ hi hpos))
  · rintro rfl
    refine ⟨List.getElem_mem hi, fun k hk => ?_⟩
    obtain ⟨j, hj, rfl⟩ := List.getElem_of_mem hk
    rcases Nat.eq_zero_or_pos j with rfl | hpos
    · exact le_rfl
    · exact (hlt 0 j hi hj hpos).le

/-- The greatest is the last. -/
theorem isGreatest_iff (hs : ks.Pairwise (· < ·)) (hi : i < ks.length) :
    IsGreatest {k | k ∈ ks} ks[i] ↔ i = ks.length - 1 := by
  have hlt := List.pairwise_iff_getElem.mp hs
  constructor
  · intro h
    by_contra hne
    have hj : ks.length - 1 < ks.length := Nat.sub_lt (Nat.zero_lt_of_lt hi) Nat.one_pos
    have hij : i < ks.length - 1 := by omega
    exact absurd (h.2 (List.getElem_mem hj)) (not_le_of_gt (hlt i _ hi hj hij))
  · rintro rfl
    refine ⟨List.getElem_mem hi, fun k hk => ?_⟩
    obtain ⟨j, hj, rfl⟩ := List.getElem_of_mem hk
    rcases Nat.lt_or_ge j (ks.length - 1) with hjl | hjl
    · exact (hlt j _ hj hi hjl).le
    · have hsame : j = ks.length - 1 := by omega
      simp only [hsame, le_refl]

end Ranked

end Groups
end AppOptR
