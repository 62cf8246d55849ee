import Mathlib

/-!
# `Lib.TopK` — counting, and the first of a list in order

`tally` counts the occurrences of a list's elements in a map with one entry a key (`lookup_tally`). Sorting and keeping
the first `n` keeps the elements that fewer than `n` others precede (`mem_take_sort`): a statement about the elements,
whatever the order they come in.
-/

namespace AppOptR
namespace TopK

/-! ## Counting -/

section Tally

variable {κ : Type*} [DecidableEq κ]

/-- A `HashMap` from names to counts. -/
abbrev Counts (κ : Type*) := AList fun _ : κ => Nat

/-- Every key gets the value. -/
def putAll (counts : Counts κ) (n : Nat) (keys : List κ) : Counts κ := keys.foldl (fun m k => m.insert k n) counts

/-- One more for the key, with `step` for what one more is. -/
def bump (step : Nat → Nat) (counts : Counts κ) (k : κ) : Counts κ := counts.insert k (step ((counts.lookup k).getD 0))

/-- Every key in turn. -/
def tally (step : Nat → Nat) (counts : Counts κ) (keys : List κ) : Counts κ := keys.foldl (bump step) counts

theorem lookup_putAll [BEq κ] [LawfulBEq κ] (counts : Counts κ) (n : Nat) (keys : List κ) (k : κ) :
    (putAll counts n keys).lookup k = if k ∈ keys then some n else counts.lookup k := by
  induction keys generalizing counts with
  | nil => simp [putAll]
  | cons a keys ih =>
    rw [show putAll counts n (a :: keys) = putAll (counts.insert a n) n keys from rfl, ih]
    by_cases hk : k ∈ keys
    · simp [hk]
    by_cases ha : k = a
    · subst ha
      simp [hk, AList.lookup_insert]
    · simp [hk, ha, AList.lookup_insert_ne ha]

/-- A key's count: the steps from where it stood, as many as the key occurs. -/
theorem lookup_tally [BEq κ] [LawfulBEq κ] (step : Nat → Nat) (counts : Counts κ) (keys : List κ) (k : κ) :
    (tally step counts keys).lookup k
      = if k ∈ keys then some (step^[keys.count k] ((counts.lookup k).getD 0)) else counts.lookup k := by
  induction keys generalizing counts with
  | nil => simp [tally]
  | cons a keys ih =>
    rw [show tally step counts (a :: keys) = tally step (bump step counts a) keys from rfl, ih, bump]
    by_cases ha : k = a
    · subst ha
      rw [AList.lookup_insert, List.count_cons_self, Function.iterate_succ_apply, Option.getD_some,
        if_pos List.mem_cons_self]
      by_cases hk : k ∈ keys
      · rw [if_pos hk]
      · rw [if_neg hk, List.count_eq_zero_of_not_mem hk, Function.iterate_zero_apply]
    · rw [AList.lookup_insert_ne ha, List.count_cons_of_ne (Ne.symm ha)]
      simp [ha]

end Tally

/-! ## The first ones -/

variable {α β : Type*} [LinearOrder α] {l : List α} {x : α} {n : Nat}

theorem pairwise_lt (h : l.Nodup) : (l.insertionSort (· ≤ ·)).Pairwise (· < ·) := by
  have hnodup : (l.insertionSort (· ≤ ·)).Nodup := (List.perm_insertionSort _ l).nodup_iff.mpr h
  exact (List.pairwise_and_iff.mpr ⟨List.pairwise_insertionSort _ l, hnodup⟩).imp
    fun ⟨hab, hne⟩ => lt_of_le_of_ne hab hne

/-- In an ascending list as many elements are smaller as stand before. -/
theorem countP_lt_append {pre post : List α} (h : (pre ++ x :: post).Pairwise (· < ·)) :
    (pre ++ x :: post).countP (· < x) = pre.length := by
  obtain ⟨_, htail, hcross⟩ := List.pairwise_append.mp h
  have hpre : pre.countP (· < x) = pre.length :=
    List.countP_eq_length.mpr fun a ha => by simpa using hcross a ha x (by simp)
  have hpost : post.countP (· < x) = 0 :=
    List.countP_eq_zero.mpr fun a ha => by simpa using ((List.pairwise_cons.mp htail).1 a ha).le
  rw [List.countP_append, List.countP_cons, hpre, hpost]
  simp

/-- **The first `n`** are the elements that fewer than `n` precede. -/
theorem mem_take_sort (h : l.Nodup) :
    x ∈ (l.insertionSort (· ≤ ·)).take n ↔ x ∈ l ∧ l.countP (· < x) < n := by
  have hperm := List.perm_insertionSort (· ≤ ·) l
  have hsorted := pairwise_lt h
  rw [← hperm.countP_eq, ← hperm.mem_iff]
  generalize l.insertionSort (· ≤ ·) = s at hsorted
  constructor
  · intro hx
    obtain ⟨pre, post, he⟩ := List.append_of_mem hx
    have hs : s = pre ++ x :: (post ++ s.drop n) := by
      rw [← List.cons_append, ← List.append_assoc, ← he, List.take_append_drop]
    have hlen : pre.length < n := by
      have := congrArg List.length he
      rw [List.length_take, List.length_append, List.length_cons] at this
      omega
    refine ⟨List.mem_of_mem_take hx, ?_⟩
    rw [hs] at hsorted ⊢
    rwa [countP_lt_append hsorted]
  · rintro ⟨hx, hcount⟩
    obtain ⟨pre, post, rfl⟩ := List.append_of_mem hx
    rw [countP_lt_append hsorted] at hcount
    exact List.mem_take_iff_getElem.mpr ⟨pre.length, by simp; omega, by simp⟩

/-- As many elements of a list without repetition satisfy a test as of the set of its elements. -/
theorem countP_eq_card [DecidableEq β] {l : List β} (h : l.Nodup) (p : β → Prop) [DecidablePred p] :
    l.countP p = (l.toFinset.filter p).card := by
  rw [List.countP_eq_length_filter, ← List.toFinset_card_of_nodup (h.filter _), List.toFinset_filter]
  simp

end TopK
end AppOptR
