import Mathlib

/-!
# `Lib.ListScript` — edits of a list, one position at a time

A script rewrites, erases and inserts at given positions of a list, each step in the list that the steps before it
have left. `Along` says of every element that a script rewrites or erases what holds of it when its turn comes.
Steps that do not move each other's elements find them as they were at the start (`along_apart`); and the elements
that no step touches stay, in their order (`kept`).
-/

namespace AppOptR
namespace ListScript

variable {α ρ : Type*}

/-- One step; `ρ` names the ways to rewrite an element. -/
inductive Step (ρ : Type*) (α : Type*) where
  | rewrite (i : ℕ) (r : ρ)
  | erase (i : ℕ)
  | insert (i : ℕ) (chunk : List α)
  deriving DecidableEq

variable {act : ρ → α → α} {P Q : Option ρ → α → Prop} {xs ys : List α} {steps steps' : List (Step ρ α)}

/-- The list after one step. -/
def Step.run (act : ρ → α → α) (xs : List α) : Step ρ α → List α
  | .rewrite i r => xs.modify i (act r)
  | .erase i => xs.eraseIdx i
  | .insert i chunk => xs.take i ++ chunk ++ xs.drop i

/-- The list after a script. -/
def run (act : ρ → α → α) (xs : List α) (steps : List (Step ρ α)) : List α := steps.foldl (Step.run act) xs

@[simp] theorem run_nil : run act xs [] = xs := rfl

theorem run_append : run act xs (steps ++ steps') = run act (run act xs steps) steps' := List.foldl_append

/-- The element a step rewrites (`some r`) or erases (`none`) is there, and meets `P`. -/
def Step.Meets (P : Option ρ → α → Prop) (xs : List α) : Step ρ α → Prop
  | .rewrite i r => ∃ x, xs[i]? = some x ∧ P (some r) x
  | .erase i => ∃ x, xs[i]? = some x ∧ P none x
  | .insert _ _ => True

/-- Every element that the script rewrites or erases meets `P` when its turn comes. -/
def Along (act : ρ → α → α) (P : Option ρ → α → Prop) (xs : List α) : List (Step ρ α) → Prop
  | [] => True
  | s :: steps => s.Meets P xs ∧ Along act P (s.run act xs) steps

theorem along_append :
    Along act P xs (steps ++ steps') ↔ Along act P xs steps ∧ Along act P (run act xs steps) steps' := by
  induction steps generalizing xs with
  | nil => exact ⟨fun h => ⟨trivial, h⟩, fun h => h.2⟩
  | cons s steps ih =>
    show s.Meets P xs ∧ Along act P (s.run act xs) (steps ++ steps') ↔ (_ ∧ _) ∧ _
    rw [ih, and_assoc]
    rfl

theorem Step.Meets.imp (hPQ : ∀ r x, P r x → Q r x) {s : Step ρ α} (h : s.Meets P xs) : s.Meets Q xs := by
  cases s with
  | rewrite i r =>
    obtain ⟨x, hx, hp⟩ := h
    exact ⟨x, hx, hPQ _ _ hp⟩
  | erase i =>
    obtain ⟨x, hx, hp⟩ := h
    exact ⟨x, hx, hPQ _ _ hp⟩
  | insert i chunk => trivial

/-- Both facts are about the one element at the position. -/
theorem Step.Meets.and {s : Step ρ α} (h : s.Meets P xs) (h' : s.Meets Q xs) :
    s.Meets (fun r x => P r x ∧ Q r x) xs := by
  cases s with
  | rewrite i r =>
    obtain ⟨x, hx, hp⟩ := h
    obtain ⟨y, hy, hq⟩ := h'
    rw [hx, Option.some.injEq] at hy
    exact ⟨x, hx, hp, hy ▸ hq⟩
  | erase i =>
    obtain ⟨x, hx, hp⟩ := h
    obtain ⟨y, hy, hq⟩ := h'
    rw [hx, Option.some.injEq] at hy
    exact ⟨x, hx, hp, hy ▸ hq⟩
  | insert i chunk => trivial

theorem Along.imp (hPQ : ∀ r x, P r x → Q r x) (h : Along act P xs steps) : Along act Q xs steps := by
  induction steps generalizing xs with
  | nil => trivial
  | cons s steps ih => exact ⟨h.1.imp hPQ, ih h.2⟩

theorem Along.and (h : Along act P xs steps) (h' : Along act Q xs steps) :
    Along act (fun r x => P r x ∧ Q r x) xs steps := by
  induction steps generalizing xs with
  | nil => trivial
  | cons s steps ih => exact ⟨h.1.and h'.1, ih h.2 h'.2⟩

/-- What comes to the same on every element that a script touches comes to the same along the script. -/
theorem Along.congr {G : Option ρ → α → Prop} (hG : Along act G xs steps) (hPQ : ∀ r x, G r x → (P r x ↔ Q r x)) :
    Along act P xs steps ↔ Along act Q xs steps := by
  constructor
  · intro h
    exact (hG.and h).imp fun r x hx => (hPQ r x hx.1).mp hx.2
  · intro h
    exact (hG.and h).imp fun r x hx => (hPQ r x hx.1).mpr hx.2

/-! ## Steps that leave each other alone -/

def Step.pos : Step ρ α → ℕ
  | .rewrite i _ | .erase i | .insert i _ => i

/-- The step leaves what stands at position `j`. -/
def Step.Spares : Step ρ α → ℕ → Prop
  | .rewrite i _, j => j ≠ i
  | .erase i, j => j < i
  | .insert _ _, _ => False

theorem Step.Spares.run {s : Step ρ α} {j : ℕ} (h : s.Spares j) (xs : List α) : (s.run act xs)[j]? = xs[j]? := by
  cases s with
  | rewrite i r =>
    have hne : i ≠ j := Ne.symm h
    simp [Step.run, hne]
  | erase i => exact List.getElem?_eraseIdx_of_lt h
  | insert i chunk => exact h.elim

theorem Step.meets_congr {s : Step ρ α} (h : xs[s.pos]? = ys[s.pos]?) : s.Meets P xs ↔ s.Meets P ys := by
  cases s with
  | rewrite i r =>
    show (∃ x, xs[i]? = some x ∧ _) ↔ ∃ x, ys[i]? = some x ∧ _
    rw [show xs[i]? = ys[i]? from h]
  | erase i =>
    show (∃ x, xs[i]? = some x ∧ _) ↔ ∃ x, ys[i]? = some x ∧ _
    rw [show xs[i]? = ys[i]? from h]
  | insert i chunk => exact Iff.rfl

/-- **Steps that leave each other's elements alone** find them as they were at the start. -/
theorem along_apart (hs : steps.Pairwise fun a b => a.Spares b.pos) :
    Along act P xs steps ↔ ∀ s ∈ steps, s.Meets P xs := by
  induction steps generalizing xs with
  | nil => exact iff_of_true trivial (by simp)
  | cons s steps ih =>
    obtain ⟨hspare, hrest⟩ := List.pairwise_cons.mp hs
    have hsame : (∀ s' ∈ steps, s'.Meets P (s.run act xs)) ↔ ∀ s' ∈ steps, s'.Meets P xs :=
      forall₂_congr fun s' hs' => Step.meets_congr ((hspare s' hs').run xs)
    rw [List.forall_mem_cons, ← hsame, ← ih hrest]
    rfl

/-! ## What no step touches -/

/-- A list, cut at an element. -/
theorem split_at {i : ℕ} {x : α} (h : xs[i]? = some x) : xs = xs.take i ++ x :: xs.drop (i + 1) := by
  obtain ⟨hi, rfl⟩ := List.getElem?_eq_some_iff.mp h
  rw [List.getElem_cons_drop, List.take_append_drop]

/-- The filtered list, but for an element that the filter drops. -/
theorem filter_split {q : α → Bool} {i : ℕ} {x : α} (h : xs[i]? = some x) (hq : q x = false) :
    xs.filter q = (xs.take i).filter q ++ (xs.drop (i + 1)).filter q := by
  conv_lhs => rw [split_at h]
  rw [List.filter_append, List.filter_cons_of_neg (by simpa using hq)]

theorem Step.kept {q : α → Bool} {s : Step ρ α} (h : s.Meets (fun _ x => q x = false) xs) :
    (xs.filter q).Sublist ((s.run act xs).filter q) := by
  cases s with
  | rewrite i r =>
    obtain ⟨x, hx, hq⟩ := h
    obtain ⟨hi, hget⟩ := List.getElem?_eq_some_iff.mp hx
    have hmod : Step.run act xs (.rewrite i r) = xs.take i ++ act r x :: xs.drop (i + 1) := by
      rw [Step.run, List.modify_eq_take_cons_drop hi, hget]
    rw [hmod, filter_split hx hq, List.filter_append]
    refine List.Sublist.append_left ?_ _
    rw [List.filter_cons]
    split
    · exact List.sublist_cons_self _ _
    · exact List.Sublist.refl _
  | erase i =>
    obtain ⟨x, hx, hq⟩ := h
    rw [Step.run, List.eraseIdx_eq_take_drop_succ, filter_split hx hq, List.filter_append]
  | insert i chunk =>
    have hmid : (xs.take i ++ xs.drop i).Sublist (xs.take i ++ chunk ++ xs.drop i) := by
      rw [List.append_assoc]
      exact List.Sublist.append_left (List.sublist_append_right _ _) _
    rw [List.take_append_drop] at hmid
    exact hmid.filter q

/-- **The elements that no step touches** stay, in their order. -/
theorem kept {q : α → Bool} (h : Along act (fun _ x => q x = false) xs steps) :
    (xs.filter q).Sublist ((run act xs steps).filter q) := by
  induction steps generalizing xs with
  | nil => exact List.Sublist.refl _
  | cons s steps ih => exact (Step.kept h.1).trans (ih h.2)

end ListScript
end AppOptR
