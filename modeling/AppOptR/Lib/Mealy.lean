import Mathlib

/-!
# `Lib.Mealy` — machines that read a list and emit events

A step takes a state and one input to a new state and a list of events. Reading a list of inputs splits
at every append (`final_append`, `emit_append`), so replacing a segment of the input is a matter of what
the segment emits and which state it leaves. Two machines are compared by a relation on their states:
`Sim.run` lifts a step-by-step comparison to whole inputs, under a guard that holds along the run.
-/

namespace AppOptR
namespace Mealy

variable {σ τ α β γ δ : Type*}

/-- The state after a list of inputs. -/
def final (step : σ → α → σ × List β) (s : σ) (as : List α) : σ :=
  as.foldl (fun s a => (step s a).1) s

/-- Everything emitted on the way, in order. -/
def emit (step : σ → α → σ × List β) : σ → List α → List β
  | _, [] => []
  | s, a :: as => (step s a).2 ++ emit step (step s a).1 as

/-- `G` holds of every state and input met on the way. -/
def Along (step : σ → α → σ × List β) (G : σ → α → Prop) : σ → List α → Prop
  | _, [] => True
  | s, a :: as => G s a ∧ Along step G (step s a).1 as

variable {step : σ → α → σ × List β}

@[simp] theorem final_nil {s : σ} : final step s [] = s := rfl

@[simp] theorem final_cons {s : σ} {a : α} {as : List α} :
    final step s (a :: as) = final step (step s a).1 as := rfl

theorem final_append {s : σ} {as bs : List α} :
    final step s (as ++ bs) = final step (final step s as) bs := List.foldl_append

@[simp] theorem emit_nil {s : σ} : emit step s [] = [] := rfl

@[simp] theorem emit_cons {s : σ} {a : α} {as : List α} :
    emit step s (a :: as) = (step s a).2 ++ emit step (step s a).1 as := rfl

theorem emit_append {s : σ} {as bs : List α} :
    emit step s (as ++ bs) = emit step s as ++ emit step (final step s as) bs := by
  induction as generalizing s with
  | nil => rfl
  | cons a as ih => simp only [List.cons_append, emit_cons, final_cons, ih, List.append_assoc]

@[simp] theorem along_nil {G : σ → α → Prop} {s : σ} : Along step G s [] := trivial

@[simp] theorem along_cons {G : σ → α → Prop} {s : σ} {a : α} {as : List α} :
    Along step G s (a :: as) ↔ G s a ∧ Along step G (step s a).1 as := Iff.rfl

theorem along_append {G : σ → α → Prop} {s : σ} {as bs : List α} :
    Along step G s (as ++ bs) ↔ Along step G s as ∧ Along step G (final step s as) bs := by
  induction as generalizing s with
  | nil => simp
  | cons a as ih => simp only [List.cons_append, along_cons, final_cons, ih, and_assoc]

/-- A guard that fails somewhere fails first at one input. -/
theorem not_along {G : σ → α → Prop} {s : σ} {as : List α} (h : ¬ Along step G s as) :
    ∃ pre a post, as = pre ++ a :: post ∧ Along step G s pre ∧ ¬ G (final step s pre) a := by
  induction as generalizing s with
  | nil => exact absurd along_nil h
  | cons a as ih =>
    by_cases ha : G s a
    · have hrest : ¬ Along step G (step s a).1 as := fun hr => h ⟨ha, hr⟩
      obtain ⟨pre, b, post, rfl, hpre, hb⟩ := ih hrest
      exact ⟨a :: pre, b, post, rfl, ⟨ha, hpre⟩, hb⟩
    · exact ⟨[], a, as, rfl, along_nil, ha⟩

instance decidableAlong {G : σ → α → Prop} [∀ s a, Decidable (G s a)] :
    ∀ (s : σ) (as : List α), Decidable (Along step G s as)
  | _, [] => inferInstanceAs (Decidable True)
  | s, a :: as =>
    have : Decidable (Along step G (step s a).1 as) := decidableAlong (step s a).1 as
    inferInstanceAs (Decidable (G s a ∧ Along step G (step s a).1 as))

/-- **Invariants.** What every guarded step preserves holds after every guarded input. -/
theorem invariant {I : σ → Prop} {G : σ → α → Prop} (hstep : ∀ s a, I s → G s a → I (step s a).1) {s : σ}
    {as : List α} (hG : Along step G s as) (h : I s) : I (final step s as) := by
  induction as generalizing s with
  | nil => exact h
  | cons a as ih => exact ih hG.2 (hstep s a h hG.1)

/-- A guard that does not look at the state holds along a run as soon as it holds of every input. -/
theorem along_of_forall {G : α → Prop} {s : σ} {as : List α} (h : ∀ a ∈ as, G a) :
    Along step (fun _ a => G a) s as := by
  induction as generalizing s with
  | nil => exact along_nil
  | cons a as ih => exact ⟨h a (by simp), ih fun b hb => h b (by simp [hb])⟩

/-- A guard that follows from an invariant. -/
theorem along_invariant {I : σ → Prop} {H : α → Prop} {G : σ → α → Prop}
    (hstep : ∀ s a, I s → H a → I (step s a).1) (hG : ∀ s a, I s → H a → G s a) {s : σ} {as : List α} (h : I s)
    (has : ∀ a ∈ as, H a) : Along step G s as := by
  induction as generalizing s with
  | nil => exact along_nil
  | cons a as ih =>
    obtain ⟨ha, hrest⟩ := List.forall_mem_cons.mp has
    exact ⟨hG s a h ha, ih (hstep s a h ha) hrest⟩

theorem along_and {G H : σ → α → Prop} {s : σ} {as : List α} (hG : Along step G s as)
    (hH : Along step H s as) : Along step (fun s a => G s a ∧ H s a) s as := by
  induction as generalizing s with
  | nil => exact along_nil
  | cons a as ih => exact ⟨⟨hG.1, hH.1⟩, ih hG.2 hH.2⟩

/-- What holds along a list holds at each of its elements. -/
theorem along_at {G : σ → α → Prop} {s : σ} {pre post : List α} {a : α}
    (h : Along step G s (pre ++ a :: post)) : G (final step s pre) a :=
  (along_append.mp h).2.1

/-! ## Watching what is emitted -/

/-- **Monitors.** Where the events of every guarded step meet the monitor's demand `ok`, and an invariant
    ties the monitor to the state, the events of a whole run meet it. -/
theorem emit_along {ρ ε : Type*} {watch : ρ → β → ρ × List ε} {ok : ρ → β → Prop} {I : ρ → σ → Prop}
    {G : σ → α → Prop}
    (hstep : ∀ r s a, I r s → G s a →
      Along watch ok r (step s a).2 ∧ I (final watch r (step s a).2) (step s a).1)
    {r : ρ} {s : σ} {as : List α} (hG : Along step G s as) (h : I r s) :
    Along watch ok r (emit step s as) := by
  induction as generalizing r s with
  | nil => exact along_nil
  | cons a as ih =>
    obtain ⟨hok, hnext⟩ := hstep r s a h hG.1
    exact along_append.mpr ⟨hok, ih hG.2 hnext⟩

/-! ## Comparing two machines on the same input -/

/-- One guarded step of the first machine is matched by one of the second: the states stay related, and
    the events agree through the views `f` and `g`. -/
structure Sim (step : σ → α → σ × List β) (step' : τ → α → τ × List γ) (G : σ → α → Prop)
    (R : σ → τ → Prop) (f : β → List δ) (g : γ → List δ) : Prop where
  next : ∀ {s t a}, R s t → G s a → R (step s a).1 (step' t a).1
  view : ∀ {s t a}, R s t → G s a → (step s a).2.flatMap f = (step' t a).2.flatMap g

variable {step' : τ → α → τ × List γ} {G : σ → α → Prop} {R : σ → τ → Prop}
  {f : β → List δ} {g : γ → List δ}

/-- **The run lemma.** Related states stay related over a guarded input, and emit the same view of it. -/
theorem Sim.run (h : Sim step step' G R f g) {s : σ} {t : τ} (hR : R s t) {as : List α}
    (hG : Along step G s as) :
    R (final step s as) (final step' t as) ∧
      (emit step s as).flatMap f = (emit step' t as).flatMap g := by
  induction as generalizing s t with
  | nil => exact ⟨hR, rfl⟩
  | cons a as ih =>
    obtain ⟨ha, hrest⟩ := hG
    obtain ⟨hfin, hview⟩ := ih (h.next hR ha) hrest
    refine ⟨hfin, ?_⟩
    rw [emit_cons, emit_cons, List.flatMap_append, List.flatMap_append, h.view hR ha, hview]

/-- What the first machine's guard ensures of the second holds all along its run. -/
theorem Sim.along (h : Sim step step' G R f g) {G' : τ → α → Prop} (hG' : ∀ {s t a}, R s t → G s a → G' t a)
    {s : σ} {t : τ} (hR : R s t) {as : List α} (hG : Along step G s as) : Along step' G' t as := by
  induction as generalizing s t with
  | nil => exact along_nil
  | cons a as ih => exact ⟨hG' hR hG.1, ih (h.next hR hG.1) hG.2⟩

/-! ## Input read through a function -/

/-- The machine that reads `k c` for `c`. -/
def through (step : σ → α → σ × List β) (k : γ → α) (s : σ) (c : γ) : σ × List β := step s (k c)

theorem final_through (k : γ → α) (s : σ) (cs : List γ) :
    final (through step k) s cs = final step s (cs.map k) := by
  induction cs generalizing s with
  | nil => rfl
  | cons c cs ih => exact ih _

theorem emit_through (k : γ → α) (s : σ) (cs : List γ) : emit (through step k) s cs = emit step s (cs.map k) := by
  induction cs generalizing s with
  | nil => rfl
  | cons c cs ih =>
    rw [List.map_cons, emit_cons, emit_cons, ← ih]
    rfl

theorem along_through {G : σ → α → Prop} (k : γ → α) (s : σ) (cs : List γ) :
    Along (through step k) (fun s c => G s (k c)) s cs ↔ Along step G s (cs.map k) := by
  induction cs generalizing s with
  | nil => exact Iff.rfl
  | cons c cs ih => exact and_congr Iff.rfl (ih _)

/-! ## Numbered input -/

/-- The machine on numbered inputs: every event carries the number of its input. -/
def indexed (step : σ → α → σ × List β) (s : σ) (a : α × ℕ) : σ × List (ℕ × β) :=
  ((step s a.1).1, (step s a.1).2.map fun b => (a.2, b))

theorem final_indexed (s : σ) (as : List α) (k : ℕ) :
    final (indexed step) s (as.zipIdx k) = final step s as := by
  induction as generalizing s k with
  | nil => rfl
  | cons a as ih =>
    rw [List.zipIdx_cons, final_cons, final_cons]
    exact ih _ _

theorem along_indexed {G : σ → α → Prop} {s : σ} {as : List α} {k : ℕ} (h : Along step G s as) :
    Along (indexed step) (fun s a => G s a.1) s (as.zipIdx k) := by
  induction as generalizing s k with
  | nil => exact along_nil
  | cons a as ih =>
    rw [List.zipIdx_cons]
    exact ⟨h.1, ih h.2⟩

/-- Views that carry the number along. -/
def tag (f : β → List δ) (b : ℕ × β) : List (ℕ × δ) := (f b.2).map fun d => (b.1, d)

theorem flatMap_tag (f : β → List δ) (bs : List β) (k : ℕ) :
    (bs.map fun b => (k, b)).flatMap (tag f) = (bs.flatMap f).map fun d => (k, d) := by
  induction bs with
  | nil => rfl
  | cons b bs ih => simp only [List.map_cons, List.flatMap_cons, tag, List.map_append, ih]

/-- The numbers off again. -/
theorem emit_indexed_view (f : β → List δ) (s : σ) (as : List α) (k : ℕ) :
    ((emit (indexed step) s (as.zipIdx k)).flatMap (tag f)).map Prod.snd = (emit step s as).flatMap f := by
  induction as generalizing s k with
  | nil => rfl
  | cons a as ih =>
    have hnext := ih (step s a).1 (k + 1)
    rw [List.zipIdx_cons, emit_cons, emit_cons, List.flatMap_append, List.flatMap_append, List.map_append,
      ← hnext]
    show List.map _ (List.flatMap _ (List.map _ _)) ++ _ = _
    rw [flatMap_tag, List.map_map]
    simp [indexed]

/-- A comparison of two machines is one of their numbered versions. -/
theorem Sim.indexed (h : Sim step step' G R f g) :
    Sim (indexed step) (indexed step') (fun s a => G s a.1) R (tag f) (tag g) where
  next hR hG := h.next hR hG
  view {s t a} hR hG := by
    show List.flatMap _ (List.map _ _) = List.flatMap _ (List.map _ _)
    rw [flatMap_tag, flatMap_tag, h.view hR hG]

end Mealy
end AppOptR
