import AppOptR.RuleEdit.Rewrites
import AppOptR.RuleEdit.Correctness.Anatomy

/-!
# `RuleEdit.Correctness.Insertion` — putting thread rules into a text

The editor puts thread rules in one of three places: before the end of a block of the package, under a header
that it turns into the opening of a block, or in a block of their own. `BlockLines` says what the inserted
lines have to be, and `Gains` what the text gains by them: the rules for the package, and nothing for
another.
-/

namespace AppOptR

open Text

variable {q pkg line : Str} {ls ls' pre post x y texts : List Str} {es : List (Str × Str)}
  {waiting : Option Str} {P : Role → Prop}

/-! ## Lines of a block -/

/-- The lines `texts`, in a block of `pkg`, are thread rules; `es` are their threads and specs. -/
structure BlockLines (pkg : Str) (texts : List Str) (es : List (Str × Str)) : Prop where
  stays : StaysIn pkg texts
  seen : seen pkg (.inside pkg) texts = es
  roles : ∀ r ∈ rolesFrom (.inside pkg) texts, ∃ n c, r = .thread n c false

theorem BlockLines.nil : BlockLines pkg [] [] := ⟨trivial, rfl, fun r hr => by cases hr⟩

theorem BlockLines.cons {n c : Str} (hr : roleOf (.inside pkg) line = .thread n c false)
    (h : BlockLines pkg texts es) : BlockLines pkg (line :: texts) ((n, c) :: es) := by
  have hnext : nextPlace (.inside pkg) (roleOf (.inside pkg) line) = .inside pkg := by
    rw [hr]
    rfl
  refine ⟨StaysIn.cons_iff.mpr ⟨hnext, h.stays⟩, ?_, fun r hm => ?_⟩
  · rw [seen_cons, hnext, h.seen, hr]
    simp [entriesFor, entry]
  · rw [rolesFrom_cons, hnext] at hm
    rcases List.mem_cons.mp hm with rfl | hm
    · exact ⟨n, c, hr⟩
    · exact h.roles r hm

theorem StaysIn.clashFree {body : List Str} (h : StaysIn pkg body) : ClashFreeFrom (.inside pkg) body := by
  induction body with
  | nil => trivial
  | cons line body ih =>
    obtain ⟨hnext, hrest⟩ := StaysIn.cons_iff.mp h
    rw [clashFreeFrom_cons, hnext]
    exact ⟨fun hc => (by cases hc.1), ih hrest⟩

/-- What another package sees of the lines, and what this one. -/
theorem BlockLines.seen_any (h : BlockLines pkg texts es) (q : Str) :
    AppOptR.seen q (.inside pkg) texts = if pkg = q then es else [] := by
  by_cases hq : pkg = q
  · subst hq
    rw [if_pos rfl, h.seen]
  · rw [if_neg hq, h.stays.seen hq]

/-! ## A stretch that stands by itself -/

/-- Wherever outside a block, the lines `x` state the rules `es` of `pkg` and nothing else, and end outside
    with nothing waiting. -/
structure Chunk (pkg : Str) (x : List Str) (es : List (Str × Str)) (P : Role → Prop) : Prop where
  seen : ∀ q w, seen q (.outside w) x = if pkg = q then es else []
  place : ∀ w, placeFrom (.outside w) x = .outside none
  clash : ∀ w, ClashFreeFrom (.outside w) x
  roles : ∀ w, ∀ r ∈ rolesFrom (.outside w) x, P r

/-- **A block**: an opening line, thread rules, and `}`. -/
theorem BlockLines.chunk (h : BlockLines pkg texts es) {opener : Str} {l : OuterLine}
    (hrole : ∀ w, roleOf (.outside w) opener = .outer l) (hl : l ≠ .bareOpen [])
    (hnext : ∀ w, nextPlace (.outside w) (.outer l) = .inside pkg) {e₀ : List (Str × Str)}
    (he₀ : ∀ q w, entriesFor q (.outside w, .outer l) = if pkg = q then e₀ else [])
    (hPl : P (.outer l)) (hPt : ∀ n c, P (.thread n c false)) (hPc : P .close) :
    Chunk pkg (opener :: (texts ++ [['}']])) (e₀ ++ es) P := by
  have hclose : roleOf (.inside pkg) ['}'] = .close := @roleOf_closeLine _ []
  have hend : placeFrom (.inside pkg) texts = .inside pkg := h.stays.place
  refine ⟨fun q w => ?_, fun w => ?_, fun w => ?_, fun w r hr => ?_⟩
  · rw [seen_cons, hrole, hnext, seen_append, hend, h.seen_any, seen_cons, hclose, he₀]
    by_cases hq : pkg = q <;> simp [hq, entriesFor, entry]
  · rw [placeFrom_cons, hrole, hnext, placeFrom_append, hend, placeFrom_cons, hclose]
    rfl
  · rw [clashFreeFrom_cons, hrole, hnext]
    refine ⟨fun hc => ?_, clashFreeFrom_append.mpr ⟨h.stays.clashFree, ?_⟩⟩
    · rw [Clash, hrole] at hc
      exact hl (Role.outer.inj hc.2)
    · rw [hend]
      exact ⟨fun hc => (by cases hc.1), trivial⟩
  · rw [rolesFrom_cons, hrole, hnext, rolesFrom_append, hend, rolesFrom_cons, hclose] at hr
    rcases List.mem_cons.mp hr with rfl | hr
    · exact hPl
    · rcases List.mem_append.mp hr with hr | hr
      · obtain ⟨n, c, rfl⟩ := h.roles r hr
        exact hPt n c
      · rw [rolesFrom_nil, List.mem_singleton] at hr
        rw [hr]
        exact hPc

/-- **A package line** that opens no block. -/
theorem packageLine_chunk {cpus : Str}
    (hrole : ∀ w, roleOf (.outside w) line = .outer (.rule pkg cpus false)) (hP : P (.outer (.rule pkg cpus false))) :
    Chunk pkg [line] [([], cpus)] P := by
  refine ⟨fun q w => ?_, fun w => ?_, fun w => ⟨fun hcl => ?_, trivial⟩, fun w r hr => ?_⟩
  · rw [seen_cons, hrole, seen_nil]
    by_cases hq : pkg = q <;> simp [entriesFor, entry, hq]
  · rw [placeFrom_cons, hrole]
    rfl
  · rw [Clash, hrole] at hcl
    cases hcl.2
  · rw [rolesFrom_cons, hrole, rolesFrom_nil, List.mem_singleton] at hr
    rw [hr]
    exact hP

/-! ## What a text gains -/

/-- The role is that of a single-line rule of the package. -/
def Role.singleOf (pkg : Str) : Role → Bool
  | .outer (.single pg _ _ _) => pg = pkg
  | _ => false

theorem singleOf_iff {r : Role} :
    r.singleOf pkg = true ↔ ∃ th cpus opens, r = .outer (.single pkg th cpus opens) := by
  cases r with
  | outer l =>
    cases l with
    | single pg th cpus opens =>
      constructor
      · intro h
        have hpg : pg = pkg := by simpa [Role.singleOf] using h
        exact ⟨th, cpus, opens, by rw [hpg]⟩
      · rintro ⟨_, _, _, h⟩
        simp only [Role.outer.injEq, OuterLine.single.injEq] at h
        simp [Role.singleOf, h.1]
    | rule => simp [Role.singleOf]
    | bareOpen => simp [Role.singleOf]
    | pending => simp [Role.singleOf]
    | junk => simp [Role.singleOf]
  | skip => simp [Role.singleOf]
  | close => simp [Role.singleOf]
  | thread => simp [Role.singleOf]
  | idle => simp [Role.singleOf]


/-- `ls'` states the rules `es` of `pkg` besides those of `ls`, wherever they stand, none of them in the
    one-line form, and the same for every other package. -/
structure Gains (pkg : Str) (es : List (Str × Str)) (ls ls' : List Str) : Prop where
  clashFree : ClashFree ls'
  own : (seen pkg Place.start ls').Perm (es ++ seen pkg Place.start ls)
  others : ∀ q, q ≠ pkg → seen q Place.start ls' = seen q Place.start ls
  roles : ∀ r ∈ rolesFrom Place.start ls', r ∈ rolesFrom Place.start ls ∨ r.singleOf pkg = false

theorem seen_text (q : Str) (pre x post : List Str) :
    seen q Place.start (pre ++ (x ++ post)) = seen q Place.start pre ++
      (seen q (placeAfter pre) x ++ seen q (placeFrom (placeAfter pre) x) post) := by
  rw [seen_append, seen_append]
  rfl

/-- The roles of a text in which one stretch has been replaced by another that leads to the same place. -/
theorem roles_stretch {pre x y post : List Str} {r : Role}
    (hplace : placeFrom (placeAfter pre) y = placeFrom (placeAfter pre) x)
    (hr : r ∈ rolesFrom Place.start (pre ++ (y ++ post))) :
    r ∈ rolesFrom Place.start (pre ++ (x ++ post)) ∨ r ∈ rolesFrom (placeAfter pre) y := by
  rw [rolesFrom_append, rolesFrom_append] at hr ⊢
  rcases List.mem_append.mp hr with hr | hr
  · exact .inl (List.mem_append_left _ hr)
  · rcases List.mem_append.mp hr with hr | hr
    · exact .inr hr
    · refine .inl (List.mem_append_right _ (List.mem_append_right _ ?_))
      show r ∈ rolesFrom (placeFrom (placeAfter pre) x) post
      rw [← hplace]
      exact hr

/-- **The rule for one stretch**: `x` becomes `y`, which states `es` more and leads to the same place. -/
theorem gains_splice (hc : ClashFree (pre ++ (x ++ post)))
    (hplace : placeFrom (placeAfter pre) y = placeFrom (placeAfter pre) x)
    (hy : ClashFreeFrom (placeAfter pre) y)
    (hseen : ∀ q, seen q (placeAfter pre) y = seen q (placeAfter pre) x ++ if pkg = q then es else [])
    (hroles : ∀ r ∈ rolesFrom (placeAfter pre) y, r.singleOf pkg = false) :
    Gains pkg es (pre ++ (x ++ post)) (pre ++ (y ++ post)) := by
  obtain ⟨hpre, hrest⟩ := clashFreeFrom_append.mp hc
  obtain ⟨_, hpost⟩ := clashFreeFrom_append.mp hrest
  refine ⟨?_, ?_, fun q hq => ?_, fun r hr => (roles_stretch hplace hr).imp id (hroles r)⟩
  · refine clashFreeFrom_append.mpr ⟨hpre, clashFreeFrom_append.mpr ⟨hy, ?_⟩⟩
    show ClashFreeFrom (placeFrom (placeAfter pre) y) post
    rw [hplace]
    exact hpost
  · rw [seen_text, seen_text, hseen, if_pos rfl, hplace]
    have hmove : ∀ a b c d : List (Str × Str), (a ++ ((b ++ c) ++ d)).Perm (c ++ (a ++ (b ++ d))) := by
      intro a b c d
      rw [← List.append_assoc, ← List.append_assoc, ← List.append_assoc a b d, ← List.append_assoc c]
      exact List.Perm.append_right d List.perm_append_comm
    exact hmove _ _ _ _
  · rw [seen_text, seen_text, hseen, if_neg (Ne.symm hq), hplace, List.append_nil]

/-- **Into a block**: thread rules at a place inside a block of the package. -/
theorem BlockLines.gains (h : BlockLines pkg texts es) (hc : ClashFree (pre ++ post))
    (hin : placeAfter pre = .inside pkg) : Gains pkg es (pre ++ post) (pre ++ (texts ++ post)) := by
  have hg := @gains_splice pkg pre post [] texts es hc
  rw [hin] at hg
  refine hg h.stays.place h.stays.clashFree (fun q => ?_) fun r hr => ?_
  · rw [h.seen_any, seen_nil, List.nil_append]
  · obtain ⟨n, c, rfl⟩ := h.roles r hr
    rfl

/-- A line set and lines put behind it. -/
theorem spliceAt_set {i : Nat} {line : Str} {chunk : List Str} (h : i < ls.length) :
    spliceAt (ls.set i line) (i + 1) chunk = ls.take i ++ (line :: chunk ++ ls.drop (i + 1)) := by
  have hlen : (ls.take i ++ [line]).length = i + 1 := by
    rw [List.length_append, List.length_take, List.length_singleton]
    omega
  have hset : ls.set i line = (ls.take i ++ [line]) ++ ls.drop (i + 1) := by
    rw [List.set_eq_take_append_cons_drop, if_pos h]
    simp
  rw [spliceAt, hset, List.take_left' hlen, List.drop_left' hlen]
  simp

/-- **Under a header**: a rule that stands alone becomes the opening of a block. -/
theorem BlockLines.gains_header (h : BlockLines pkg texts es) {header opener cpus : Str}
    (hc : ClashFree (pre ++ header :: post))
    (hold : roleOf (placeAfter pre) header = .outer (.rule pkg cpus false))
    (hnew : ∀ w, roleOf (.outside w) opener = .outer (.rule pkg cpus true)) :
    Gains pkg es (pre ++ header :: post) (pre ++ (opener :: (texts ++ [['}']]) ++ post)) := by
  obtain ⟨⟨w, hw⟩, _⟩ := outer_place hold
  have hfirst : ∀ q w, entriesFor q (Place.outside w, Role.outer (.rule pkg cpus true))
      = if pkg = q then [([], cpus)] else [] := fun q w => by
    by_cases hq : pkg = q <;> simp [entriesFor, entry, hq]
  have hchunk : Chunk pkg (opener :: (texts ++ [['}']])) ([([], cpus)] ++ es) fun r => r.singleOf pkg = false :=
    h.chunk hnew (by simp) (fun w => rfl) hfirst rfl (fun _ _ => rfl) rfl
  have hg := @gains_splice pkg pre post [header] (opener :: (texts ++ [['}']])) es hc
  have hx : ∀ q, AppOptR.seen q (.outside w) [header] = if pkg = q then [([], cpus)] else [] := by
    intro q
    rw [hw] at hold
    rw [seen_cons, hold, seen_nil, List.append_nil]
    by_cases hq : pkg = q <;> simp [entriesFor, entry, hq]
  refine hg ?_ ?_ (fun q => ?_) (by rw [hw]; exact hchunk.roles w)
  · rw [hw, hchunk.place]
    rw [placeFrom_cons, ← hw, hold]
    rfl
  · rw [hw]
    exact hchunk.clash w
  · rw [hw, hchunk.seen, hx]
    by_cases hq : pkg = q <;> simp [hq]

/-- **At the end** of a text that ends outside every block. -/
theorem Chunk.gains_end (h : Chunk pkg x es fun r => r.singleOf pkg = false) (hc : ClashFree pre)
    (hout : placeAfter pre = .outside waiting) : Gains pkg es pre (pre ++ x) := by
  have hg : ClashFree (pre ++ x) := by
    refine clashFreeFrom_append.mpr ⟨hc, ?_⟩
    show ClashFreeFrom (placeAfter pre) x
    rw [hout]
    exact h.clash waiting
  have hs : ∀ q,
      AppOptR.seen q Place.start (pre ++ x) = AppOptR.seen q Place.start pre ++ if pkg = q then es else [] := by
    intro q
    rw [seen_append, ← h.seen q waiting, ← hout]
    rfl
  refine ⟨hg, ?_, fun q hq => ?_, fun r hr => ?_⟩
  · rw [hs, if_pos rfl]
    exact List.perm_append_comm
  · rw [hs, if_neg (Ne.symm hq), List.append_nil]
  · rw [rolesFrom_append] at hr
    refine (List.mem_append.mp hr).imp id fun hr => ?_
    replace hr : r ∈ rolesFrom (placeAfter pre) x := hr
    rw [hout] at hr
    exact h.roles waiting r hr

end AppOptR
