import AppOptR.Config.Frame

/-!
# `Config.Rewrite` — rewriting a rules file line by line

An edit that works on several lines at once gives every line `i` its own replacement `f i` (`rewriteFrom`):
the line itself, another line or two, or nothing. The old and the new text are read side by side. Their
places are alike to `q`, or, behind a removed line, the old text is outside with nothing waiting and the
new one outside with whatever waited above the removed line (`Follows`). The next readable line brings them
together again, except a bare `{`: it opens nothing in the old text and the block of the header above in
the new one. `Bridged` is that accident, and `Cut.run` the theorem that it is the only one: `E` says what
every line contributes to the rules of `q` in the new text, and `P` what the lines of the new text do.
-/

namespace AppOptR

open Text

variable {q : Str} {E : Nat × Place × Role → List (Str × Str)} {P : Role → Prop} {D : List Nat}
  {old new ls : List Str} {line : Str} {p p' : Place}

/-! ## Lines with their numbers -/

/-- Line `i` becomes the lines `f i`; the first line has number `k`. -/
def rewriteFrom (f : Nat → Str → List Str) (k : Nat) (ls : List Str) : List Str :=
  (ls.zipIdx k).flatMap fun l => f l.2 l.1

@[simp] theorem rewriteFrom_nil (f : Nat → Str → List Str) (k : Nat) : rewriteFrom f k [] = [] := rfl

theorem rewriteFrom_cons (f : Nat → Str → List Str) (k : Nat) (line : Str) (ls : List Str) :
    rewriteFrom f k (line :: ls) = f k line ++ rewriteFrom f (k + 1) ls := by
  simp [rewriteFrom, List.zipIdx_cons]

theorem rewriteFrom_append (f : Nat → Str → List Str) (k : Nat) (as bs : List Str) :
    rewriteFrom f k (as ++ bs) = rewriteFrom f k as ++ rewriteFrom f (k + as.length) bs := by
  simp [rewriteFrom, List.zipIdx_append]

/-- Lines that become themselves. -/
theorem rewriteFrom_self {f : Nat → Str → List Str} {k : Nat} {ls : List Str}
    (h : ∀ i line, k ≤ i → i < k + ls.length → f i line = [line]) : rewriteFrom f k ls = ls := by
  induction ls generalizing k with
  | nil => rfl
  | cons line ls ih =>
    have hfirst : f k line = [line] := h k line (le_refl k) (by simp)
    have hrest : rewriteFrom f (k + 1) ls = ls := ih fun i line hi hlt => h i line (by omega) (by
      simp only [List.length_cons]
      omega)
    rw [rewriteFrom_cons, hfirst, hrest]
    rfl

/-- Two rewritings that agree on the numbers of some lines. -/
theorem rewriteFrom_congr {f g : Nat → Str → List Str} {k : Nat} {ls : List Str}
    (h : ∀ i line, k ≤ i → i < k + ls.length → f i line = g i line) :
    rewriteFrom f k ls = rewriteFrom g k ls := by
  induction ls generalizing k with
  | nil => rfl
  | cons line ls ih =>
    rw [rewriteFrom_cons, rewriteFrom_cons, h k line (le_refl k) (by simp)]
    refine congrArg _ (ih fun i line hi hlt => h i line (by omega) ?_)
    simp only [List.length_cons]
    omega

/-- Line by line, every line of the new text comes from one line of the old text, if each becomes one line or
    none. -/
theorem rewriteFrom_split {f : Nat → Str → List Str} {k : Nat} {a b : List Str} {l : Str}
    (hf : ∀ i line, (f i line).length ≤ 1) (h : rewriteFrom f k ls = a ++ l :: b) :
    ∃ pre line post, ls = pre ++ line :: post ∧ a = rewriteFrom f k pre ∧ f (k + pre.length) line = [l] := by
  induction ls generalizing k a with
  | nil => cases a <;> cases h
  | cons x xs ih =>
    rw [rewriteFrom_cons] at h
    have hone := hf k x
    cases hx : f k x with
    | nil =>
      rw [hx, List.nil_append] at h
      obtain ⟨pre, line, post, rfl, rfl, hl⟩ := ih h
      refine ⟨x :: pre, line, post, rfl, ?_, ?_⟩
      · rw [rewriteFrom_cons, hx, List.nil_append]
      · rw [List.length_cons, Nat.add_comm pre.length, ← Nat.add_assoc]
        exact hl
    | cons y ys =>
      obtain rfl : ys = [] := by
        rw [hx, List.length_cons] at hone
        exact List.eq_nil_of_length_eq_zero (by omega)
      rw [hx, List.singleton_append] at h
      cases a with
      | nil =>
        obtain ⟨rfl, _⟩ := List.cons.inj h
        exact ⟨[], x, xs, rfl, rfl, hx⟩
      | cons y' a =>
        rw [List.cons_append] at h
        obtain ⟨rfl, hrest⟩ := List.cons.inj h
        obtain ⟨pre, line, post, rfl, rfl, hl⟩ := ih hrest
        refine ⟨x :: pre, line, post, rfl, ?_, ?_⟩
        · rw [rewriteFrom_cons, hx, List.singleton_append]
        · rw [List.length_cons, Nat.add_comm pre.length, ← Nat.add_assoc]
          exact hl

/-! ## Edits at ascending positions -/

section
variable {ι : Type} {idx : ι → Nat} {g : ι → Str → List Str} {es : List ι}

/-- Line `i` becomes the lines `x`. -/
def replaceAt (ls : List Str) (i : Nat) (x : Str → List Str) : List Str :=
  ls.take i ++ (x (ls.getD i []) ++ ls.drop (i + 1))

theorem replaceAt_split {pre post : List Str} (line : Str) (x : Str → List Str) :
    replaceAt (pre ++ line :: post) pre.length x = pre ++ (x line ++ post) := by
  simp [replaceAt]

theorem set_eq_replaceAt {ls : List Str} {i : Nat} (h : i < ls.length) (x : Str → Str) :
    ls.set i (x (ls.getD i [])) = replaceAt ls i fun line => [x line] := by
  rw [replaceAt, List.set_eq_take_append_cons_drop, if_pos h]
  rfl

theorem eraseIdx_eq_replaceAt (ls : List Str) (i : Nat) : ls.eraseIdx i = replaceAt ls i fun _ => [] := by
  rw [replaceAt, List.eraseIdx_eq_take_drop_succ]
  rfl

/-- What the edits `es` make of line `i`: edit `e` is at `idx e` and writes `g e`. -/
def editsAt (idx : ι → Nat) (g : ι → Str → List Str) (es : List ι) (i : Nat) (line : Str) : List Str :=
  ((es.find? fun e => idx e = i).map fun e => g e line).getD [line]

theorem editsAt_of_mem (hs : es.Pairwise fun a b => idx a < idx b) {e : ι} (he : e ∈ es) (line : Str) :
    editsAt idx g es (idx e) line = g e line := by
  induction es with
  | nil => cases he
  | cons a es ih =>
    obtain ⟨hlt, hrest⟩ := List.pairwise_cons.mp hs
    unfold editsAt
    rw [List.find?_cons]
    rcases List.mem_cons.mp he with rfl | he
    · rw [decide_eq_true rfl]
      rfl
    · have hne : idx a ≠ idx e := (hlt e he).ne
      rw [decide_eq_false hne]
      exact ih hrest he

theorem editsAt_of_not_mem {i : Nat} (h : ∀ e ∈ es, idx e ≠ i) (line : Str) :
    editsAt idx g es i line = [line] := by
  have : (es.find? fun e => idx e = i) = none := List.find?_eq_none.mpr fun e he => by simpa using h e he
  rw [editsAt, this]
  rfl

/-- **Edits at ascending positions**, the last one first, are one rewriting: no edit moves a line that an
    earlier one has yet to reach. -/
theorem edits_run {step : List Str → ι → List Str} {ls : List Str}
    (hstep : ∀ ls e, idx e < ls.length → step ls e = replaceAt ls (idx e) (g e))
    (hs : es.Pairwise fun a b => idx a < idx b) (hlt : ∀ e ∈ es, idx e < ls.length) :
    es.reverse.foldl step ls = rewriteFrom (editsAt idx g es) 0 ls := by
  rw [List.foldl_reverse]
  induction es with
  | nil => exact (rewriteFrom_self fun i line _ _ => editsAt_of_not_mem (by simp) line).symm
  | cons e es ih =>
    obtain ⟨hfirst, hrest⟩ := List.pairwise_cons.mp hs
    have hbelow : ∀ i line, i ≤ idx e → editsAt idx g es i line = [line] := fun i line hi =>
      -- the later edits leave the lines up to this one alone
      editsAt_of_not_mem (fun e' he' => ((hi.trans_lt (hfirst e' he')).ne).symm) line
    obtain ⟨pre, line, post, rfl, hlen⟩ : ∃ pre line post, ls = pre ++ line :: post ∧ pre.length = idx e := by
      have := hlt e (by simp)
      exact ⟨ls.take (idx e), ls.get ⟨idx e, this⟩, ls.drop (idx e + 1), by simp, by simp; omega⟩
    -- so the text is rewritten in three pieces: above, the line, below
    have hpre : ∀ f : Nat → Str → List Str, (∀ i line, i < idx e → f i line = [line]) →
        rewriteFrom f 0 (pre ++ line :: post)
          = pre ++ (f (idx e) line ++ rewriteFrom f (idx e + 1) post) := by
      intro f hf
      rw [rewriteFrom_append, rewriteFrom_cons, Nat.zero_add, hlen,
        rewriteFrom_self fun i line _ hi => hf i line (by omega)]
    have hother : ∀ i line, i ≠ idx e → editsAt idx g (e :: es) i line = editsAt idx g es i line := by
      intro i line hi
      unfold editsAt
      rw [List.find?_cons, decide_eq_false hi.symm]
    rw [List.foldr_cons, ih hrest fun e' he' => hlt e' (by simp [he']),
      hpre _ fun i line hi => hbelow i line hi.le, hbelow _ _ (le_refl _), hstep, ← hlen]
    · rw [List.singleton_append, replaceAt_split]
      rw [hlen, hpre (editsAt idx g (e :: es)), editsAt_of_mem hs (by simp)]
      · congr 2
        exact rewriteFrom_congr fun i line hi _ => (hother i line (by omega)).symm
      · intro i line hi
        rw [hother i line hi.ne, hbelow i line hi.le]
    · rw [← hlen]
      simp

end

/-- **A numbered line of the outline** is a cut of the text. -/
theorem mem_outlineAt {e : Nat × Place × Role} :
    e ∈ outlineAt ls ↔ ∃ pre line post, ls = pre ++ line :: post ∧
      e = (pre.length, placeAfter pre, roleOf (placeAfter pre) line) := by
  induction ls using List.reverseRecOn with
  | nil => simp [outlineAt]
  | append_singleton ls last ih =>
    rw [outlineAt_concat, List.mem_append, List.mem_singleton, ih]
    constructor
    · rintro (⟨pre, line, post, rfl, rfl⟩ | rfl)
      · exact ⟨pre, line, post ++ [last], by simp, rfl⟩
      · exact ⟨ls, last, [], rfl, rfl⟩
    · rintro ⟨pre, line, post, hls, rfl⟩
      rcases List.eq_nil_or_concat post with rfl | ⟨post, last', rfl⟩
      · obtain ⟨rfl, hl⟩ := List.append_inj' hls rfl
        rw [List.cons.injEq] at hl
        exact .inr (by rw [hl.1])
      · have hls' : ls ++ [last] = (pre ++ line :: post) ++ [last'] := by rw [hls]; simp
        obtain ⟨rfl, _⟩ := List.append_inj' hls' rfl
        exact .inl ⟨pre, line, post, rfl, rfl⟩

/-! ## The header above -/

def Role.waits : Role → Bool
  | .outer (.pending _) => true
  | _ => false

/-- The last readable line of a text that is not removed, by what it does. -/
def lastKept (D : List Nat) (ls : List Str) : Option Role :=
  (((outlineAt ls).filter fun e => e.1 ∉ D ∧ e.2.2 ≠ .skip).getLast?).map (·.2.2)

theorem lastKept_concat (D : List Nat) (pre : List Str) (line : Str) :
    lastKept D (pre ++ [line])
      = if pre.length ∈ D ∨ roleOf (placeAfter pre) line = .skip then lastKept D pre
        else some (roleOf (placeAfter pre) line) := by
  unfold lastKept
  rw [outlineAt_concat, List.filter_append]
  by_cases h : pre.length ∈ D ∨ roleOf (placeAfter pre) line = .skip
  · have hnone : ([(pre.length, placeAfter pre, roleOf (placeAfter pre) line)].filter
        fun e => e.1 ∉ D ∧ e.2.2 ≠ .skip) = [] := by
      rw [List.filter_eq_nil_iff]
      intro e he
      rw [List.mem_singleton.mp he]
      rcases h with h | h <;> simp [h]
    rw [hnone, List.append_nil, if_pos h]
  · have hone : ([(pre.length, placeAfter pre, roleOf (placeAfter pre) line)].filter
        fun e => e.1 ∉ D ∧ e.2.2 ≠ .skip)
          = [(pre.length, placeAfter pre, roleOf (placeAfter pre) line)] := by
      rw [List.filter_eq_self]
      intro e he
      rw [List.mem_singleton.mp he]
      simpa [not_or] using h
    rw [hone, List.getLast?_concat, if_neg h]
    rfl

/-- Removed and blank lines leave the last kept line as it is. -/
theorem lastKept_append {D : List Nat} {old seg : List Str}
    (h : ∀ pre line post, seg = pre ++ line :: post →
      old.length + pre.length ∈ D ∨ skipped (trim line) = true) :
    lastKept D (old ++ seg) = lastKept D old := by
  induction seg using List.reverseRecOn with
  | nil => rw [List.append_nil]
  | append_singleton seg line ih =>
    have hline := h seg line [] rfl
    have hseg : lastKept D (old ++ seg) = lastKept D old :=
      ih fun pre l post hl => h pre l (post ++ [line]) (by rw [hl]; simp)
    rw [← List.append_assoc, lastKept_concat, if_pos, hseg]
    rcases hline with hD | hs
    · exact .inl (by rwa [List.length_append])
    · exact .inr (roleOf_skipped hs)

/-- The removed lines have a waiting header right above and a bare `{` right below, blank, comment and
    other removed lines aside. -/
def Bridged (ls : List Str) (D : List Nat) : Prop :=
  ∃ e ∈ outlineAt ls, e.1 ∉ D ∧ e.2 = (.outside none, .outer (.bareOpen [])) ∧
    (lastKept D (ls.take e.1)).any Role.waits = true

instance (ls : List Str) (D : List Nat) : Decidable (Bridged ls D) :=
  inferInstanceAs (Decidable (∃ e ∈ outlineAt ls, _))

/-- Without a removed line no brace is bridged: the header above is the one that waits. -/
theorem placeAfter_of_lastKept {key : Str} (h : lastKept [] ls = some (.outer (.pending key))) :
    placeAfter ls = .outside (some key) := by
  induction ls using List.reverseRecOn with
  | nil => cases h
  | append_singleton ls line ih =>
    rw [lastKept_concat] at h
    rw [placeAfter_concat]
    split at h
    · next hs =>
      have hskip : roleOf (placeAfter ls) line = .skip := by simpa using hs
      rw [hskip]
      exact ih h
    · rw [Option.some.injEq] at h
      rw [h]
      rfl

theorem not_bridged_nil : ¬ Bridged ls [] := by
  rintro ⟨e, he, _, heq, hwait⟩
  obtain ⟨pre, line, post, rfl, rfl⟩ := mem_outlineAt.mp he
  rw [List.take_left'] at hwait
  · cases hl : lastKept [] pre with
    | none => rw [hl] at hwait; cases hwait
    | some r =>
      rw [hl, Option.any_some] at hwait
      cases r with
      | outer l =>
        cases l with
        | pending key =>
          have hplace := placeAfter_of_lastKept hl
          simp only [Prod.mk.injEq] at heq
          rw [hplace] at heq
          cases heq.1
        | single => cases hwait
        | rule => cases hwait
        | bareOpen => cases hwait
        | junk => cases hwait
      | skip => cases hwait
      | close => cases hwait
      | thread => cases hwait
      | idle => cases hwait
  · rfl

/-! ## Reading the old and the new text side by side -/

/-- The place in the new text: alike, or behind a removed line. -/
def Follows (q : Str) (p p' : Place) : Prop :=
  Place.Alike q p p' ∨ p = .outside none ∧ ∃ w, p' = .outside w

theorem Follows.role (h : Follows q p p') (line : Str) : roleOf p line = roleOf p' line := by
  rcases h with h | ⟨rfl, w, rfl⟩
  · exact h.role line
  · rfl

/-- The new place is outside where the old one is. -/
theorem Follows.outside {w : Option Str} (h : Follows q (.outside w) p') : ∃ w', p' = .outside w' := by
  rcases h with h | ⟨_, h⟩
  · cases h with
    | outside => exact ⟨_, rfl⟩
    | waiting _ => exact ⟨_, rfl⟩
  · exact h

theorem Follows.inside {o : Str} (h : Follows q (.inside o) p') :
    Place.Alike q (.inside o) p' := by
  rcases h with h | ⟨h, _⟩
  · exact h
  · cases h

/-- The lines `x` stand in for a line of the role `r`, wherever the new text is, and say `es` to `q`. -/
structure StandsFor (q : Str) (es : List (Str × Str)) (P : Role → Prop) (p : Place) (r : Role) (p' : Place)
    (x : List Str) : Prop where
  seen : seen q p' x = es
  place : Place.Alike q (nextPlace p r) (placeFrom p' x)
  clash : ClashFreeFrom p' x
  roles : ∀ r' ∈ rolesFrom p' x, P r'

/-- A line behind some others: its number, its place, and what it does there. -/
abbrev lineHere (old : List Str) (line : Str) : Nat × Place × Role :=
  (old.length, placeAfter old, roleOf (placeAfter old) line)

/-- What may become of a line, given the lines before it. -/
inductive CutLine (q : Str) (E : Nat × Place × Role → List (Str × Str)) (P : Role → Prop) (D : List Nat)
    (old : List Str) (line : Str) : List Str → Prop
  | keep (hD : old.length ∉ D) (hclash : ¬ Clash (placeAfter old) line)
      (hP : P (roleOf (placeAfter old) line))
      (hbridge : placeAfter old = .outside none → roleOf (placeAfter old) line = .outer (.bareOpen []) →
        (lastKept D old).any Role.waits = false)
      (hE : E (lineHere old line) = entriesFor q (lineHere old line).2) :
      CutLine q E P D old line [line]
  | flat (hD : old.length ∈ D) (hout : ∃ w, placeAfter old = .outside w)
      (hnext : nextPlace (placeAfter old) (roleOf (placeAfter old) line) = .outside none)
      (hE : E (lineHere old line) = []) :
      CutLine q E P D old line []
  | inner (hD : old.length ∈ D) (hin : ∃ o, placeAfter old = .inside o)
      (hnext : nextPlace (placeAfter old) (roleOf (placeAfter old) line) = placeAfter old)
      (hE : E (lineHere old line) = []) :
      CutLine q E P D old line []
  | swap {x : List Str} (hx : ∀ p', Follows q (placeAfter old) p' →
        StandsFor q (E (lineHere old line)) P (placeAfter old) (roleOf (placeAfter old) line) p' x)
      (hwait : ∀ key, nextPlace (placeAfter old) (roleOf (placeAfter old) line) = .outside (some key) →
        old.length ∉ D ∧ (roleOf (placeAfter old) line).waits = true) :
      CutLine q E P D old line x

/-- What a line says is asked of this line only. -/
theorem CutLine.congr {E' : Nat × Place × Role → List (Str × Str)} {x : List Str}
    (h : CutLine q E P D old line x) (hE : E' (lineHere old line) = E (lineHere old line)) :
    CutLine q E' P D old line x := by
  cases h with
  | keep hD hclash hP hbridge h => exact .keep hD hclash hP hbridge (hE.trans h)
  | flat hD hout hnext h => exact .flat hD hout hnext (hE.trans h)
  | inner hD hin hnext h => exact .inner hD hin hnext (hE.trans h)
  | swap hx hwait => exact .swap (fun p' hp' => hE ▸ hx p' hp') hwait

/-- The old text and what has become of it, so far. -/
structure Cut (q : Str) (E : Nat × Place × Role → List (Str × Str)) (P : Role → Prop) (D : List Nat)
    (old new : List Str) : Prop where
  seen : seen q Place.start new = (outlineAt old).flatMap E
  clashFree : ClashFree new
  place : Follows q (placeAfter old) (placeAfter new)
  above : ∀ key, placeAfter new = .outside (some key) → (lastKept D old).any Role.waits = true
  roles : ∀ r ∈ rolesFrom Place.start new, P r

theorem Cut.start : Cut q E P D [] [] :=
  ⟨rfl, trivial, .inl .outside, fun _ h => (by cases h), fun _ hr => (by cases hr)⟩

theorem seen_concat (pre : List Str) (line : Str) :
    seen q Place.start (pre ++ [line])
      = seen q Place.start pre ++ entriesFor q (placeAfter pre, roleOf (placeAfter pre) line) := by
  rw [seen_append, seen_cons, seen_nil, List.append_nil]
  rfl

/-- What `q` sees is what the numbered lines say. -/
theorem seen_eq_outlineAt (ls : List Str) :
    seen q Place.start ls = (outlineAt ls).flatMap fun e => entriesFor q e.2 := by
  induction ls using List.reverseRecOn with
  | nil => rfl
  | append_singleton ls line ih =>
    rw [seen_concat, ih, outlineAt_concat, List.flatMap_append, List.flatMap_singleton]

theorem outlineAt_flatMap_concat (pre : List Str) (line : Str) :
    (outlineAt (pre ++ [line])).flatMap E = (outlineAt pre).flatMap E ++ E (lineHere pre line) := by
  rw [outlineAt_concat, List.flatMap_append, List.flatMap_singleton]

/-- Where every line says to `q` what it said, the two texts are the same to `q`. -/
theorem Cut.frame (h : Cut q E P D old new) (hE : ∀ e ∈ outlineAt old, E e = entriesFor q e.2) :
    Frame q old new := by
  refine ⟨?_, h.clashFree⟩
  rw [seen_eq_outlineAt, h.seen]
  exact (List.flatMap_congr hE).symm

/-- A waiting header comes from the line itself, or was there before. -/
theorem nextPlace_waiting {r : Role} {key : Str} (h : nextPlace p r = .outside (some key)) :
    r.waits = true ∨ p = .outside (some key) ∧ (r = .skip ∨ r = .idle) ∨
      p = .outside (some key) ∧ ∃ n c, r = .thread n c false := by
  cases r with
  | skip => exact .inr (.inl ⟨h, .inl rfl⟩)
  | idle => exact .inr (.inl ⟨h, .inr rfl⟩)
  | close => cases h
  | thread n c closed =>
    cases closed with
    | true => cases h
    | false => exact .inr (.inr ⟨h, n, c, rfl⟩)
  | outer l =>
    cases l with
    | pending k => exact .inl rfl
    | single pg th cpus opens => cases opens <;> cases h
    | rule pg cpus opens => cases opens <;> cases h
    | junk => cases h
    | bareOpen pg =>
      simp only [nextPlace] at h
      split at h
      · cases h
      · cases p with
        | inside o => cases h
        | outside w => cases w <;> cases h

/-- Outside, a line is skipped or an outer line. -/
theorem roleOf_outside_cases (w : Option Str) (line : Str) :
    roleOf (.outside w) line = .skip ∨ ∃ l, roleOf (.outside w) line = .outer l := by
  by_cases hs : skipped (trim line) = true
  · exact .inl (roleOf_skipped hs)
  · exact .inr ⟨_, roleOf_outside (by simpa using hs)⟩

/-- A line after which a header waits is that header's, or a blank one below it. -/
theorem nextPlace_line_waiting {key : Str} (h : nextPlace p (roleOf p line) = .outside (some key)) :
    (roleOf p line).waits = true ∨ roleOf p line = .skip ∧ p = .outside (some key) := by
  rcases nextPlace_waiting h with hw | ⟨hp, hr⟩ | ⟨hp, hr⟩
  · exact .inl hw
  · rcases hr with hr | hr
    · exact .inr ⟨hr, hp⟩
    · rcases roleOf_outside_cases (some key) line with hs | ⟨l, hl⟩
      · rw [hp, hs] at hr
        cases hr
      · rw [hp, hl] at hr
        cases hr
  · obtain ⟨n, c, hr⟩ := hr
    rcases roleOf_outside_cases (some key) line with hs | ⟨l, hl⟩
    · rw [hp, hs] at hr
      cases hr
    · rw [hp, hl] at hr
      cases hr

/-- **One kept line.** -/
theorem Cut.keep (h : Cut q E P D old new) (hD : old.length ∉ D) (hclash : ¬ Clash (placeAfter old) line)
    (hP : P (roleOf (placeAfter old) line))
    (hbridge : placeAfter old = .outside none → roleOf (placeAfter old) line = .outer (.bareOpen []) →
      (lastKept D old).any Role.waits = false)
    (hE : E (lineHere old line) = entriesFor q (lineHere old line).2) :
    Cut q E P D (old ++ [line]) (new ++ [line]) := by
  have hrole : roleOf (placeAfter old) line = roleOf (placeAfter new) line := h.place.role line
  have hentries : entriesFor q (placeAfter old, roleOf (placeAfter old) line)
      = entriesFor q (placeAfter new, roleOf (placeAfter old) line) := by
    rcases h.place with ha | ⟨ho, w, hn⟩
    · exact ha.entries _
    · rw [ho, hn]
      exact entriesFor_outside_any _ _ _
  -- behind a removed line the bare brace is the one line that could tell the two texts apart
  have hbrace : ∀ w, placeAfter old = .outside none → placeAfter new = .outside w →
      roleOf (placeAfter old) line = .outer (.bareOpen []) → w = none := by
    intro w ho hn hr
    cases w with
    | none => rfl
    | some key => exact absurd (h.above key hn) (by rw [hbridge ho hr]; simp)
  -- a bare brace under an empty key would need a header that waits in the new text
  have hclash' : ¬ Clash (placeAfter new) line := by
    rcases h.place with ha | ⟨ho, w, hn⟩
    · rwa [← ha.clash line]
    · rintro ⟨hp, hr⟩
      rw [← hrole] at hr
      rw [hn, hbrace w ho hn hr] at hp
      cases hp
  -- outside, every line but a bare brace and a skipped one forgets what waited
  have hnext : Follows q (nextPlace (placeAfter old) (roleOf (placeAfter old) line))
      (nextPlace (placeAfter new) (roleOf (placeAfter old) line)) := by
    rcases h.place with ha | ⟨ho, w, hn⟩
    · exact .inl (ha.next _)
    · rcases roleOf_outside_cases none line with hs | ⟨l, hl⟩
      · rw [ho, hs, hn]
        exact .inr ⟨rfl, w, rfl⟩
      · by_cases hb : l = .bareOpen []
        · have hw : w = none := hbrace w ho hn (by rw [ho, hl, hb])
          rw [ho, hn, hw]
          exact .inl (Place.Alike.refl _)
        · rw [ho, hl, hn, nextPlace_outside_any hb none w]
          exact .inl (Place.Alike.refl _)
  refine ⟨?_, ?_, ?_, ?_, ?_⟩
  · rw [seen_concat, outlineAt_flatMap_concat, h.seen, ← hrole, hE, ← hentries]
  · exact clashFree_concat.mpr ⟨h.clashFree, hclash'⟩
  · rw [placeAfter_concat, placeAfter_concat, ← hrole]
    exact hnext
  · intro key hkey
    rw [placeAfter_concat] at hkey
    rw [lastKept_concat]
    -- a header waits below: either this line is the header, or it was skipped
    rcases nextPlace_line_waiting hkey with hw | ⟨hs, hp⟩
    · rw [← hrole] at hw
      have hne : roleOf (placeAfter old) line ≠ .skip := fun hs => by rw [hs] at hw; cases hw
      rw [if_neg (by simp [hD, hne])]
      exact hw
    · rw [if_pos (.inr (hrole.trans hs))]
      exact h.above key hp
  · intro r hr
    rw [rolesFrom_append] at hr
    rcases List.mem_append.mp hr with hr | hr
    · exact h.roles r hr
    · rw [rolesFrom_cons, rolesFrom_nil, List.mem_singleton] at hr
      rw [hr]
      show P (roleOf (placeAfter new) line)
      rwa [← hrole]

/-- Lines that contribute nothing. -/
theorem outlineAt_flatMap_append {old seg : List Str}
    (h : ∀ pre line post, seg = pre ++ line :: post → E (lineHere (old ++ pre) line) = []) :
    (outlineAt (old ++ seg)).flatMap E = (outlineAt old).flatMap E := by
  induction seg using List.reverseRecOn with
  | nil => rw [List.append_nil]
  | append_singleton seg line ih =>
    have hline := h seg line [] rfl
    rw [← List.append_assoc, outlineAt_flatMap_concat, hline, List.append_nil]
    exact ih fun pre l post hl => h pre l (post ++ [line]) (by rw [hl]; simp)

/-- Blank lines and comments do nothing. -/
theorem blank_lines (p : Place) {mid : List Str} (hmid : ∀ l ∈ mid, skipped (trim l) = true) :
    placeFrom p mid = p ∧ AppOptR.seen q p mid = [] ∧ ClashFreeFrom p mid ∧ ∀ r ∈ rolesFrom p mid, r = .skip := by
  induction mid with
  | nil => exact ⟨rfl, rfl, trivial, fun r hr => by cases hr⟩
  | cons l mid ih =>
    have hs : roleOf p l = .skip := roleOf_skipped (hmid l (by simp))
    obtain ⟨h1, h2, h3, h4⟩ := ih fun l' hl' => hmid l' (by simp [hl'])
    refine ⟨?_, ?_, ?_, ?_⟩
    · show placeFrom (nextPlace p (roleOf p l)) mid = p
      rw [hs]
      exact h1
    · rw [seen_cons, hs]
      exact h2
    · rw [clashFreeFrom_cons, hs]
      exact ⟨fun hc => (by rw [hc.2] at hs; cases hs), h3⟩
    · intro r hr
      rw [rolesFrom_cons, hs] at hr
      rcases List.mem_cons.mp hr with rfl | hr
      · rfl
      · exact h4 r hr

/-- **Some removed lines**, with the blank ones among them, between two places outside. -/
theorem Cut.drop (h : Cut q E P D old new) {seg mid : List Str}
    (hlines : ∀ pre line post, seg = pre ++ line :: post →
      (old.length + pre.length ∈ D ∨ skipped (trim line) = true) ∧ E (lineHere (old ++ pre) line) = [])
    (hmid : ∀ l ∈ mid, skipped (trim l) = true) (hskip : mid = [] ∨ P .skip)
    (hout : ∃ w, placeAfter old = .outside w)
    (hend : placeFrom (placeAfter old) seg = .outside none) :
    Cut q E P D (old ++ seg) (new ++ mid) := by
  -- nothing stands for the removed lines; the old text ends with no header waiting
  obtain ⟨w, hw⟩ := hout
  obtain ⟨w', hw'⟩ := (hw ▸ h.place : Follows q (.outside w) (placeAfter new)).outside
  obtain ⟨hplace, hnone, hclash, hroles⟩ := blank_lines (q := q) (placeAfter new) hmid
  have hnew : placeAfter (new ++ mid) = placeAfter new := Mealy.final_append.trans hplace
  have hold : placeAfter (old ++ seg) = .outside none := Mealy.final_append.trans hend
  refine ⟨?_, ?_, ?_, ?_, ?_⟩
  · rw [seen_append, h.seen, outlineAt_flatMap_append fun pre line post hl => (hlines pre line post hl).2]
    show _ ++ AppOptR.seen q (placeAfter new) mid = _
    rw [hnone, List.append_nil]
  · exact clashFreeFrom_append.mpr ⟨h.clashFree, hclash⟩
  · rw [hold, hnew]
    exact .inr ⟨rfl, w', hw'⟩
  · intro key hkey
    rw [lastKept_append fun pre line post hl => (hlines pre line post hl).1]
    rw [hnew] at hkey
    exact h.above key hkey
  · intro r hr
    rw [rolesFrom_append] at hr
    rcases List.mem_append.mp hr with hr | hr
    · exact h.roles r hr
    · rw [hroles r hr]
      rcases hskip with rfl | hP
      · cases hr
      · exact hP

/-- **One line.** -/
theorem Cut.step {x : List Str} (h : Cut q E P D old new) (hl : CutLine q E P D old line x) :
    Cut q E P D (old ++ [line]) (new ++ x) := by
  cases hl with
  | keep hD hclash hP hbridge hE => exact h.keep hD hclash hP hbridge hE
  | flat hD hout hnext hE =>
    -- a stretch of one line
    refine h.drop ?_ (by simp) (.inl rfl) hout hnext
    intro pre l post hsplit
    cases pre with
    | nil =>
      rw [List.nil_append, List.cons.injEq] at hsplit
      rw [List.append_nil, ← hsplit.1]
      exact ⟨.inl hD, hE⟩
    | cons a pre => simp at hsplit
  | inner hD hin hnext hE =>
    obtain ⟨o, ho⟩ := hin
    -- inside a block the two texts are at one owner, and the line leaves the place alone
    have halike : Place.Alike q (placeAfter old) (placeAfter new) := by
      have hp := h.place
      rw [ho] at hp ⊢
      exact hp.inside
    rw [List.append_nil]
    refine ⟨?_, h.clashFree, ?_, ?_, h.roles⟩
    · rw [outlineAt_flatMap_concat, hE, List.append_nil]
      exact h.seen
    · rw [placeAfter_concat, hnext]
      exact .inl halike
    · intro key hkey
      rw [hkey, ho] at halike
      cases halike
  | swap hx hwait =>
    -- the lines put in its place are judged where the new text has them
    have hs := hx _ h.place
    have hnew : placeAfter (new ++ x) = placeFrom (placeAfter new) x := Mealy.final_append
    refine ⟨?_, clashFreeFrom_append.mpr ⟨h.clashFree, hs.clash⟩, ?_, ?_, ?_⟩
    · rw [outlineAt_flatMap_concat, seen_append, h.seen]
      show _ ++ AppOptR.seen q (placeAfter new) x = _
      rw [hs.seen]
    · rw [placeAfter_concat, hnew]
      exact .inl hs.place
    · intro key hkey
      have halike := hs.place
      rw [← hnew, hkey] at halike
      obtain ⟨k, hk⟩ : ∃ k, nextPlace (placeAfter old) (roleOf (placeAfter old) line) = .outside (some k) := by
        generalize nextPlace (placeAfter old) (roleOf (placeAfter old) line) = p at halike
        cases halike
        exact ⟨_, rfl⟩
      obtain ⟨hD, hw⟩ := hwait k hk
      have hne : roleOf (placeAfter old) line ≠ .skip := fun hs => by rw [hs] at hw; cases hw
      rw [lastKept_concat, if_neg (by simp [hD, hne])]
      exact hw
    · intro r hr
      rw [rolesFrom_append] at hr
      rcases List.mem_append.mp hr with hr | hr
      · exact h.roles r hr
      · exact hs.roles r hr

/-- **The run lemma.** -/
theorem Cut.run {f : Nat → Str → List Str} (h : Cut q E P D old new) {seg : List Str}
    (hseg : ∀ pre line post, seg = pre ++ line :: post →
      CutLine q E P D (old ++ pre) line (f (old.length + pre.length) line)) :
    Cut q E P D (old ++ seg) (new ++ rewriteFrom f old.length seg) := by
  induction seg generalizing old new with
  | nil =>
    rw [rewriteFrom_nil, List.append_nil, List.append_nil]
    exact h
  | cons line seg ih =>
    have hfirst := h.step (hseg [] line seg rfl |> fun hl => by simpa using hl)
    have hrest := ih hfirst fun pre l post hsplit => by
      have hl := hseg (line :: pre) l post (by rw [hsplit]; rfl)
      rw [List.append_cons, List.length_cons] at hl
      rw [List.length_append, List.length_singleton, Nat.add_right_comm, Nat.add_assoc]
      exact hl
    rw [List.length_append, List.length_singleton, List.append_assoc, List.append_assoc,
      ← rewriteFrom_cons] at hrest
    exact hrest

/-- A kept line, where no brace of the whole text is bridged. -/
theorem CutLine.of_not_bridged {post : List Str} (hb : ¬ Bridged ls D) (hls : ls = old ++ line :: post)
    (hc : ClashFree ls) (hD : old.length ∉ D) (hP : P (roleOf (placeAfter old) line))
    (hE : E (lineHere old line) = entriesFor q (lineHere old line).2) :
    CutLine q E P D old line [line] := by
  refine .keep hD ?_ hP (fun hout hrole => ?_) hE
  · rw [hls] at hc
    exact Mealy.along_at hc
  · rw [Bool.eq_false_iff]
    intro hw
    refine hb ⟨(old.length, placeAfter old, roleOf (placeAfter old) line),
      mem_outlineAt.mpr ⟨old, line, post, hls, rfl⟩, hD, by rw [hrole, hout], ?_⟩
    rw [hls, List.take_left' rfl]
    exact hw

end AppOptR
