import AppOptR.RuleEdit.Rewrites
import AppOptR.RuleEdit.Correctness.Anatomy
import AppOptR.RuleEdit.Correctness.Listed

/-!
# `RuleEdit.Correctness.Removal` — taking thread rules out of a text

`line_remove` takes a thread rule out of the text without disturbing the blocks: a line that also opens a
block becomes the opening line, one that also closes it becomes `}`, any other goes. Here the removals of a
run are one rewriting of the text (`lineRemove_run`), and each is an admissible line of a `Cut`
(`CutLine.gone`): what the package sees loses the rule, and what follows is read as before.
-/

namespace AppOptR

open Text

variable {q pkg line name : Str} {old ls : List Str} {loc : ThreadLoc} {D : List Nat} {P : Role → Prop}
  {E : Nat × Place × Role → List (Str × Str)}

/-! ## The locations of the scan -/

theorem outlineAt_ascending (ls : List Str) : (outlineAt ls).Pairwise fun a b => a.1 < b.1 := by
  induction ls using List.reverseRecOn with
  | nil => exact .nil
  | append_singleton ls line ih =>
    rw [outlineAt_concat, List.pairwise_append]
    refine ⟨ih, List.pairwise_singleton _ _, fun e he e' he' => ?_⟩
    obtain ⟨pre, l, post, rfl, rfl⟩ := mem_outlineAt.mp he
    rw [List.mem_singleton.mp he']
    simp

theorem threadOf_idx {e : Nat × Place × Role} {t : Str × ThreadLoc} (h : t ∈ threadOf pkg e) :
    t.2.idx = e.1 := by
  rcases mem_threadOf.mp h with ⟨_, _, _, ht⟩ | ⟨_, _, _, ht⟩ <;> rw [ht]

/-- A thread entry of the scan is a line of the text. -/
theorem mem_threads (hc : ClashFree ls) {t : Str × ThreadLoc} :
    t ∈ (targetScan ls pkg).threads ↔ ∃ pre line post, ls = pre ++ line :: post ∧
      t ∈ threadOf pkg (lineHere pre line) := by
  rw [targetScan_threads hc, List.mem_flatMap]
  constructor
  · rintro ⟨e, he, ht⟩
    obtain ⟨pre, line, post, hls, rfl⟩ := mem_outlineAt.mp he
    exact ⟨pre, line, post, hls, ht⟩
  · rintro ⟨pre, line, post, hls, ht⟩
    exact ⟨_, mem_outlineAt.mpr ⟨pre, line, post, hls, rfl⟩, ht⟩

theorem mem_locs {t : Target} : loc ∈ t.locs name ↔ (name, loc) ∈ t.threads := by
  simp [Target.locs]

theorem mem_singles {t : Target} : loc ∈ t.singles ↔ ∃ name, (name, loc) ∈ t.threads ∧ loc.single = true := by
  simp [Target.singles]

/-- The single-line rules of the scan. -/
theorem mem_singles_iff (hc : ClashFree ls) :
    loc ∈ (targetScan ls pkg).singles ↔ ∃ pre line post th cpus opens, ls = pre ++ line :: post ∧
      roleOf (placeAfter pre) line = .outer (.single pkg th cpus opens) ∧
      loc = { idx := pre.length, single := true, closed := false, opens } := by
  rw [mem_singles]
  constructor
  · rintro ⟨name, ht, hs⟩
    obtain ⟨pre, line, post, hls, ht⟩ := (mem_threads hc).mp ht
    rcases mem_threadOf.mp ht with ⟨_, _, _, hloc⟩ | ⟨cpus, opens, hrole, hloc⟩
    · dsimp only at hloc
      rw [hloc] at hs
      cases hs
    · exact ⟨pre, line, post, name, cpus, opens, hls, hrole, hloc⟩
  · rintro ⟨pre, line, post, th, cpus, opens, hls, hrole, rfl⟩
    exact ⟨th, (mem_threads hc).mpr ⟨pre, line, post, hls,
      mem_threadOf.mpr (.inr ⟨cpus, opens, hrole, rfl⟩)⟩, rfl⟩

/-! ## Removing -/

/-- What `line_remove` puts in the place of a line. -/
def lineGone (pkg : Str) (loc : ThreadLoc) (line : Str) : List Str :=
  if loc.opens then [withComment (bareOpenLine pkg) line]
  else if loc.closed then [withComment ['}'] line]
  else []

theorem lineRemove_eq (h : loc.idx < ls.length) :
    lineRemove ls pkg loc = replaceAt ls loc.idx (lineGone pkg loc) := by
  unfold lineRemove lineGone
  split
  · exact set_eq_replaceAt h _
  · split
    · exact set_eq_replaceAt h _
    · exact eraseIdx_eq_replaceAt ls loc.idx

/-- **The removals of a run** are one rewriting. -/
theorem lineRemove_run {locs : List ThreadLoc} (hs : locs.Pairwise fun a b => a.idx < b.idx)
    (hlt : ∀ loc ∈ locs, loc.idx < ls.length) :
    locs.reverse.foldl (fun ls loc => lineRemove ls pkg loc) ls
      = rewriteFrom (editsAt ThreadLoc.idx (lineGone pkg) locs) 0 ls :=
  edits_run (fun _ _ h => lineRemove_eq h) hs hlt

/-- A line that replaces another, wherever the new text is, and says nothing to `q`. -/
theorem standsFor_single {p p' : Place} {r : Role} {x : Str} {es : List (Str × Str)}
    (hes : entriesFor q (p', roleOf p' x) = es) (hnext : Place.Alike q (nextPlace p r) (nextPlace p' (roleOf p' x)))
    (hclash : ¬ Clash p' x) (hP : P (roleOf p' x)) : StandsFor q es P p r p' [x] := by
  refine ⟨?_, hnext, ⟨hclash, trivial⟩, ?_⟩
  · rw [seen_cons, seen_nil, List.append_nil, hes]
  · intro r' hr'
    rw [rolesFrom_cons, rolesFrom_nil, List.mem_singleton] at hr'
    rwa [hr']

/-- An inner place is followed by an inner place. -/
theorem Follows.inside_exists {o : Str} {p' : Place} (h : Follows q (.inside o) p') :
    ∃ k, p' = .inside k ∧ KeyAlike q o k := by
  have ha := h.inside
  cases ha with
  | inside hk => exact ⟨_, rfl, hk⟩

/-- **A removed thread rule.** -/
theorem CutLine.gone (ht : (name, loc) ∈ threadOf pkg (lineHere old line))
    (hD : loc.opens = false → loc.closed = false → old.length ∈ D) (hE : E (lineHere old line) = [])
    (hopen : P (.outer (.bareOpen pkg))) (hclose : P .close) :
    CutLine q E P D old line (lineGone pkg loc line) := by
  rcases mem_threadOf.mp ht with ⟨cpus, closed, he, hloc⟩ | ⟨cpus, opens, hrole, hloc⟩
  · -- a line of a block: it goes, or becomes the brace that it carried
    obtain ⟨hplace, hrole⟩ := Prod.mk.inj he
    dsimp only at hplace hrole hloc
    cases closed with
    | false =>
      have hnext : nextPlace (placeAfter old) (roleOf (placeAfter old) line) = placeAfter old := by
        rw [hrole]
        rfl
      rw [hloc] at hD ⊢
      exact .inner (hD rfl rfl) ⟨pkg, hplace⟩ hnext hE
    | true =>
      rw [hloc]
      refine .swap (fun p' hp' => ?_) fun key hkey => ?_
      · rw [hplace] at hp'
        obtain ⟨k, rfl, _⟩ := hp'.inside_exists
        have hr : roleOf (.inside k) (withComment ['}'] line) = .close := roleOf_closeLine
        refine standsFor_single ?_ ?_ (fun hcl => by cases hcl.1) (hr ▸ hclose)
        · rw [hr, hE]
          rfl
        · rw [hr, hrole]
          exact .outside
      · rw [hrole] at hkey
        cases hkey
  · replace hrole : roleOf (placeAfter old) line = .outer (.single pkg name cpus opens) := hrole
    replace hloc : loc = { idx := old.length, single := true, closed := false, opens } := hloc
    -- a single-line rule: it goes, or becomes the header of the block that it opened
    have hout := (outer_place hrole).1
    have hparts := single_parts hrole
    cases opens with
    | false =>
      rw [hloc] at hD ⊢
      refine .flat (hD rfl rfl) hout ?_ hE
      rw [hrole]
      rfl
    | true =>
      rw [hloc]
      refine .swap (fun p' hp' => ?_) fun key hkey => ?_
      · obtain ⟨w, hw⟩ := hout
        rw [hw] at hp'
        obtain ⟨w', rfl⟩ := hp'.outside
        have hr : roleOf (.outside w') (withComment (bareOpenLine pkg) line) = .outer (.bareOpen pkg) :=
          roleOf_bareOpenLine hparts.key hparts.noBrace
        refine standsFor_single ?_ ?_ (fun hcl => ?_) (hr ▸ hopen)
        · rw [hr, hE]
          rfl
        · rw [hr, hrole]
          have hnext : nextPlace (.outside w') (.outer (.bareOpen pkg)) = .inside pkg := by
            simp [nextPlace, hparts.key.ne]
          rw [hnext]
          exact Place.Alike.refl _
        · rw [Clash, hr] at hcl
          simp only [Role.outer.injEq, OuterLine.bareOpen.injEq] at hcl
          exact hparts.key.ne hcl.2
      · rw [hrole] at hkey
        cases hkey

end AppOptR
