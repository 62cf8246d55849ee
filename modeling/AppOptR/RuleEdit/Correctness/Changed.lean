import AppOptR.RuleEdit.Correctness.Normalize
import AppOptR.RuleEdit.Correctness.Unbroken
import AppOptR.RuleEdit.Correctness.Store

/-!
# `RuleEdit.Correctness.Changed` — the effect of an edit on the rules

`rule_upsert` and `rule_delete` are about the rules of one thread of one package (or the package-level rules,
those of the empty thread name). `Changed` says what such an edit may do: the rules of that thread become the
given ones, the other rules of the package stay as a multiset, and another package reads what it read. It
comes from a `Cut` in which the lines of the thread have been taken out or rewritten (`Changed.of_cut`), or
from lines put in (`Gains.changed`), and `Changed.rules` carries it to the rules of the written file.
-/

namespace AppOptR

open Text

variable {q pkg thread cpus line : Str} {old ls ls' : List Str} {es : List (Str × Str)} {D idxs : List Nat}
  {k : Nat} {topo : CpuTopology}

/-! ## Names -/

/-- A name without the characters of the line grammar. -/
structure PlainName (s : Str) : Prop where
  noEq : '=' ∉ s
  noOpen : '{' ∉ s
  noClose : '}' ∉ s

theorem PlainName.blockName {max : Nat} (hp : PlainName thread) (hn : Name max thread) : BlockName thread := by
  refine ⟨hn.key.shown, ?_, ?_⟩
  · rw [Bool.eq_false_iff]
    intro hcl
    obtain ⟨c, r, rfl, _⟩ := (closeLike_key hn.commentFree).mp hcl
    exact hp.noClose (by simp)
  · rw [kvBeforeBrace_eq_none]
    intro a b hab
    exact absurd (by rw [hab]; simp) hp.noClose

/-! ## After the normalisation -/

/-- The text states the same rules, for every package. -/
structure Kept (pkg : Str) (ls ls' : List Str) : Prop where
  clashFree : ClashFree ls'
  own : (seen pkg Place.start ls').Perm (seen pkg Place.start ls)
  others : ∀ q, q ≠ pkg → seen q Place.start ls' = seen q Place.start ls

/-- Normalising keeps the rules, if it runs into none of its traps. -/
theorem normalizeSingles_kept (hc : ClashFree ls)
    (h : normalizeRuns ls pkg = true → NormalizeSafe ls pkg) : Kept pkg ls (normalizeSingles ls pkg) := by
  by_cases hrun : normalizeRuns ls pkg = true
  · have hr := normalizeSingles_reshaped (h hrun) hrun
    exact ⟨hr.clashFree, hr.own, hr.others⟩
  · rw [normalizeSingles_idle (Bool.eq_false_iff.mpr hrun)]
    exact ⟨hc, List.Perm.refl _, fun _ _ => rfl⟩

/-! ## The effect -/

/-- The rules of `thread` are now `es`, and nothing else has changed. -/
structure Changed (pkg thread : Str) (es : List (Str × Str)) (ls ls' : List Str) : Prop where
  clashFree : ClashFree ls'
  here : ((seen pkg Place.start ls').filter fun e => e.1 = thread).Perm es
  rest : ((seen pkg Place.start ls').filter fun e => e.1 ≠ thread).Perm
    ((seen pkg Place.start ls).filter fun e => e.1 ≠ thread)
  others : ∀ q, q ≠ pkg → seen q Place.start ls' = seen q Place.start ls

theorem Kept.changed {mid : List Str} (h : Kept pkg ls mid) (hc : Changed pkg thread es mid ls') :
    Changed pkg thread es ls ls' :=
  ⟨hc.clashFree, hc.here, hc.rest.trans (h.own.filter _), fun q hq => (hc.others q hq).trans (h.others q hq)⟩

/-- A rule put in. -/
theorem Gains.changed (h : Gains pkg [(thread, cpus)] ls ls') :
    Changed pkg thread ((thread, cpus) :: (seen pkg Place.start ls).filter fun e => e.1 = thread) ls ls' := by
  refine ⟨h.clashFree, ?_, ?_, h.others⟩
  · refine (h.own.filter _).trans ?_
    rw [List.singleton_append, List.filter_cons_of_pos (by simp)]
  · refine (h.own.filter _).trans ?_
    rw [List.singleton_append, List.filter_cons_of_neg (by simp)]

/-! ## Lines taken out or rewritten -/

/-- What the lines say when those of `idxs` no longer do, and line `k` says `es`. -/
def restated (pkg q : Str) (idxs : List Nat) (k : Nat) (es : List (Str × Str)) (e : Nat × Place × Role) :
    List (Str × Str) :=
  if e.1 ∈ idxs then (if e.1 = k ∧ pkg = q then es else []) else entriesFor q e.2

/-- The rules of the thread on other lines than those of `idxs`. -/
def leftover (ls : List Str) (pkg thread : Str) (idxs : List Nat) : List (Str × Str) :=
  (outlineAt ls).flatMap fun e => if e.1 ∈ idxs then [] else (entriesFor pkg e.2).filter fun x => x.1 = thread

theorem mem_outlineAt_idx (h : k < ls.length) : ∃ e ∈ outlineAt ls, e.1 = k := by
  refine ⟨_, mem_outlineAt.mpr ⟨ls.take k, ls.get ⟨k, h⟩, ls.drop (k + 1), by simp, rfl⟩, ?_⟩
  simp
  omega

theorem Changed.of_cut (hcut : ∀ q, Cut q (restated pkg q idxs k es) (fun _ => True) D ls ls')
    (hes : ∀ x ∈ es, x.1 = thread)
    (hmem : ∀ e ∈ outlineAt ls, e.1 ∈ idxs → ∃ c, entry e.2.1 e.2.2 = [(pkg, thread, c)])
    (hk : es ≠ [] → k ∈ idxs ∧ k < ls.length) :
    Changed pkg thread (es ++ leftover ls pkg thread idxs) ls ls' := by
  refine ⟨(hcut pkg).clashFree, ?_, ?_, fun q hq => ?_⟩
  · rw [(hcut pkg).seen, List.filter_flatMap]
    -- every line states the new entries (the line `k`), its own, or nothing
    have hsplit : (outlineAt ls).flatMap (fun e => (restated pkg pkg idxs k es e).filter fun x => x.1 = thread)
        = (outlineAt ls).flatMap fun e => (if e.1 = k then if k ∈ idxs then es else [] else []) ++
            if e.1 ∈ idxs then [] else (entriesFor pkg e.2).filter fun x => x.1 = thread := by
      refine List.flatMap_congr fun e _ => ?_
      have hall : es.filter (fun x => x.1 = thread) = es := List.filter_eq_self.mpr fun x hx => by
        simpa using hes x hx
      unfold restated
      by_cases hi : e.1 ∈ idxs
      · by_cases hek : e.1 = k
        · simp [hek ▸ hi, hek, hall]
        · simp [hi, hek]
      · by_cases hek : e.1 = k
        · simp [hek ▸ hi, hek]
        · simp [hi, hek]
    rw [hsplit]
    refine (List.flatMap_append_perm _ _ _).symm.trans (List.Perm.append_right _ ?_)
    -- the new entries come once, since the positions ascend
    by_cases hnil : es = []
    · simp [hnil]
    · obtain ⟨hin, hlt⟩ := hk hnil
      obtain ⟨e, he, hek⟩ := mem_outlineAt_idx hlt
      rw [if_pos hin, flatMap_at (outlineAt_ascending ls) he hek]
  · rw [(hcut pkg).seen, seen_eq_outlineAt, List.filter_flatMap, List.filter_flatMap]
    refine List.Perm.of_eq (List.flatMap_congr fun e he => ?_)
    unfold restated
    by_cases hi : e.1 ∈ idxs
    · obtain ⟨c, hc⟩ := hmem e he hi
      have hgone : (entriesFor pkg e.2).filter (fun x => x.1 ≠ thread) = [] := by simp [entriesFor, hc]
      rw [if_pos hi, hgone, List.filter_eq_nil_iff]
      intro x hx
      split at hx
      · simpa using hes x hx
      · cases hx
    · rw [if_neg hi]
  · rw [(hcut q).seen, seen_eq_outlineAt]
    refine List.flatMap_congr fun e he => ?_
    unfold restated
    by_cases hi : e.1 ∈ idxs
    · obtain ⟨c, hc⟩ := hmem e he hi
      rw [if_pos hi, if_neg (fun h => hq h.2.symm)]
      simp [entriesFor, hc, Ne.symm hq]
    · rw [if_neg hi]

/-! ## A rewritten spec -/

/-- A line with another spec. -/
def Role.withSpec (cpus : Str) : Role → Role
  | .thread name _ closed => .thread name cpus closed
  | .outer l => .outer (l.withSpec cpus)
  | r => r

/-- `spec_swap` finds the value of the line: the old one has no brace that could be taken for the end of it,
    and no earlier brace ends the rule. -/
def SwapSafe (line : Str) : Role → Prop
  | .thread _ v _ => '{' ∉ v ∧ ¬ ClosesEarly (core line)
  | .outer l => BraceFree (l.spec.getD [])
  | _ => True

instance (line : Str) (r : Role) : Decidable (SwapSafe line r) := by
  unfold SwapSafe
  split <;> infer_instance

theorem nextPlace_withSpec (p : Place) (r : Role) : nextPlace p (r.withSpec cpus) = nextPlace p r := by
  cases r with
  | outer l => cases l <;> rfl
  | _ => rfl

theorem entry_withSpec (p : Place) (r : Role) :
    entry p (r.withSpec cpus) = (entry p r).map fun e => (e.1, e.2.1, cpus) := by
  cases r with
  | outer l => cases l <;> rfl
  | thread name c closed => cases p <;> rfl
  | _ => rfl

/-- **The rewritten line** reads as before, with the new spec. -/
theorem roleOf_specSwap {p : Place} (hsafe : SwapSafe line (roleOf p line))
    (hne : entry p (roleOf p line) ≠ []) (hc : Spec topo cpus) :
    roleOf p (specSwap line cpus) = (roleOf p line).withSpec cpus := by
  by_cases hs : skipped (trim line) = true
  · rw [roleOf_skipped hs] at hne
    exact absurd rfl hne
  have hs' : skipped (trim line) = false := by simpa using hs
  cases p with
  | outside w =>
    rw [roleOf_outside hs'] at hsafe hne ⊢
    cases hspec : (parseOuter (trim line)).spec with
    | none =>
      cases hl : parseOuter (trim line) with
      | rule => rw [hl] at hspec; cases hspec
      | single => rw [hl] at hspec; cases hspec
      | bareOpen => rw [hl] at hne; exact absurd rfl hne
      | pending => rw [hl] at hne; exact absurd rfl hne
      | junk => rw [hl] at hne; exact absurd rfl hne
    | some c₀ =>
      have hfree : BraceFree c₀ := by simpa [SwapSafe, hspec] using hsafe
      obtain ⟨hshown, hread⟩ := parseOuter_specSwap hs' hspec hfree hc
      rw [roleOf_outside hshown, hread]
      rfl
  | inside o =>
    rw [roleOf_inside hs'] at hsafe hne ⊢
    cases hr : insideRole (trim line) with
    | thread name v closed =>
      rw [hr] at hsafe
      obtain ⟨hshown, hread⟩ := insideRole_specSwap hs' hr hsafe.1 hsafe.2 hc
      rw [roleOf_inside hshown, hread]
      rfl
    | outer l => exact absurd hr (insideRole_ne_outer _ _)
    | skip => rw [hr] at hne; exact absurd rfl hne
    | close => rw [hr] at hne; exact absurd rfl hne
    | idle => rw [hr] at hne; exact absurd rfl hne

/-- The roles that state a rule. -/
theorem entry_cases {p : Place} {r : Role} {e : Str × Str × Str} (h : entry p r = [e]) :
    (∃ closed, p = .inside e.1 ∧ r = .thread e.2.1 e.2.2 closed) ∨
      ∃ l, r = .outer l ∧ l.spec = some e.2.2 ∧ l ≠ .bareOpen [] := by
  cases r with
  | thread name c closed =>
    cases p with
    | outside w => cases h
    | inside o =>
      obtain rfl := List.singleton_injective h
      exact .inl ⟨closed, rfl, rfl⟩
  | outer l =>
    cases l with
    | single pg th c opens =>
      obtain rfl := List.singleton_injective h
      exact .inr ⟨_, rfl, rfl, by simp⟩
    | rule pg c opens =>
      obtain rfl := List.singleton_injective h
      exact .inr ⟨_, rfl, rfl, by simp⟩
    | bareOpen => cases h
    | pending => cases h
    | junk => cases h
  | skip => cases h
  | close => cases h
  | idle => cases h

/-- **A reworded line**: the same rule with another spec. -/
theorem CutLine.reworded {E : Nat × Place × Role → List (Str × Str)} {c₀ new : Str}
    (hentry : entry (placeAfter old) (roleOf (placeAfter old) line) = [(pkg, thread, c₀)])
    (hnew : roleOf (placeAfter old) new = (roleOf (placeAfter old) line).withSpec cpus)
    (hE : E (lineHere old line) = if pkg = q then [(thread, cpus)] else []) :
    CutLine q E (fun _ => True) D old line [new] := by
  refine .swap (fun p' hp' => ?_) fun key hkey => ?_
  · have hrole : roleOf p' new = (roleOf (placeAfter old) line).withSpec cpus := (hp'.role new).symm.trans hnew
    have hown : entriesFor q (placeAfter old, (roleOf (placeAfter old) line).withSpec cpus)
        = if pkg = q then [(thread, cpus)] else [] := by
      unfold entriesFor
      rw [entry_withSpec, hentry]
      by_cases hq : pkg = q <;> simp [hq]
    have hnext := @nextPlace_withSpec cpus (placeAfter old) (roleOf (placeAfter old) line)
    -- a line that states a rule is no bare brace
    have hclash : ¬ Clash p' new := by
      rintro ⟨_, hbrace⟩
      rw [hrole] at hbrace
      rcases entry_cases hentry with ⟨closed, _, hr⟩ | ⟨l, hr, hspec, _⟩
      · rw [hr] at hbrace
        cases hbrace
      · rw [hr, Role.withSpec, Role.outer.injEq] at hbrace
        cases l with
        | rule => cases hbrace
        | single => cases hbrace
        | bareOpen => cases hspec
        | pending => cases hspec
        | junk => cases hspec
    -- the new text is at the same place, or outside with another header waiting
    rcases hp' with ha | ⟨ho, w, rfl⟩
    · refine standsFor_single ?_ ?_ hclash trivial
      · rw [hrole, ← ha.entries, hown, hE]
      · rw [hrole, ← hnext]
        exact ha.next _
    · refine standsFor_single ?_ ?_ hclash trivial
      · rw [hrole, hE, ← hown, ho]
        exact entriesFor_outside_any _ _ _
      · rcases entry_cases hentry with ⟨closed, hin, _⟩ | ⟨l, hr, hspec, _⟩
        · rw [ho] at hin
          cases hin
        · rw [hrole, ← hnext, hr, Role.withSpec, ho]
          rw [nextPlace_outside_any _ none w]
          · exact Place.Alike.refl _
          · intro hl
            cases l with
            | rule => cases hl
            | single => cases hl
            | bareOpen => cases hspec
            | pending => cases hspec
            | junk => cases hspec
  · -- and it is no header that waits
    rcases entry_cases hentry with ⟨closed, hin, hr⟩ | ⟨l, hr, hspec, _⟩
    · rw [hr, hin] at hkey
      cases closed <;> cases hkey
    · rw [hr] at hkey
      cases l with
      | rule pg c opens => cases opens <;> cases hkey
      | single pg th c opens => cases opens <;> cases hkey
      | bareOpen => cases hspec
      | pending => cases hspec
      | junk => cases hspec

/-- **A rewritten line.** -/
theorem CutLine.respec {E : Nat × Place × Role → List (Str × Str)} {c₀ : Str}
    (hentry : entry (placeAfter old) (roleOf (placeAfter old) line) = [(pkg, thread, c₀)])
    (hsafe : SwapSafe line (roleOf (placeAfter old) line)) (hc : Spec topo cpus)
    (hE : E (lineHere old line) = if pkg = q then [(thread, cpus)] else []) :
    CutLine q E (fun _ => True) D old line [specSwap line cpus] :=
  .reworded hentry (roleOf_specSwap hsafe (by rw [hentry]; simp) hc) hE

/-! ## The lines of a thread -/

/-- A thread entry of the scan states the rule of that thread. -/
theorem entry_of_threadOf {e : Nat × Place × Role} {t : Str × ThreadLoc} (h : t ∈ threadOf pkg e) :
    ∃ c, entry e.2.1 e.2.2 = [(pkg, t.1, c)] := by
  rcases mem_threadOf.mp h with ⟨c, closed, he, _⟩ | ⟨c, opens, hr, _⟩
  · exact ⟨c, by rw [he]; rfl⟩
  · exact ⟨c, by rw [hr]; rfl⟩

/-- A line that states a rule of the thread is a thread entry of the scan. -/
theorem threadOf_of_entry {e : Nat × Place × Role} (hth : thread ≠ [])
    (h : (entriesFor pkg e.2).filter (fun x => x.1 = thread) ≠ []) :
    ∃ loc, (thread, loc) ∈ threadOf pkg e := by
  obtain ⟨i, place, r⟩ := e
  obtain ⟨x, hx⟩ := List.exists_mem_of_ne_nil _ h
  obtain ⟨hx, hname⟩ := List.mem_filter.mp hx
  obtain ⟨⟨pg, th, c⟩, he, rfl⟩ := List.mem_map.mp hx
  obtain ⟨he, hpg⟩ := List.mem_filter.mp he
  obtain ⟨rfl, rfl⟩ : pg = pkg ∧ th = thread := ⟨by simpa using hpg, by simpa using hname⟩
  dsimp only at he
  cases r with
  | thread name c' closed =>
    cases place with
    | outside w => cases he
    | inside o =>
      obtain ⟨rfl, rfl, rfl⟩ : pg = o ∧ th = name ∧ c = c' := by simpa [entry] using he
      exact ⟨_, mem_threadOf.mpr (.inl ⟨c, closed, rfl, rfl⟩)⟩
  | outer l =>
    cases l with
    | single pg' th' c' opens =>
      obtain ⟨rfl, rfl, rfl⟩ : pg = pg' ∧ th = th' ∧ c = c' := by simpa [entry] using he
      exact ⟨_, mem_threadOf.mpr (.inr ⟨c, opens, rfl, rfl⟩)⟩
    | rule pg' c' opens =>
      obtain ⟨_, hnil, _⟩ : pg = pg' ∧ th = [] ∧ c = c' := by simpa [entry] using he
      exact absurd hnil hth
    | bareOpen => cases he
    | pending => cases he
    | junk => cases he
  | skip => cases he
  | close => cases he
  | idle => cases he

/-- The locations of a thread are the lines that state a rule of it. -/
theorem mem_locs_iff (hc : ClashFree ls) {loc : ThreadLoc} :
    loc ∈ (targetScan ls pkg).locs thread ↔ ∃ pre line post, ls = pre ++ line :: post ∧
      (thread, loc) ∈ threadOf pkg (lineHere pre line) := by
  rw [mem_locs]
  exact mem_threads hc

theorem leftover_locs (hc : ClashFree ls) (hth : thread ≠ []) :
    leftover ls pkg thread (((targetScan ls pkg).locs thread).map (·.idx)) = [] := by
  unfold leftover
  rw [List.flatMap_eq_nil_iff]
  intro e he
  by_cases hi : e.1 ∈ ((targetScan ls pkg).locs thread).map (·.idx)
  · rw [if_pos hi]
  · rw [if_neg hi]
    by_contra hne
    obtain ⟨loc, hloc⟩ := threadOf_of_entry hth hne
    obtain ⟨pre, line, post, hls, rfl⟩ := mem_outlineAt.mp he
    have hmem := (mem_locs_iff hc).mpr ⟨pre, line, post, hls, hloc⟩
    exact hi (List.mem_map.mpr ⟨loc, hmem, threadOf_idx hloc⟩)

/-- The line a location of the thread is about. -/
theorem locs_line (hc : ClashFree ls) {pre post : List Str}
    (hls : ls = pre ++ line :: post) {loc : ThreadLoc} (hloc : loc ∈ (targetScan ls pkg).locs thread)
    (hidx : loc.idx = pre.length) : (thread, loc) ∈ threadOf pkg (lineHere pre line) := by
  obtain ⟨pre', line', post', hls', ht⟩ := (mem_locs_iff hc).mp hloc
  have hlen : pre'.length = pre.length := by rw [← hidx, threadOf_idx ht]
  obtain ⟨rfl, hrest⟩ := List.append_inj (hls'.symm.trans hls) hlen
  obtain ⟨rfl, _⟩ := List.cons.inj hrest
  exact ht

/-- **Edits at the lines of a thread**, up to some line: each of them is an admissible line of a `Cut`. -/
theorem locs_cut (hc : ClashFree ls) {g : ThreadLoc → Str → List Str} (hb : ¬ Bridged ls D)
    (hD : ∀ i ∈ D, i ∈ ((targetScan ls pkg).locs thread).map (·.idx))
    (hline : ∀ pre line post loc, ls = pre ++ line :: post → loc ∈ (targetScan ls pkg).locs thread →
      (thread, loc) ∈ threadOf pkg (lineHere pre line) →
      CutLine q (restated pkg q (((targetScan ls pkg).locs thread).map (·.idx)) k es) (fun _ => True) D pre line
        (g loc line)) {pre post : List Str} (hls : ls = pre ++ post) :
    Cut q (restated pkg q (((targetScan ls pkg).locs thread).map (·.idx)) k es) (fun _ => True) D pre
      (rewriteFrom (editsAt ThreadLoc.idx g ((targetScan ls pkg).locs thread)) 0 pre) := by
  have hasc := @locs_ascending ls pkg thread
  refine Cut.start.run fun a line b hpre => ?_
  have hls' : ls = a ++ line :: (b ++ post) := by rw [hls, hpre]; simp
  rw [List.length_nil, Nat.zero_add, List.nil_append]
  by_cases hi : a.length ∈ ((targetScan ls pkg).locs thread).map (·.idx)
  · obtain ⟨loc, hloc, hidx⟩ := List.mem_map.mp hi
    rw [← hidx, editsAt_of_mem hasc hloc]
    exact hline a line _ loc hls' hloc (locs_line hc hls' hloc hidx)
  · rw [editsAt_of_not_mem fun loc hloc hidx => hi (List.mem_map.mpr ⟨loc, hloc, hidx⟩)]
    exact .of_not_bridged hb hls' hc (fun hd => hi (hD _ hd)) trivial (if_neg hi)

/-- **The effect of edits** at the lines of a thread. -/
theorem locs_changed (hc : ClashFree ls) (hth : thread ≠ [])
    {g : ThreadLoc → Str → List Str} (hb : ¬ Bridged ls D)
    (hD : ∀ i ∈ D, i ∈ ((targetScan ls pkg).locs thread).map (·.idx))
    (hes : ∀ x ∈ es, x.1 = thread)
    (hk : es ≠ [] → k ∈ ((targetScan ls pkg).locs thread).map (·.idx))
    (hline : ∀ q pre line post loc, ls = pre ++ line :: post → loc ∈ (targetScan ls pkg).locs thread →
      (thread, loc) ∈ threadOf pkg (lineHere pre line) →
      CutLine q (restated pkg q (((targetScan ls pkg).locs thread).map (·.idx)) k es) (fun _ => True) D pre line
        (g loc line)) :
    Changed pkg thread es ls
      (rewriteFrom (editsAt ThreadLoc.idx g ((targetScan ls pkg).locs thread)) 0 ls) := by
  have hlt : ∀ i ∈ ((targetScan ls pkg).locs thread).map (·.idx), i < ls.length := by
    intro i hi
    obtain ⟨loc, hloc, rfl⟩ := List.mem_map.mp hi
    exact thread_idx_lt (mem_locs.mp hloc)
  have hcut := fun q => locs_cut hc hb hD (hline q) ls.append_nil.symm
  have hchanged := Changed.of_cut hcut hes (fun e he hi => ?_) fun hne => ⟨hk hne, hlt k (hk hne)⟩
  · rwa [leftover_locs hc hth, List.append_nil] at hchanged
  · obtain ⟨pre, line, post, hls, rfl⟩ := mem_outlineAt.mp he
    obtain ⟨loc, hloc, hidx⟩ := List.mem_map.mp hi
    exact entry_of_threadOf (locs_line hc hls hloc hidx)

/-! ## Rules put in -/

theorem leftover_nil (ls : List Str) (pkg thread : Str) :
    leftover ls pkg thread [] = (seen pkg Place.start ls).filter fun e => e.1 = thread := by
  rw [seen_eq_outlineAt, List.filter_flatMap]
  exact List.flatMap_congr fun e _ => if_neg List.not_mem_nil

/-- A rule put in where the thread had none. -/
theorem Gains.changed_new (hg : Gains pkg [(thread, cpus)] ls ls') (hc : ClashFree ls)
    (hth : thread ≠ []) (hnone : (targetScan ls pkg).locs thread = []) :
    Changed pkg thread [(thread, cpus)] ls ls' := by
  have h := hg.changed
  have hempty := @leftover_locs pkg _ _ hc hth
  rw [hnone, List.map_nil, leftover_nil] at hempty
  rwa [hempty] at h

/-- A block of its own for some thread rules. -/
theorem BlockLines.ownBlock {texts : List Str} {es : List (Str × Str)} (h : BlockLines pkg texts es)
    (hk : Key pkg) (hb : '{' ∉ pkg) :
    Chunk pkg (bareOpenLine pkg :: (texts ++ [['}']])) es fun r => r.singleOf pkg = false := by
  have hopen : ∀ w, roleOf (.outside w) (bareOpenLine pkg) = .outer (.bareOpen pkg) := fun w =>
    @roleOf_bareOpenLine _ [] _ hk hb
  have hnone : ∀ q w, entriesFor q (Place.outside w, Role.outer (.bareOpen pkg))
      = if pkg = q then [] else [] := fun q w => by simp [entriesFor, entry]
  exact h.chunk hopen (by simpa using hk.ne) (fun w => by simp [nextPlace, hk.ne]) hnone rfl (fun _ _ => rfl) rfl

/-! ## The rules of the file -/

/-- `add_rule` keeps the thread name. -/
theorem ruleView_name {e : Str × Str} {r : Str × CpuSet} (h : ruleView topo q e = some r) : r.1 = e.1 := by
  obtain ⟨rule, hrule, rfl⟩ := Option.map_eq_some_iff.mp h
  unfold addRule at hrule
  split at hrule
  · cases hrule
  split at hrule
  · cases hrule
  split at hrule
  · cases hrule
  dsimp only at hrule
  split at hrule <;> cases hrule
  rfl

/-- A package name that `add_rule` accepts. -/
structure Accepted (pkg : Str) : Prop where
  ne : pkg ≠ []
  short : byteLen pkg < maxPkgLen
  clean : ∀ c ∈ pkg, isControl c = false

theorem Name.accepted (h : Name maxPkgLen pkg) : Accepted pkg := ⟨h.ne, h.short, h.clean⟩

/-- `add_rule` treats all such names alike. -/
theorem ruleView_accepted (hp : Accepted pkg) (hq : Accepted q) (topo : CpuTopology) (e : Str × Str) :
    ruleView topo pkg e = ruleView topo q e := by
  have hguard : ∀ {k : Str}, Accepted k → k.isEmpty = false ∧ decide (maxPkgLen ≤ byteLen k) = false ∧
      (k ++ e.1).any isControl = e.1.any isControl := by
    intro k hk
    refine ⟨by simp [hk.ne], by simp [hk.short], ?_⟩
    have hclean : k.any isControl = false := by
      rw [List.any_eq_false]
      exact fun c hc => by simp [hk.clean c hc]
    rw [List.any_append, hclean, Bool.false_or]
  obtain ⟨h₁, h₂, h₃⟩ := hguard hp
  obtain ⟨h₁', h₂', h₃'⟩ := hguard hq
  unfold ruleView addRule
  rw [h₁, h₂, h₃, h₁', h₂', h₃']
  dsimp only
  split
  · rfl
  · split
    · rfl
    · split
      · rfl
      · split
        · rfl
        · rfl

/-- The rules with some thread names are those of the calls with these names. -/
theorem filter_ruleView (p : Str → Bool) (es : List (Str × Str)) :
    (es.filterMap (ruleView topo q)).filter (fun r => p r.1)
      = (es.filter fun e => p e.1).filterMap (ruleView topo q) := by
  induction es with
  | nil => rfl
  | cons e es ih =>
    cases hv : ruleView topo q e with
    | none =>
      rw [List.filterMap_cons_none hv, ih]
      by_cases hp : p e.1 = true
      · rw [List.filter_cons_of_pos (by exact hp), List.filterMap_cons_none hv]
      · rw [List.filter_cons_of_neg (by exact hp)]
    | some r =>
      have hname := ruleView_name hv
      rw [List.filterMap_cons_some hv]
      by_cases hp : p e.1 = true
      · rw [List.filter_cons_of_pos (by rw [hname]; exact hp), List.filter_cons_of_pos (by exact hp),
          List.filterMap_cons_some hv, ih]
      · rw [List.filter_cons_of_neg (by rw [hname]; exact hp), List.filter_cons_of_neg (by exact hp), ih]

/-- The rules of the written file, for one package. -/
theorem rulesFor_written (hc : ClashFree ls') (hplain : Unbroken ls') (create : Nat → Str → Bool)
    (topo : CpuTopology) (q : Str) :
    rulesFor q (loadLines create topo (lines (unlines ls'))).rules
      = (seen q Place.start ls').filterMap (ruleView topo q) := by
  rw [rulesFor_eq, callsFor_written hplain, callsFor_eq_seen hc]

/-- The rules of one thread of a package, and its other rules. -/
def rulesOf (thread : Str) (rules : List (Str × CpuSet)) : List (Str × CpuSet) :=
  rules.filter fun r => r.1 = thread

def rulesBut (thread : Str) (rules : List (Str × CpuSet)) : List (Str × CpuSet) :=
  rules.filter fun r => r.1 ≠ thread

/-- **The effect on the file.** -/
theorem Changed.rules (h : Changed pkg thread es ls ls') (hc : ClashFree ls) (hplain : Unbroken ls')
    (create create' : Nat → Str → Bool) (topo : CpuTopology) :
    (rulesOf thread (rulesFor pkg (loadLines create' topo (lines (unlines ls'))).rules)).Perm
        (es.filterMap (ruleView topo pkg)) ∧
      (rulesBut thread (rulesFor pkg (loadLines create' topo (lines (unlines ls'))).rules)).Perm
        (rulesBut thread (rulesFor pkg (loadLines create topo ls).rules)) := by
  rw [rulesFor_written h.clashFree hplain, rulesFor_eq, callsFor_eq_seen hc]
  unfold rulesOf rulesBut
  constructor
  · rw [filter_ruleView fun n => n = thread]
    exact h.here.filterMap _
  · rw [filter_ruleView fun n => n ≠ thread, filter_ruleView fun n => n ≠ thread]
    exact h.rest.filterMap _

end AppOptR
