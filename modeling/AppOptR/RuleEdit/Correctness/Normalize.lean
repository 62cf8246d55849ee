import AppOptR.RuleEdit.Correctness.Removal
import AppOptR.RuleEdit.Correctness.Insertion
import AppOptR.RuleEdit.Correctness.Listed

/-!
# `RuleEdit.Correctness.Normalize` — `normalize_singles` keeps the rules

Every edit starts with `normalize_singles`, which takes the single-line rules of the package out of the text
(`pulled`) and writes them down again in a block. `NormalizeSafe` names the ways in which this goes wrong: a
waiting header and a bare `{` that the removed line kept apart, a thread name or spec that reads otherwise
in a block, and a trailing comment that swallows the brace put behind a header. Without them the text states
the same rules (`Reshaped`), those of another package in the same order.
-/

namespace AppOptR

open Text

variable {q pkg : Str} {ls ls' : List Str}

/-! ## Pulling the single-line rules out -/

/-- The text without the single-line rules of the package. -/
def pulled (ls : List Str) (pkg : Str) : List Str :=
  (targetScan ls pkg).singles.reverse.foldl (fun ls loc => lineRemove ls pkg loc) ls

/-- What becomes of line `i`. -/
def pullLine (ls : List Str) (pkg : Str) : Nat → Str → List Str :=
  editsAt ThreadLoc.idx (lineGone pkg) (targetScan ls pkg).singles

/-- The lines that go: the single-line rules that open no block. -/
def erasedSingles (ls : List Str) (pkg : Str) : List Nat :=
  ((targetScan ls pkg).singles.filter fun loc => !loc.opens).map (·.idx)

theorem pulled_eq : pulled ls pkg = rewriteFrom (pullLine ls pkg) 0 ls := by
  refine lineRemove_run singles_ascending fun loc hloc => ?_
  obtain ⟨name, ht, _⟩ := mem_singles.mp hloc
  exact thread_idx_lt ht

/-- The rule a single-line rule of the package states. -/
def singleEntry (pkg : Str) (e : Nat × Place × Role) : List (Str × Str) :=
  match e.2.2 with
  | .outer (.single pg th cpus _) => if pg = pkg then [(th, cpus)] else []
  | _ => []

/-- What a line says to `q` once the single-line rules of `pkg` are gone. -/
def pulledEntries (q pkg : Str) (e : Nat × Place × Role) : List (Str × Str) :=
  match e.2.2 with
  | .outer (.single pg _ _ _) => if pg = pkg then [] else entriesFor q e.2
  | _ => entriesFor q e.2

theorem pulledEntries_other {e : Nat × Place × Role} (h : e.2.2.singleOf pkg = false) :
    pulledEntries q pkg e = entriesFor q e.2 ∧ singleEntry pkg e = [] := by
  obtain ⟨i, place, role⟩ := e
  cases role with
  | outer l =>
    cases l with
    | single pg th cpus opens =>
      have hpg : pg ≠ pkg := by simpa [Role.singleOf] using h
      simp [pulledEntries, singleEntry, hpg]
    | _ => exact ⟨rfl, rfl⟩
  | _ => exact ⟨rfl, rfl⟩

/-- **What a line says** is what it says as a single-line rule of the package, or otherwise. -/
theorem entriesFor_pulled (e : Nat × Place × Role) :
    entriesFor q e.2 = (if pkg = q then singleEntry pkg e else []) ++ pulledEntries q pkg e := by
  by_cases h : e.2.2.singleOf pkg = true
  · obtain ⟨i, place, role⟩ := e
    obtain ⟨th, cpus, opens, hr⟩ := singleOf_iff.mp h
    dsimp only at hr
    subst hr
    by_cases hq : pkg = q <;> simp [entriesFor, entry, singleEntry, pulledEntries, hq]
  · obtain ⟨h₁, h₂⟩ := pulledEntries_other (q := q) (Bool.eq_false_iff.mpr h)
    rw [h₁, h₂]
    simp

theorem pullLine_single {pre post : List Str} {line th cpus : Str} {opens : Bool}
    (hc : ClashFree ls) (hls : ls = pre ++ line :: post)
    (hr : roleOf (placeAfter pre) line = .outer (.single pkg th cpus opens)) :
    { idx := pre.length, single := true, closed := false, opens } ∈ (targetScan ls pkg).singles ∧
      pullLine ls pkg pre.length line
        = lineGone pkg { idx := pre.length, single := true, closed := false, opens } line := by
  let loc : ThreadLoc := { idx := pre.length, single := true, closed := false, opens }
  have hmem : loc ∈ (targetScan ls pkg).singles :=
    (mem_singles_iff hc).mpr ⟨pre, line, post, th, cpus, opens, hls, hr, rfl⟩
  exact ⟨hmem, editsAt_of_mem (e := loc) singles_ascending hmem line⟩

theorem pullLine_keep {pre post : List Str} {line : Str} (hc : ClashFree ls)
    (hls : ls = pre ++ line :: post) (hs : (roleOf (placeAfter pre) line).singleOf pkg = false) :
    (∀ loc ∈ (targetScan ls pkg).singles, loc.idx ≠ pre.length) ∧
      pullLine ls pkg pre.length line = [line] := by
  have hnone : ∀ loc ∈ (targetScan ls pkg).singles, loc.idx ≠ pre.length := by
    intro loc hloc hidx
    obtain ⟨pre', line', post', th, cpus, opens, hls', hr, rfl⟩ := (mem_singles_iff hc).mp hloc
    have hsplit := List.append_inj (hls'.symm.trans hls) hidx
    rw [hsplit.1, (List.cons.inj hsplit.2).1] at hr
    exact absurd (singleOf_iff.mpr ⟨th, cpus, opens, hr⟩) (by simp [hs])
  exact ⟨hnone, editsAt_of_not_mem hnone line⟩

/-- The pulled text, cut at a line. -/
theorem pulled_split {pre post : List Str} {line : Str} (hls : ls = pre ++ line :: post) :
    pulled ls pkg = rewriteFrom (pullLine ls pkg) 0 pre ++
      (pullLine ls pkg pre.length line ++ rewriteFrom (pullLine ls pkg) (pre.length + 1) post) := by
  rw [pulled_eq, hls, rewriteFrom_append, rewriteFrom_cons, Nat.zero_add]

/-- **One line of the pulled text.** -/
theorem pull_line {P : Role → Prop} {pre post : List Str} {line : Str} (hc : ClashFree ls)
    (hb : ¬ Bridged ls (erasedSingles ls pkg)) (hls : ls = pre ++ line :: post)
    (hopen : P (.outer (.bareOpen pkg))) (hclose : P .close)
    (hP : (roleOf (placeAfter pre) line).singleOf pkg = false → P (roleOf (placeAfter pre) line)) :
    CutLine q (pulledEntries q pkg) P (erasedSingles ls pkg) pre line (pullLine ls pkg pre.length line) := by
  by_cases hs : (roleOf (placeAfter pre) line).singleOf pkg = true
  · obtain ⟨th, cpus, opens, hr⟩ := singleOf_iff.mp hs
    obtain ⟨hmem, hgone⟩ := pullLine_single hc hls hr
    rw [hgone]
    refine @CutLine.gone _ _ _ th _ _ _ _ _ (mem_threadOf.mpr (.inr ⟨cpus, opens, hr, rfl⟩)) (fun ho _ => ?_) ?_
      hopen hclose
    · exact List.mem_map.mpr ⟨_, List.mem_filter.mpr ⟨hmem, by simpa using ho⟩, rfl⟩
    · simp [pulledEntries, hr]
  · have hs' := Bool.eq_false_iff.mpr hs
    obtain ⟨hnone, hkeep⟩ := pullLine_keep hc hls hs'
    rw [hkeep]
    refine CutLine.of_not_bridged hb hls hc (fun hD => ?_) (hP hs')
      (pulledEntries_other (e := lineHere pre line) hs').1
    obtain ⟨loc, hloc, hidx⟩ := List.mem_map.mp hD
    exact hnone loc (List.mem_filter.mp hloc).1 hidx

/-- **The pulled text**, up to some line: it states what the text states without the single-line rules. -/
theorem pull_cut {P : Role → Prop} {pre post : List Str} (hc : ClashFree ls)
    (hb : ¬ Bridged ls (erasedSingles ls pkg)) (hls : ls = pre ++ post)
    (hopen : P (.outer (.bareOpen pkg))) (hclose : P .close)
    (hP : ∀ a line b, pre = a ++ line :: b → (roleOf (placeAfter a) line).singleOf pkg = false →
      P (roleOf (placeAfter a) line)) :
    Cut q (pulledEntries q pkg) P (erasedSingles ls pkg) pre (rewriteFrom (pullLine ls pkg) 0 pre) := by
  have h := @Cut.run q (pulledEntries q pkg) P (erasedSingles ls pkg) _ _ (pullLine ls pkg) Cut.start pre fun a line
    b hsplit => by
      rw [List.length_nil, Nat.zero_add, List.nil_append]
      exact @pull_line _ _ _ _ _ (b ++ post) _ hc hb (by rw [hls, hsplit]; simp) hopen hclose
        (hP a line b hsplit)
  exact h

/-! ## The items -/

/-- The lines the single-line rules become, with their old locations. -/
def singleItems (ls : List Str) (pkg : Str) : List (ThreadLoc × Str) :=
  (targetScan ls pkg).singles.filterMap (singleItem ls)

/-- The single-line rules of the package can stand in a block: no name begins as a comment or a close or
    ends a rule, no spec has a closing brace. -/
def SingleReads (pkg : Str) : Role → Prop
  | .outer (.single pg th cpus _) => pg = pkg → BlockName th ∧ '}' ∉ cpus
  | _ => True

instance (r : Role) : Decidable (SingleReads pkg r) := by
  unfold SingleReads
  split <;> infer_instance

theorem parseHeader_ne_single (opens : Bool) (body : Str) {pg th cpus : Str} {o : Bool} :
    parseHeader opens body ≠ .single pg th cpus o := by
  unfold parseHeader
  intro h
  split at h
  · split at h
    · split at h <;> cases h
    · cases h
  · split at h <;> cases h

theorem singleItem_eq {loc : ThreadLoc} {line th cpus : Str} {opens : Bool} (hline : ls.getD loc.idx [] = line)
    (hp : parseOuter (trim line) = .single pkg th cpus opens) :
    singleItem ls loc = some (loc, withComment ('\t' :: th ++ '=' :: cpus) (trim line)) := by
  have hsplit : splitSingleLine (((stripSuffix '{' (stripComment (trim line))).map trimEnd).getD
      (stripComment (trim line))) = some (pkg, th, cpus) := by
    unfold parseOuter outerBody at hp
    dsimp only at hp
    cases hs : stripSuffix '{' (stripComment (trim line)) with
    | none =>
      rw [hs] at hp
      dsimp only at hp
      split at hp
      · next h => simp_all
      · split at hp
        · cases hp
        · exact absurd hp (parseHeader_ne_single _ _)
    | some b =>
      rw [hs] at hp
      dsimp only at hp
      split at hp
      · next h => simp_all
      · split at hp
        · cases hp
        · exact absurd hp (parseHeader_ne_single _ _)
  unfold singleItem
  rw [hline]
  dsimp only
  rw [hsplit]
  rfl

theorem threadOf_not_single {e : Nat × Place × Role} (h : e.2.2.singleOf pkg = false) :
    ((threadOf pkg e).map (·.2)).filter (·.single) = [] := by
  rw [List.filter_eq_nil_iff]
  intro loc hloc
  obtain ⟨t, ht, rfl⟩ := List.mem_map.mp hloc
  rcases mem_threadOf.mp ht with ⟨_, _, _, hl⟩ | ⟨cpus, opens, hr, _⟩
  · simp [hl]
  · exact absurd (singleOf_iff.mpr ⟨_, _, _, hr⟩) (by simp [h])

theorem threadOf_single {e : Nat × Place × Role} {th cpus : Str} {opens : Bool}
    (h : e.2.2 = .outer (.single pkg th cpus opens)) :
    ((threadOf pkg e).map (·.2)).filter (·.single)
      = [{ idx := e.1, single := true, closed := false, opens }] := by
  obtain ⟨i, place, role⟩ := e
  dsimp only at h
  subst h
  simp [threadOf]

/-- **The items are lines of a block** that state the single-line rules. -/
theorem singleItems_block {es : List (Nat × Place × Role)} (hes : ∀ e ∈ es, e ∈ outlineAt ls)
    (hread : ∀ e ∈ es, SingleReads pkg e.2.2) :
    BlockLines pkg (((((es.flatMap (threadOf pkg)).map (·.2)).filter (·.single)).filterMap
      (singleItem ls)).map (·.2)) (es.flatMap (singleEntry pkg)) := by
  induction es with
  | nil => exact .nil
  | cons e es ih =>
    have hrest := ih (fun e' he' => hes e' (by simp [he'])) fun e' he' => hread e' (by simp [he'])
    rw [List.flatMap_cons, List.flatMap_cons, List.map_append, List.filter_append, List.filterMap_append,
      List.map_append]
    by_cases hs : e.2.2.singleOf pkg = true
    · obtain ⟨th, cpus, opens, hr⟩ := singleOf_iff.mp hs
      obtain ⟨pre, line, post, rfl, rfl⟩ := mem_outlineAt.mp (hes e (by simp))
      replace hr : roleOf (placeAfter pre) line = .outer (.single pkg th cpus opens) := hr
      have hparts := single_parts hr
      have hreads : SingleReads pkg (roleOf (placeAfter pre) line) := hread _ (List.mem_cons_self ..)
      rw [hr] at hreads
      obtain ⟨hname, hcpus⟩ := hreads rfl
      have hentry : singleEntry pkg (pre.length, placeAfter pre, roleOf (placeAfter pre) line)
          = [(th, cpus)] := by simp [singleEntry, hr]
      have hitem : ∀ loc : ThreadLoc, loc.idx = pre.length → singleItem (pre ++ line :: post) loc
          = some (loc, withComment ('\t' :: th ++ '=' :: cpus) (trim line)) := fun loc hidx =>
        singleItem_eq (by rw [hidx, getD_after]) (outer_place hr).2.2
      have hline := @roleOf_threadLine _ _ pkg hparts.name hparts.named hname hparts.value hparts.noEq hcpus _
        (commentTail_cases (trim line))
      rw [← withComment_eq] at hline
      rw [threadOf_single hr, hentry]
      rw [List.filterMap_cons, hitem _ rfl, List.filterMap_nil]
      exact hrest.cons hline
    · have hs' := Bool.eq_false_iff.mpr hs
      rw [threadOf_not_single hs', (pulledEntries_other (q := pkg) hs').2]
      exact hrest

theorem singleItems_lines (hc : ClashFree ls)
    (hread : ∀ e ∈ outlineAt ls, SingleReads pkg e.2.2) :
    BlockLines pkg ((singleItems ls pkg).map (·.2)) ((outlineAt ls).flatMap (singleEntry pkg)) := by
  have h := @singleItems_block _ ls (outlineAt ls) (fun _ he => he) hread
  rwa [← targetScan_threads hc] at h

theorem singleItems_locs (ls : List Str) (pkg : Str) :
    (singleItems ls pkg).map (·.1) = (targetScan ls pkg).singles := by
  have hall : ∀ loc ∈ (targetScan ls pkg).singles, ∃ text, singleItem ls loc = some (loc, text) := by
    intro loc hloc
    obtain ⟨name, ht, hsingle⟩ := mem_singles.mp hloc
    obtain ⟨_, cpus, hp⟩ := ((targetScan_listed ls pkg).threads _ ht).reads hsingle
    exact ⟨_, singleItem_eq rfl hp⟩
  unfold singleItems
  revert hall
  generalize (targetScan ls pkg).singles = locs
  intro hall
  induction locs with
  | nil => rfl
  | cons loc locs ih =>
    obtain ⟨text, ht⟩ := hall loc (by simp)
    rw [List.filterMap_cons, ht, List.map_cons, ih fun l hl => hall l (by simp [hl])]

/-! ## Putting them back -/

/-- `normalize_singles` changes the text: there is a single-line rule, and the guard lets it. -/
def normalizeRuns (ls : List Str) (pkg : Str) : Bool :=
  !(singleItems ls pkg).isEmpty && !normalizeBlocked (targetScan ls pkg) (singleItems ls pkg)

theorem normalizeSingles_idle (h : normalizeRuns ls pkg = false) : normalizeSingles ls pkg = ls := by
  unfold normalizeRuns singleItems at h
  unfold normalizeSingles
  dsimp only
  split
  · rfl
  · next first rest heq =>
    rw [heq] at h
    rw [heq, if_pos (by simpa using h)]

theorem normalizeSingles_runs (h : normalizeRuns ls pkg = true) :
    ∃ loc locs, (targetScan ls pkg).singles = loc :: locs ∧
      normalizeSingles ls pkg = placeItems (pulled ls pkg) pkg loc.idx ((singleItems ls pkg).map (·.2)) := by
  have hlocs := singleItems_locs ls pkg
  have hpulled : (singleItems ls pkg).reverse.foldl (fun ls it => lineRemove ls pkg it.1) ls
      = pulled ls pkg := by
    rw [pulled, ← hlocs, ← List.map_reverse, List.foldl_map]
  unfold normalizeRuns at h
  unfold normalizeSingles
  dsimp only
  cases hitems : singleItems ls pkg with
  | nil =>
    rw [hitems] at h
    cases h
  | cons first rest =>
    rw [hitems] at hlocs hpulled h
    rw [singleItems] at hitems
    rw [List.map_cons] at hlocs
    refine ⟨first.1, rest.map (·.1), hlocs.symm, ?_⟩
    rw [hitems]
    dsimp only
    rw [hpulled, if_neg (by simpa using h)]

/-- `ls'` states the rules of `ls` (those of another package in the same order), none of them in the
    one-line form for `pkg`. -/
structure Reshaped (pkg : Str) (ls ls' : List Str) : Prop where
  clashFree : ClashFree ls'
  own : (seen pkg Place.start ls').Perm (seen pkg Place.start ls)
  others : ∀ q, q ≠ pkg → seen q Place.start ls' = seen q Place.start ls
  noSingles : ∀ r ∈ rolesFrom Place.start ls', r.singleOf pkg = false

/-- What `normalize_singles` must not meet. -/
structure NormalizeSafe (ls : List Str) (pkg : Str) : Prop where
  clashFree : ClashFree ls
  apart : ¬ Bridged ls (erasedSingles ls pkg)
  reads : ∀ e ∈ outlineAt ls, SingleReads pkg e.2.2
  header : (targetScan ls pkg).blockClose = none → ∀ i, (targetScan ls pkg).pkgLine = some (.standalone i) →
    commentAt (ls.getD i []) = none

theorem seen_singles (q : Str) (ls : List Str) :
    (seen q Place.start ls).Perm ((if pkg = q then (outlineAt ls).flatMap (singleEntry pkg) else []) ++
      (outlineAt ls).flatMap (pulledEntries q pkg)) := by
  have hsplit : seen q Place.start ls = (outlineAt ls).flatMap fun e =>
      (if pkg = q then singleEntry pkg e else []) ++ pulledEntries q pkg e := by
    rw [seen_eq_outlineAt]
    exact List.flatMap_congr fun e _ => entriesFor_pulled e
  rw [hsplit]
  refine (List.flatMap_append_perm _ _ _).symm.trans ?_
  by_cases hq : pkg = q
  · simp only [if_pos hq]
    exact List.Perm.refl _
  · have hnil : (outlineAt ls).flatMap (fun _ => ([] : List (Str × Str))) = [] := by simp
    simp only [if_neg hq, hnil]
    exact List.Perm.refl _

theorem pulledEntries_self_other (hq : q ≠ pkg) (e : Nat × Place × Role) :
    pulledEntries q pkg e = entriesFor q e.2 := by
  rw [@entriesFor_pulled _ pkg, if_neg (Ne.symm hq), List.nil_append]

/-- **The pulled text** has lost the single-line rules and nothing else. -/
theorem pulled_cut (h : NormalizeSafe ls pkg) (q : Str) :
    Cut q (pulledEntries q pkg) (fun r => r.singleOf pkg = false) (erasedSingles ls pkg) ls
      (pulled ls pkg) := by
  rw [pulled_eq]
  exact @pull_cut _ _ _ _ _ [] h.clashFree h.apart (by simp) rfl rfl fun a line b _ hr => hr

/-- The pulled text, with the items put in, is the text reshaped. -/
theorem Gains.reshaped {R : List Str} (h : NormalizeSafe ls pkg) (hR : pulled ls pkg = R)
    (hg : Gains pkg ((outlineAt ls).flatMap (singleEntry pkg)) R ls') : Reshaped pkg ls ls' := by
  subst hR
  refine ⟨hg.clashFree, ?_, fun q hq => ?_, fun r hr => ?_⟩
  · have hs := @seen_singles pkg pkg ls
    rw [if_pos rfl, ← (pulled_cut h pkg).seen] at hs
    exact hg.own.trans hs.symm
  · rw [hg.others q hq, (pulled_cut h q).seen, seen_eq_outlineAt]
    exact List.flatMap_congr fun e _ => pulledEntries_self_other hq e
  · rcases hg.roles r hr with hr | hr
    · exact (pulled_cut h pkg).roles r hr
    · exact hr

/-- **Into the block.** -/
theorem normalize_block (h : NormalizeSafe ls pkg) {c : Nat}
    (hclose : (targetScan (pulled ls pkg) pkg).blockClose = some c) :
    Reshaped pkg ls (spliceAt (pulled ls pkg) c ((singleItems ls pkg).map (·.2))) := by
  have hitems := singleItems_lines h.clashFree h.reads
  have hR := (pulled_cut h pkg).clashFree
  obtain ⟨o, _, hb⟩ := (targetScan_found pkg hR).1.closed c hclose
  obtain ⟨hlt, hin⟩ := hb.place
  have hsplit : (pulled ls pkg).take c ++ (pulled ls pkg).drop c = pulled ls pkg :=
    List.take_append_drop _ _
  have hg := @BlockLines.gains _ ((pulled ls pkg).take c) ((pulled ls pkg).drop c) _ _ hitems (by rwa [hsplit]) hin
  rw [hsplit, ← List.append_assoc] at hg
  exact hg.reshaped h rfl

/-- A block of the package that is closed still is one in the pulled text. -/
theorem pulled_blockClose (h : NormalizeSafe ls pkg)
    (hnone : (targetScan (pulled ls pkg) pkg).blockClose = none) : (targetScan ls pkg).blockClose = none := by
  cases hsome : (targetScan ls pkg).blockClose with
  | none => rfl
  | some c =>
    exfalso
    have hc := h.clashFree
    obtain ⟨o, _, pre, opener, body, closer, post, hls, _, _, _, hopen, hbody, hend, _⟩ :=
      (targetScan_found pkg hc).1.closed c hsome
    have hls' : ls = (pre ++ opener :: body) ++ closer :: post := by rw [hls]; simp
    have hin : placeAfter (pre ++ opener :: body) = .inside pkg := by
      rw [placeAfter_append, placeFrom_cons, hopen, hbody.place]
    have hrole : (roleOf (placeAfter (pre ++ opener :: body)) closer).singleOf pkg = false := by
      rw [Bool.eq_false_iff]
      intro hs
      obtain ⟨th, cpus, opens, hr⟩ := singleOf_iff.mp hs
      obtain ⟨w, hw⟩ := (outer_place hr).1
      rw [hin] at hw
      cases hw
    have hcut := pull_cut (q := pkg) (P := fun _ => True) hc h.apart hls' trivial trivial
      fun _ _ _ _ _ => trivial
    obtain ⟨k, hk, halike⟩ := (hin ▸ hcut.place).inside_exists
    have hkpkg : k = pkg := halike.own.mp rfl
    have hR := (pulled_cut h pkg).clashFree
    have hsplit' := @pulled_split pkg _ _ _ _ hls'
    rw [(pullLine_keep hc hls' hrole).2] at hsplit'
    have hnc := (hnone ▸ (targetScan_found pkg hR).1).no_close hsplit' (by rw [hk, hkpkg])
    rw [hk, hkpkg, hend] at hnc
    cases hnc

/-- The role is that of a rule header of the package. -/
def Role.ruleOf (pkg : Str) : Role → Bool
  | .outer (.rule pg _ _) => pg = pkg
  | _ => false

theorem ruleOf_iff {r : Role} : r.ruleOf pkg = true ↔ ∃ cpus opens, r = .outer (.rule pkg cpus opens) := by
  cases r with
  | outer l =>
    cases l with
    | rule pg cpus opens =>
      constructor
      · intro h
        have hpg : pg = pkg := by simpa [Role.ruleOf] using h
        exact ⟨cpus, opens, by rw [hpg]⟩
      · rintro ⟨_, _, h⟩
        simp only [Role.outer.injEq, OuterLine.rule.injEq] at h
        simp [Role.ruleOf, h.1]
    | single => simp [Role.ruleOf]
    | bareOpen => simp [Role.ruleOf]
    | pending => simp [Role.ruleOf]
    | junk => simp [Role.ruleOf]
  | skip => simp [Role.ruleOf]
  | close => simp [Role.ruleOf]
  | thread => simp [Role.ruleOf]
  | idle => simp [Role.ruleOf]

theorem lineAt_role {r : Role} : r ∈ rolesFrom Place.start ls ↔ ∃ i, LineAt ls i r := by
  have hroles : rolesFrom Place.start ls = (outlineAt ls).map fun e => e.2.2 := by
    induction ls using List.reverseRecOn with
    | nil => rfl
    | append_singleton ls line ih =>
      rw [rolesFrom_append, ih, outlineAt_concat, List.map_append]
      rfl
  rw [hroles, List.mem_map]
  constructor
  · rintro ⟨⟨i, place, r'⟩, he, rfl⟩
    exact ⟨i, lineAt_iff.mpr ⟨place, he⟩⟩
  · rintro ⟨i, hl⟩
    obtain ⟨place, he⟩ := lineAt_iff.mp hl
    exact ⟨_, he, rfl⟩

/-- **The header of the pulled text** is that of the text: the first rule header of the package stays the
    first. -/
theorem pulled_header (h : NormalizeSafe ls pkg) {i' : Nat}
    (hline : (targetScan (pulled ls pkg) pkg).pkgLine = some (.standalone i'))
    (hshape : ∀ l, (targetScan ls pkg).pkgLine = some l → l.isStandalone = true) :
    ∃ i, (targetScan ls pkg).pkgLine = some (.standalone i) ∧
      (pulled ls pkg).getD i' [] = ls.getD i [] := by
  have hc := h.clashFree
  have hR := (pulled_cut h pkg).clashFree
  obtain ⟨cpus', hat'⟩ := (targetScan_found pkg hR).2.standing _ hline
  -- a stretch without rule headers of the package stays one
  have hnone : ∀ pre post, ls = pre ++ post → (∀ r ∈ rolesFrom Place.start pre, r.ruleOf pkg = false) →
      ∀ r ∈ rolesFrom Place.start (rewriteFrom (pullLine ls pkg) 0 pre), r.ruleOf pkg = false := by
    intro pre post hls hpre
    refine (pull_cut (q := pkg) (P := fun r => r.ruleOf pkg = false) hc h.apart hls rfl rfl
      fun a line b hsplit _ => ?_).roles
    refine hpre _ (lineAt_role.mpr ⟨a.length, a, line, b, hsplit, rfl, rfl⟩)
  cases hp : (targetScan ls pkg).pkgLine with
  | none =>
    exfalso
    have hall : ∀ r ∈ rolesFrom Place.start ls, r.ruleOf pkg = false := by
      intro r hr
      rw [Bool.eq_false_iff]
      intro hrule
      obtain ⟨cpus, opens, rfl⟩ := ruleOf_iff.mp hrule
      obtain ⟨j, hj⟩ := lineAt_role.mp hr
      obtain ⟨l, hl, _⟩ := targetScan_firstRule pkg hc j cpus opens hj
      rw [hp] at hl
      cases hl
    have := hnone ls [] (by simp) hall _ (pulled_eq ▸ lineAt_role.mpr ⟨i', hat'⟩)
    simp [Role.ruleOf] at this
  | some l =>
    have hl := hshape l hp
    cases l with
    | standalone i =>
      refine ⟨i, rfl, ?_⟩
      obtain ⟨cpus, pre, line, post, hls, hlen, hrole⟩ := (targetScan_found pkg hc).2.standing _ hp
      have hbefore : ∀ r ∈ rolesFrom Place.start pre, r.ruleOf pkg = false := by
        intro r hr
        rw [Bool.eq_false_iff]
        intro hrule
        obtain ⟨c, o, rfl⟩ := ruleOf_iff.mp hrule
        obtain ⟨j, hj⟩ := lineAt_role.mp hr
        have hjlt := hj.split.1
        obtain ⟨l, hl, hle⟩ := targetScan_firstRule pkg hc j c o (hls ▸ hj.append (line :: post))
        rw [hp, Option.some.injEq] at hl
        subst hl
        simp only [PkgLine.idx] at hle
        omega
      have hkeep := (@pullLine_keep pkg _ _ _ _ hc hls (by rw [hrole]; rfl)).2
      have hsplit := @pulled_split pkg _ _ _ _ hls
      rw [hkeep] at hsplit
      have hplace := (pull_cut (q := pkg) (P := fun _ => True) hc h.apart hls trivial trivial
        fun _ _ _ _ _ => trivial).place
      have hat : LineAt (pulled ls pkg) (rewriteFrom (pullLine ls pkg) 0 pre).length
          (.outer (.rule pkg cpus false)) :=
        ⟨_, line, _, hsplit, rfl, by rw [← hplace.role, hrole]⟩
      obtain ⟨l', hl', hle⟩ := targetScan_firstRule pkg hR _ _ _ hat
      rw [hline, Option.some.injEq] at hl'
      subst hl'
      simp only [PkgLine.idx] at hle
      -- the first header is not below this one, and none stands in the stretch above
      have hidx : i' = (rewriteFrom (pullLine ls pkg) 0 pre).length := by
        by_contra hne
        have hlt : i' < (rewriteFrom (pullLine ls pkg) 0 pre).length := by omega
        have hpart : LineAt (rewriteFrom (pullLine ls pkg) 0 pre) i' (.outer (.rule pkg cpus' false)) :=
          LineAt.of_append (hsplit ▸ hat') hlt
        have := hnone pre (line :: post) hls hbefore _ (lineAt_role.mpr ⟨i', hpart⟩)
        simp [Role.ruleOf] at this
      rw [hidx, hsplit, hls, ← hlen]
      simp
    | openInline i => cases hl
    | bareOpen i => cases hl
    | barePending i => cases hl

/-- **Under the header.** -/
theorem normalize_header (h : NormalizeSafe ls pkg) {i : Nat}
    (hnone : (targetScan (pulled ls pkg) pkg).blockClose = none)
    (hline : (targetScan (pulled ls pkg) pkg).pkgLine = some (.standalone i))
    (hshape : ∀ l, (targetScan ls pkg).pkgLine = some l → l.isStandalone = true) :
    Reshaped pkg ls (spliceAt ((pulled ls pkg).set i (trimEnd ((pulled ls pkg).getD i []) ++ [' ', '{']))
      (i + 1) ((singleItems ls pkg).map (·.2) ++ [['}']])) := by
  have hitems := singleItems_lines h.clashFree h.reads
  have hR := (pulled_cut h pkg).clashFree
  obtain ⟨j, hj, hsame⟩ := pulled_header h hline hshape
  have hcomment : commentAt ((pulled ls pkg).getD i []) = none := by
    rw [hsame]
    exact h.header (pulled_blockClose h hnone) j hj
  obtain ⟨cpus, hat⟩ := (targetScan_found pkg hR).2.standing _ hline
  obtain ⟨hlt, hsplit, hrole⟩ := hat.split
  obtain ⟨⟨w, hw⟩, _⟩ := outer_place hrole
  have hrole' := hrole
  rw [hw] at hrole'
  have hg := @BlockLines.gains_header _ ((pulled ls pkg).take i) ((pulled ls pkg).drop (i + 1)) _ _ hitems _ _ _
    (by rwa [← hsplit]) hrole fun w' => roleOf_headerOpen hrole' hcomment
  rw [← hsplit, ← spliceAt_set hlt] at hg
  exact hg.reshaped h rfl

/-- A block of its own, for the items. -/
theorem newBlock_chunk (h : NormalizeSafe ls pkg) (hpkg : pkg ≠ []) (hk : Key pkg) (hb : '{' ∉ pkg) :
    Chunk pkg ([bareOpenLine pkg] ++ (singleItems ls pkg).map (·.2) ++ [['}']])
      ((outlineAt ls).flatMap (singleEntry pkg)) fun r => r.singleOf pkg = false := by
  have hopen : ∀ w, roleOf (.outside w) (bareOpenLine pkg) = .outer (.bareOpen pkg) := fun w =>
    @roleOf_bareOpenLine _ [] _ hk hb
  have hnone : ∀ q w, entriesFor q (Place.outside w, Role.outer (.bareOpen pkg))
      = if pkg = q then [] else [] := fun q w => by simp [entriesFor, entry]
  exact (singleItems_lines h.clashFree h.reads).chunk hopen (by simpa using hpkg)
    (fun w => by simp [nextPlace, hpkg]) hnone rfl (fun _ _ => rfl) rfl

theorem flatMap_at {at_ : Nat} {x : List (Str × Str)} {es : List (Nat × Place × Role)}
    (hs : es.Pairwise fun a b => a.1 < b.1) {e : Nat × Place × Role} (he : e ∈ es) (hat : e.1 = at_) :
    (es.flatMap fun e => if e.1 = at_ then x else []) = x := by
  induction es with
  | nil => cases he
  | cons a es ih =>
    obtain ⟨hlt, hrest⟩ := List.pairwise_cons.mp hs
    rw [List.flatMap_cons]
    rcases List.mem_cons.mp he with rfl | he
    · have hnil : (es.flatMap fun e => if e.1 = at_ then x else []) = [] := by
        rw [List.flatMap_eq_nil_iff]
        intro e' he'
        rw [if_neg]
        have := hlt e' he'
        omega
      rw [if_pos hat, hnil, List.append_nil]
    · have hne : a.1 ≠ at_ := by
        have := hlt e he
        omega
      rw [if_neg hne, List.nil_append, ih hrest he]

/-- **In a block of its own**, in the place of the first of them. -/
theorem normalize_newBlock (h : NormalizeSafe ls pkg) (hpkg : pkg ≠ []) {loc : ThreadLoc}
    {locs : List ThreadLoc} (hlocs : (targetScan ls pkg).singles = loc :: locs) :
    Reshaped pkg ls (spliceAt (pulled ls pkg) (min loc.idx (pulled ls pkg).length)
      ([bareOpenLine pkg] ++ (singleItems ls pkg).map (·.2) ++ [['}']])) := by
  have hc := h.clashFree
  obtain ⟨pre, line, post, th, cpus, opens, hls, hr, hloc⟩ :=
    (mem_singles_iff hc).mp (hlocs ▸ List.mem_cons_self (a := loc) (l := locs))
  have hidx : loc.idx = pre.length := by rw [hloc]
  have hparts := single_parts hr
  have hchunk := newBlock_chunk h hpkg hparts.key hparts.noBrace
  generalize [bareOpenLine pkg] ++ (singleItems ls pkg).map (·.2) ++ [['}']] = chunk at hchunk ⊢
  -- nothing is pulled above the first single-line rule
  have hfirst : rewriteFrom (pullLine ls pkg) 0 pre = pre := by
    refine rewriteFrom_self fun i l _ hi => editsAt_of_not_mem (fun loc' hloc' => ?_) l
    have hasc := @singles_ascending ls pkg
    rw [hlocs] at hloc' hasc
    obtain ⟨hlt, _⟩ := List.pairwise_cons.mp hasc
    rcases List.mem_cons.mp hloc' with rfl | hmem
    · omega
    · have := hlt loc' hmem
      omega
  have hsplit := @pulled_split pkg _ _ _ _ hls
  rw [hfirst] at hsplit
  let f : Nat → Str → List Str := fun i l =>
    -- the chunk goes above the first line that is pulled
    if i = pre.length then chunk ++ pullLine ls pkg i l else pullLine ls pkg i l
  have hnew : spliceAt (pulled ls pkg) (min loc.idx (pulled ls pkg).length) chunk = rewriteFrom f 0 ls := by
    have hmin : min loc.idx (pulled ls pkg).length = pre.length := by
      rw [hidx, hsplit, List.length_append]
      omega
    have hbelow : rewriteFrom f 0 pre = pre :=
      (rewriteFrom_congr fun i l _ hi => if_neg (by omega)).trans hfirst
    have habove : rewriteFrom f (pre.length + 1) post = rewriteFrom (pullLine ls pkg) (pre.length + 1) post :=
      rewriteFrom_congr fun i l hi _ => if_neg (by omega)
    have hat : f pre.length line = chunk ++ pullLine ls pkg pre.length line := if_pos rfl
    rw [hmin, hls, rewriteFrom_append, rewriteFrom_cons, Nat.zero_add, hbelow, habove, hat, ← hls, spliceAt,
      hsplit, List.take_left' rfl, List.drop_left' rfl, List.append_assoc, List.append_assoc]
  let E : Str → Nat × Place × Role → List (Str × Str) := fun q e =>
    -- and so the moved entries are said at that line
    (if e.1 = pre.length then if pkg = q then (outlineAt ls).flatMap (singleEntry pkg) else [] else []) ++
      pulledEntries q pkg e
  have hE : ∀ q, E q (lineHere pre line)
      = if pkg = q then (outlineAt ls).flatMap (singleEntry pkg) else [] := by
    intro q
    have : pulledEntries q pkg (lineHere pre line) = [] := by simp [pulledEntries, hr]
    simp [E, this]
  have hcut : ∀ q, Cut q (E q) (fun r => r.singleOf pkg = false) (erasedSingles ls pkg) ls
      (rewriteFrom f 0 ls) := by
    intro q
    have hrun := @Cut.run q (E q) (fun r => r.singleOf pkg = false) (erasedSingles ls pkg) _ _ f Cut.start ls
    refine hrun fun a l b hab => ?_
    rw [List.length_nil, Nat.zero_add, List.nil_append]
    have hpull := pull_line (q := q) (P := fun r => r.singleOf pkg = false) hc h.apart hab rfl rfl id
    by_cases ha : a.length = pre.length
    · obtain ⟨hapre, hrest⟩ := List.append_inj (hab.symm.trans hls) ha
      obtain ⟨rfl, _⟩ := List.cons.inj hrest
      subst hapre
      have hf : f a.length l = chunk ++ pullLine ls pkg a.length l := if_pos rfl
      obtain ⟨⟨w, hw⟩, _⟩ := outer_place hr
      rw [hf, (pullLine_single hc hls hr).2]
      refine .swap (fun p' hp' => ?_) fun key hkey => ?_
      · rw [hw] at hp'
        obtain ⟨w', rfl⟩ := hp'.outside
        rw [hE, hr]
        cases opens with
        | false =>
          have hgone : lineGone pkg { idx := a.length, single := true, closed := false, opens := false } l
              = [] := rfl
          rw [hgone, List.append_nil]
          refine ⟨hchunk.seen q w', ?_, hchunk.clash w', hchunk.roles w'⟩
          rw [hchunk.place]
          exact .outside
        | true =>
          have hgone : lineGone pkg { idx := a.length, single := true, closed := false, opens := true } l
              = [withComment (bareOpenLine pkg) l] := rfl
          have hopen : roleOf (.outside none) (withComment (bareOpenLine pkg) l) = .outer (.bareOpen pkg) :=
            roleOf_bareOpenLine hparts.key hparts.noBrace
          have hnext : nextPlace (.outside none) (.outer (.bareOpen pkg)) = .inside pkg := by
            simp [nextPlace, hpkg]
          rw [hgone]
          refine ⟨?_, ?_, clashFreeFrom_append.mpr ⟨hchunk.clash w', ?_⟩, fun r hr' => ?_⟩
          · rw [seen_append, hchunk.seen, hchunk.place, seen_cons, hopen, seen_nil]
            simp [entriesFor, entry]
          · rw [placeFrom_append, hchunk.place, placeFrom_cons, hopen, hnext]
            exact Place.Alike.refl _
          · rw [hchunk.place]
            exact ⟨fun hcl => (by cases hcl.1), trivial⟩
          · rw [rolesFrom_append, hchunk.place, rolesFrom_cons, hopen, rolesFrom_nil] at hr'
            rcases List.mem_append.mp hr' with hr' | hr'
            · exact hchunk.roles w' r hr'
            · rw [List.mem_singleton.mp hr']
              rfl
      · rw [hr] at hkey
        cases opens <;> cases hkey
    · -- every other line is only pulled
      have hf : f a.length l = pullLine ls pkg a.length l := if_neg ha
      rw [hf]
      refine hpull.congr ?_
      have hne : (lineHere a l).1 ≠ pre.length := ha
      simp [E, hne]
  rw [hnew]
  have hmem : (pre.length, placeAfter pre, roleOf (placeAfter pre) line) ∈ outlineAt ls :=
    mem_outlineAt.mpr ⟨pre, line, post, hls, rfl⟩
  refine ⟨(hcut pkg).clashFree, ?_, fun q hq => ?_, (hcut pkg).roles⟩
  · rw [(hcut pkg).seen]
    refine (List.flatMap_append_perm _ _ _).symm.trans ?_
    rw [flatMap_at (outlineAt_ascending ls) hmem rfl]
    exact (seen_singles pkg ls).symm
  · rw [(hcut q).seen, seen_eq_outlineAt]
    refine List.flatMap_congr fun e _ => ?_
    simp [E, Ne.symm hq, pulledEntries_self_other hq]

/-- Only a package with a name has single-line rules to normalise. -/
theorem normalizeRuns_ne (hrun : normalizeRuns ls pkg = true) : pkg ≠ [] := by
  rintro rfl
  rw [normalizeRuns, singleItems, singles_nil_of_empty] at hrun
  cases hrun

/-- **Normalising keeps the rules.** -/
theorem normalizeSingles_reshaped (h : NormalizeSafe ls pkg)
    (hrun : normalizeRuns ls pkg = true) : Reshaped pkg ls (normalizeSingles ls pkg) := by
  obtain ⟨loc, locs, hlocs, hnorm⟩ := normalizeSingles_runs hrun
  rw [hnorm]
  unfold placeItems
  dsimp only
  have hshape : (targetScan ls pkg).blockClose = none →
      ∀ l, (targetScan ls pkg).pkgLine = some l → l.isStandalone = true := by
    intro hnone l hl
    simp only [normalizeRuns, normalizeBlocked, hnone, hl, Option.isNone_none, Bool.true_and,
      Bool.and_eq_true, Bool.not_eq_true', Bool.or_eq_false_iff] at hrun
    cases l with
    | standalone i => rfl
    | openInline i => exact absurd hrun.2.2 (by simp)
    | bareOpen i => exact absurd hrun.2.2 (by simp)
    | barePending i => exact absurd hrun.2.2 (by simp)
  split
  · next hclose => exact normalize_block h hclose
  · next hclose hline =>
    exact normalize_header h hclose hline (hshape (pulled_blockClose h hclose))
  · exact normalize_newBlock h (normalizeRuns_ne hrun) hlocs

/-! ## What the loader makes of it -/

/-- Two texts that say the same to `q` give the loader the same rules for `q`. -/
theorem rulesFor_perm {create create' : Nat → Str → Bool} {topo : CpuTopology} (hc : ClashFree ls)
    (hc' : ClashFree ls') (h : (seen q Place.start ls').Perm (seen q Place.start ls)) :
    (rulesFor q (loadLines create' topo ls').rules).Perm (rulesFor q (loadLines create topo ls).rules) := by
  rw [rulesFor_eq, rulesFor_eq, callsFor_eq_seen hc, callsFor_eq_seen hc']
  exact h.filterMap _

/-- A text without single-line rules of the package has none in the scan. -/
theorem singles_eq_nil (hc : ClashFree ls)
    (h : ∀ r ∈ rolesFrom Place.start ls, r.singleOf pkg = false) : (targetScan ls pkg).singles = [] := by
  rw [List.eq_nil_iff_forall_not_mem]
  intro loc hloc
  obtain ⟨pre, line, post, th, cpus, opens, hls, hr, _⟩ := (mem_singles_iff hc).mp hloc
  have hfree := h _ (lineAt_role.mpr ⟨pre.length, pre, line, post, hls, rfl, rfl⟩)
  rw [hr] at hfree
  simp [Role.singleOf] at hfree

/-- `normalize_singles` changes the shape of the lines and not the rules: the loader reads the same rules for
    every package, and no single-line rule of `pkg` is left unless the lines were left alone. -/
structure ShapeOnly (ls : List Str) (pkg : Str) : Prop where
  rules : ∀ (create create' : Nat → Str → Bool) (topo : CpuTopology) (q : Str),
    (rulesFor q (loadLines create' topo (normalizeSingles ls pkg)).rules).Perm
      (rulesFor q (loadLines create topo ls).rules)
  singles : (targetScan (normalizeSingles ls pkg) pkg).singles = [] ∨ normalizeSingles ls pkg = ls

end AppOptR
