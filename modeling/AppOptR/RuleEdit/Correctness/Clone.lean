import AppOptR.RuleEdit.Correctness.Changed
import AppOptR.RuleEdit.Correctness.DeletePackage
import AppOptR.RuleMatch

/-!
# `RuleEdit.Correctness.Clone` — what a clone copies

`rule_clone` normalises both packages and puts one block for the target at the end of the text. The thread rules
of the block are those of the source, one by one (`cloned_threads`); the package rule is that of the first header
of the source, whatever else the source states. So the target gets what the source has as long as the first
header of the source stands for all its package rules (`HeaderCovers`).
-/

namespace AppOptR

open Text

variable {source target thread cpus line : Str} {ls ls' : List Str} {topo : CpuTopology}

/-! ## The thread rules of the source -/

/-- A thread rule inside a block, as the clone reads it. -/
theorem cloneThreadSpec_block {pre post : List Str} {closed : Bool} {place : Place}
    (h : roleOf place line = .thread thread cpus closed) :
    cloneThreadSpec (pre ++ line :: post) { idx := pre.length, single := false, closed, opens := false } =
      some cpus := by
  unfold cloneThreadSpec
  dsimp only
  rw [getD_after, if_neg Bool.false_ne_true, splitRuleLine_core, (thread_core h).2.2]
  rfl

/-- The source has no single-line rule left. -/
theorem single_free (hc : ClashFree ls) (hnone : (targetScan ls source).singles = [])
    {e : Nat × Place × Role} (he : e ∈ outlineAt ls) : e.2.2.singleOf source = false := by
  obtain ⟨pre, line, post, hls, rfl⟩ := mem_outlineAt.mp he
  by_contra hs
  obtain ⟨th, cpus, opens, hrole⟩ := singleOf_iff.mp (by simpa using hs)
  have hmem := (mem_singles_iff hc).mpr ⟨pre, line, post, th, cpus, opens, hls, hrole, rfl⟩
  rw [hnone] at hmem
  cases hmem

/-- The thread rules that `clone_prepare` collects. -/
def cloneThreads (ls : List Str) (source : Str) : List (Str × Str) :=
  (targetScan ls source).threads.filterMap fun t => (cloneThreadSpec ls t.2).map fun cpus => (t.1, cpus)

/-- **They are the thread rules of the source**, in file order. -/
theorem cloned_threads (hc : ClashFree ls) (hnone : (targetScan ls source).singles = []) :
    cloneThreads ls source = (seen source Place.start ls).filter fun e => e.1 ≠ [] := by
  unfold cloneThreads
  rw [targetScan_threads hc, seen_eq_outlineAt, List.filterMap_flatMap, List.filter_flatMap]
  refine List.flatMap_congr fun e he => ?_
  have hsingle := single_free hc hnone he
  obtain ⟨pre, line, post, rfl, rfl⟩ := mem_outlineAt.mp he
  show List.filterMap _ (threadOf source (pre.length, placeAfter pre, roleOf (placeAfter pre) line)) = _
  generalize hr : roleOf (placeAfter pre) line = r at hsingle ⊢
  cases r with
  | thread name cpus closed =>
    have hnamed : name ≠ [] := (thread_parts hr).named
    by_cases hin : placeAfter pre = .inside source
    · have hspec := @cloneThreadSpec_block _ _ _ pre post _ _ hr
      simp [threadOf, entriesFor, entry, hin, hspec, hnamed]
    · have hnone : entriesFor source (placeAfter pre, .thread name cpus closed) = [] := by
        cases hp : placeAfter pre with
        | outside w => rfl
        | inside o =>
          have ho : o ≠ source := fun ho => hin (by rw [hp, ho])
          simp [entriesFor, entry, ho]
      rw [hnone]
      simp [threadOf, hin]
  | outer l =>
    cases l with
    | single pg th cpus opens =>
      have hpg : pg ≠ source := by simpa [Role.singleOf] using hsingle
      simp [threadOf, entriesFor, entry, hpg]
    | rule pg cpus opens =>
      by_cases hpg : pg = source <;> simp [threadOf, entriesFor, entry, hpg]
    | bareOpen pg => rfl
    | pending pg => rfl
    | junk => rfl
  | skip => rfl
  | close => rfl
  | idle => rfl

theorem core_subset (l : Str) : core l ⊆ l := fun _ h => trim_subset l (stripComment_subset _ h)

/-- A thread rule of the source stands in a line of a block. -/
theorem cloned_line (hc : ClashFree ls) (hnone : (targetScan ls source).singles = [])
    {t : Str × Str} (h : t ∈ cloneThreads ls source) :
    ∃ line ∈ ls, ∃ place closed, roleOf place line = .thread t.1 t.2 closed := by
  rw [cloned_threads hc hnone, seen_eq_outlineAt] at h
  obtain ⟨hmem, hname⟩ := List.mem_filter.mp h
  obtain ⟨e, he, hentry⟩ := List.mem_flatMap.mp hmem
  have hsingle := single_free hc hnone he
  obtain ⟨pre, line, post, rfl, rfl⟩ := mem_outlineAt.mp he
  refine ⟨line, by simp, placeAfter pre, ?_⟩
  have hname' : t.1 ≠ [] := by simpa using hname
  obtain ⟨e', hin, rfl⟩ := List.mem_map.mp hentry
  obtain ⟨hin, hown⟩ := List.mem_filter.mp hin
  change e' ∈ entry (placeAfter pre) (roleOf (placeAfter pre) line) at hin
  generalize roleOf (placeAfter pre) line = r at hin hsingle ⊢
  cases r with
  | thread name cpus closed =>
    cases hp : placeAfter pre with
    | outside w =>
      rw [hp] at hin
      cases hin
    | inside o =>
      rw [hp] at hin
      obtain rfl := List.mem_singleton.mp hin
      exact ⟨closed, rfl⟩
  | outer l =>
    cases l with
    | single pg th cpus opens =>
      obtain rfl := List.mem_singleton.mp hin
      have hpg : pg = source := by simpa using hown
      simp [Role.singleOf, hpg] at hsingle
    | rule pg cpus opens =>
      obtain rfl := List.mem_singleton.mp hin
      exact absurd rfl hname'
    | bareOpen pg => cases hin
    | pending pg => cases hin
    | junk => cases hin
  | skip => cases hin
  | close => cases hin
  | idle => cases hin

theorem thread_subset {place : Place} {k v : Str} {closed : Bool} (h : roleOf place line = .thread k v closed) :
    k ⊆ line ∧ v ⊆ line := by
  obtain ⟨x, rest, hc, hkv, _⟩ := splitCore_part (thread_core h).2.2
  have hx : x ⊆ line := fun c hm => core_subset line (by rw [hc]; exact List.mem_append_left _ hm)
  unfold kv at hkv
  split at hkv
  · next k' v' hsplit =>
    obtain ⟨he, _⟩ := splitLast_eq_some.mp hsplit
    split at hkv
    · cases hkv
    · obtain ⟨rfl, rfl⟩ := Prod.mk.inj (Option.some.inj hkv)
      refine ⟨fun c hm => hx ?_, fun c hm => hx ?_⟩
      · rw [he]
        exact List.mem_append_left _ (trim_subset _ hm)
      · rw [he]
        exact List.mem_append_right _ (List.mem_cons_of_mem _ (trim_subset _ hm))
  · cases hkv

theorem rule_subset {place : Place} {pkg : Str} {opens : Bool} (h : roleOf place line = .outer (.rule pkg cpus opens)) :
    cpus ⊆ line := by
  obtain ⟨_, hp⟩ := outer_core h
  obtain ⟨k, v, hc, _, hpair⟩ := @parseCore_spec (core line) cpus (by rw [hp]; rfl)
  rw [hp] at hpair
  obtain rfl : cpus = valueText v := parsePair_spec (by rw [← hpair]; rfl)
  have hv : valueText v ⊆ v := fun c hm => by
    unfold valueText at hm
    replace hm := trim_subset _ hm
    split at hm
    · exact List.dropLast_subset _ hm
    · exact hm
  intro c hm
  refine core_subset line ?_
  rw [hc]
  exact List.mem_append_right _ (List.mem_cons_of_mem _ (hv hm))

/-! ## The package rule of the source -/

/-- The spec that the first header of the package states, if it states one. -/
def headerSpec (ls : List Str) (pkg : Str) : Option Str :=
  (targetScan ls pkg).pkgLine.bind fun l => (parseOuter (trim (ls.getD l.idx []))).spec

theorem lineAt_reads {i : Nat} {l : OuterLine} (h : LineAt ls i (.outer l)) : parseOuter (trim (ls.getD i [])) = l :=
  (outer_place h.split.2.2).2.2

/-- `clone_package_spec` takes the spec of the first header. -/
theorem clonePackageSpec_eq (source : Str) (hc : ClashFree ls) :
    clonePackageSpec ls (targetScan ls source) = headerSpec ls source ∧
      ∀ c, headerSpec ls source = some c → ∃ i opens, LineAt ls i (.outer (.rule source c opens)) := by
  have hstanding := (targetScan_found source hc).2.standing
  unfold clonePackageSpec headerSpec
  cases hline : (targetScan ls source).pkgLine with
  | none => exact ⟨rfl, fun c h => by cases h⟩
  | some l =>
    have hs := hstanding l hline
    cases l with
    | standalone i =>
      obtain ⟨cpus, hat⟩ := hs
      simp only [Option.bind_some, PkgLine.idx, lineAt_reads hat, OuterLine.spec, Option.some.injEq, true_and]
      exact fun c h => ⟨i, false, h ▸ hat⟩
    | openInline i =>
      obtain ⟨_, _, cpus, hat⟩ := hs
      simp only [Option.bind_some, PkgLine.idx, lineAt_reads hat, OuterLine.spec, Option.some.injEq, true_and]
      exact fun c h => ⟨i, true, h ▸ hat⟩
    | bareOpen i =>
      obtain ⟨_, _, _, hat⟩ := hs
      simp only [Option.bind_some, PkgLine.idx, lineAt_reads hat, OuterLine.spec, true_and]
      exact fun c h => by cases h
    | barePending i =>
      obtain ⟨_, pre, header, mid, brace, post, hls, hi, _, hrole, _⟩ := hs
      have hat : LineAt ls i (.outer (.pending source)) := ⟨pre, header, mid ++ brace :: post, hls, hi, hrole⟩
      simp only [Option.bind_some, PkgLine.idx, lineAt_reads hat, OuterLine.spec, true_and]
      exact fun c h => by cases h

/-- The CPUs of that spec, none where the loader refuses it. -/
def headerCpus (topo : CpuTopology) (ls : List Str) (pkg : Str) : CpuSet :=
  (((headerSpec ls pkg).bind fun c => ruleView topo pkg ([], c)).map (·.2)).getD CpuSet.new

/-- No package rule of the package has a CPU beyond those of its first header. -/
def HeaderCovers (topo : CpuTopology) (ls : List Str) (pkg : Str) : Prop :=
  ∀ e ∈ seen pkg Place.start ls, e.1 = [] → ∀ r ∈ ruleView topo pkg e,
    (headerCpus topo ls pkg).or r.2 = headerCpus topo ls pkg

instance (topo : CpuTopology) (ls : List Str) (pkg : Str) : Decidable (HeaderCovers topo ls pkg) :=
  inferInstanceAs (Decidable (∀ e ∈ _, _ → ∀ r ∈ _, _))

/-! ## The lines of the clone -/

/-- The rules of a clone, as the block states them. -/
def CloneRules.entries (rules : CloneRules) : List (Str × Str) :=
  rules.packageCpus.toList.map (fun c => ([], c)) ++ rules.threads

/-- The lines of `clone_append` behind the gap. -/
def CloneRules.chunk (rules : CloneRules) (target : Str) : List Str :=
  if rules.threads.isEmpty then rules.packageCpus.toList.map fun cpus => target ++ '=' :: cpus
  else
    let header := match rules.packageCpus with
      | some cpus => target ++ '=' :: cpus ++ [' ', '{']
      | none => bareOpenLine target
    header :: (rules.threads.map (fun t => '\t' :: t.1 ++ '=' :: t.2) ++ [['}']])

theorem cloneAppend_eq (ls : List Str) (target : Str) (rules : CloneRules) :
    ∃ gap, (∀ l ∈ gap, l = []) ∧ cloneAppend ls target rules = (ls ++ gap) ++ rules.chunk target := by
  refine ⟨if ls ≠ [] ∧ trim (ls.getLastD []) ≠ [] then [[]] else [], ?_, ?_⟩
  · split
    · exact fun l hl => List.mem_singleton.mp hl
    · exact fun l hl => by cases hl
  · obtain ⟨pc, ts⟩ := rules
    unfold cloneAppend CloneRules.chunk
    cases ts with
    | nil => cases pc <;> rfl
    | cons t ts => cases pc <;> rfl

theorem clone_blockLines {ts : List (Str × Str)} (h : ∀ t ∈ ts, ThreadParts t.1 t.2) :
    BlockLines target (ts.map fun t => '\t' :: t.1 ++ '=' :: t.2) ts := by
  induction ts with
  | nil => exact .nil
  | cons t ts ih =>
    have ht := h t (by simp)
    have hrole : roleOf (.inside target) ('\t' :: t.1 ++ '=' :: t.2) = .thread t.1 t.2 false := by
      have := @roleOf_threadLine _ _ target ht.name ht.named ht.block ht.value ht.noEq ht.noClose [] (.inl rfl)
      rwa [List.append_nil] at this
    exact .cons hrole (ih fun t' ht' => h t' (List.mem_cons_of_mem _ ht'))

/-- **The lines of the clone** state its rules and nothing else. -/
theorem clone_chunk {rules : CloneRules} (hk : Key target) (hp : PlainName target) (hany : rules.entries ≠ [])
    (hpkg : ∀ c, rules.packageCpus = some c → ∃ opens, RuleParts c opens)
    (hclosed : ∀ c, rules.packageCpus = some c → rules.threads = [] → valueOpens c = false)
    (hthreads : ∀ t ∈ rules.threads, ThreadParts t.1 t.2) :
    Chunk target (rules.chunk target) rules.entries fun r => r.singleOf target = false := by
  obtain ⟨pc, ts⟩ := rules
  cases ts with
  | nil =>
    cases pc with
    | none => exact absurd rfl hany
    | some c =>
      obtain ⟨_, hc⟩ := hpkg c rfl
      have hcl : closeLike (target ++ ['=']) = false := by
        obtain ⟨x, r, he⟩ := List.exists_cons_of_ne_nil hk.ne
        have hx : x ≠ '}' := fun h => hp.noClose (by rw [he, h]; simp)
        simp [he, closeLike, hx]
      exact packageLine_chunk (fun w => roleOf_packageLine hk hp.noOpen hcl hc.value hc.stated hc.noEq
        (hclosed c rfl rfl)) rfl
  | cons t ts =>
    have hlines := @clone_blockLines target _ hthreads
    cases pc with
    | none => exact hlines.ownBlock hk hp.noOpen
    | some c =>
      obtain ⟨_, hc⟩ := hpkg c rfl
      have hopener : ∀ w, roleOf (.outside w) (target ++ '=' :: c ++ [' ', '{']) = .outer (.rule target c true) :=
        fun w => by
          have := @roleOf_openLine _ w [] _ hk hp.noOpen hc.value hc.stated hc.noEq
          rwa [withComment_eq, show commentTail [] = [] from rfl, List.append_nil] at this
      have hfirst : ∀ q w, entriesFor q (Place.outside w, Role.outer (.rule target c true))
          = if target = q then [([], c)] else [] := fun q w => by
        by_cases hq : target = q <;> simp [entriesFor, entry, hq]
      exact hlines.chunk hopener (by simp) (fun w => rfl) hfirst rfl (fun _ _ => rfl) rfl

/-- The text with the lines of the clone behind it. -/
theorem clone_gains {rules : CloneRules} {w : Option Str} (hc : ClashFree ls) (hout : placeAfter ls = .outside w)
    (hchunk : Chunk target (rules.chunk target) rules.entries fun r => r.singleOf target = false) :
    Gains target rules.entries ls (cloneAppend ls target rules) := by
  obtain ⟨gap, hgap, heq⟩ := cloneAppend_eq ls target rules
  have hskip : ∀ l ∈ gap, skipped (trim l) = true := fun l hl => by
    rw [hgap l hl]
    decide
  have hblank := fun q => blank_lines (q := q) (placeAfter ls) hskip
  have hplace : placeAfter (ls ++ gap) = .outside w := by
    rw [placeAfter_append, (hblank target).1, hout]
  have hseen : ∀ q, seen q Place.start (ls ++ gap) = seen q Place.start ls := fun q => by
    rw [seen_append]
    show _ ++ seen q (placeAfter ls) gap = _
    rw [(hblank q).2.1, List.append_nil]
  have hroles : ∀ r ∈ rolesFrom Place.start (ls ++ gap), r ∈ rolesFrom Place.start ls ∨ r.singleOf target = false := by
    intro r hr
    rw [rolesFrom_append] at hr
    refine (List.mem_append.mp hr).imp id fun hr => ?_
    rw [(hblank target).2.2.2 r hr]
    rfl
  have hg := hchunk.gains_end (clashFreeFrom_append.mpr ⟨hc, (hblank target).2.2.1⟩) hplace
  rw [heq]
  refine ⟨hg.clashFree, ?_, fun q hq => ?_, fun r hr => ?_⟩
  · rw [← hseen target]
    exact hg.own
  · rw [hg.others q hq, hseen]
  · rcases hg.roles r hr with hr | hr
    · exact hroles r hr
    · exact .inr hr

/-! ## The normalised text -/

/-- The lines `clone_prepare` works on. -/
def cloneText (ls : List Str) (source target : Str) : List Str := normalizeSingles (normalizeSingles ls source) target

/-- What `clone_prepare` has seen of them once it gets past its first two checks. -/
structure CloneReady (ls : List Str) (source target : Str) : Prop where
  sourceEnds : (targetScan (cloneText ls source target) source).unterminated = false
  targetEnds : (targetScan (cloneText ls source target) target).unterminated = false
  free : (targetScan (cloneText ls source target) target).anyLine = false

theorem clonePrepare_eq (source target : Str) (copyPackage copyThreads : Bool) (ls : List Str) :
    clonePrepare source target copyPackage copyThreads ls =
      let text := cloneText ls source target
      let spec := clonePackageSpec text (targetScan text source)
      if (targetScan text source).unterminated || (targetScan text target).unterminated then .error .malformed
      else if (targetScan text target).anyLine then .error .conflict
      else if copyPackage && spec.isNone then .error .notFound
      else if copyThreads && (cloneThreads text source).isEmpty then .error .notFound
      else .ok (text, { packageCpus := if copyPackage then spec else none,
                        threads := if copyThreads then cloneThreads text source else [] }) := rfl

/-- An early return is never `Ok`. -/
theorem cloneLines_error {copyPackage copyThreads : Bool} {e : RuleEdit}
    (h : cloneLines source target copyPackage copyThreads ls = .error e) : e ≠ .ok := by
  unfold cloneLines at h
  rw [clonePrepare_eq] at h
  dsimp only at h
  rintro rfl
  split at h
  · cases h
  · split at h
    · cases h
    · split at h
      · cases h
      · split at h <;> cases h

theorem clonePrepare_cases {copyPackage copyThreads : Bool} {result : Except RuleEdit (List Str × CloneRules)}
    (h : clonePrepare source target copyPackage copyThreads ls = result)
    (hok : ∀ e, result = .error e → e = .notFound) :
    CloneReady ls source target ∧
      ((copyPackage = true ∧ clonePackageSpec (cloneText ls source target)
            (targetScan (cloneText ls source target) source) = none ∨
          copyThreads = true ∧ cloneThreads (cloneText ls source target) source = []) ∧ result = .error .notFound ∨
        (copyPackage = true → clonePackageSpec (cloneText ls source target)
            (targetScan (cloneText ls source target) source) ≠ none) ∧
          (copyThreads = true → cloneThreads (cloneText ls source target) source ≠ []) ∧
          result = .ok (cloneText ls source target,
            { packageCpus := if copyPackage then clonePackageSpec (cloneText ls source target)
                (targetScan (cloneText ls source target) source) else none,
              threads := if copyThreads then cloneThreads (cloneText ls source target) source else [] })) := by
  rw [clonePrepare_eq] at h
  dsimp only at h
  split at h
  · exact absurd (hok _ h.symm) (by simp)
  next hends =>
  rw [Bool.or_eq_true, not_or, Bool.not_eq_true, Bool.not_eq_true] at hends
  split at h
  · exact absurd (hok _ h.symm) (by simp)
  next hfree =>
  refine ⟨⟨hends.1, hends.2, by simpa using hfree⟩, ?_⟩
  split at h
  · next hspec => exact .inl ⟨.inl (by simpa using hspec), h.symm⟩
  next hspec =>
  split at h
  · next hthreads => exact .inl ⟨.inr (by simpa using hthreads), h.symm⟩
  · next hthreads =>
    refine .inr ⟨fun hcp hnone => hspec ?_, fun hct hnone => hthreads ?_, h.symm⟩
    · simp [hcp, hnone]
    · simp [hct, hnone]

/-- A single-line rule states a rule. -/
theorem seen_of_single (hc : ClashFree ls) (h : (targetScan ls target).singles ≠ []) :
    seen target Place.start ls ≠ [] := by
  obtain ⟨loc, hloc⟩ := List.exists_mem_of_ne_nil _ h
  obtain ⟨pre, line, post, th, cpus, opens, hls, hrole, _⟩ := (mem_singles_iff hc).mp hloc
  intro hnil
  rw [seen_eq_outlineAt, List.flatMap_eq_nil_iff] at hnil
  have := hnil _ (mem_outlineAt.mpr ⟨pre, line, post, hls, rfl⟩)
  rw [hrole] at this
  simp [entriesFor, entry] at this

/-- Where `normalize_singles` is blocked, the text ends inside a block of the package. -/
theorem blocked_unterminated (hc : ClashFree ls)
    (h : normalizeBlocked (targetScan ls source) (singleItems ls source) = true) : ∃ o, placeAfter ls = .inside o := by
  obtain ⟨hblock, hheader⟩ := targetScan_found source hc
  unfold normalizeBlocked at h
  obtain ⟨hclose, hopen⟩ := (Bool.and_eq_true _ _).mp h
  have hnone := Option.isNone_iff_eq_none.mp hclose
  cases ho : (targetScan ls source).blockOpen with
  | some o => exact ⟨_, (hblock.opened o ho hnone).place⟩
  | none =>
    -- neither a single-line rule nor a header has opened one
    exfalso
    rcases (Bool.or_eq_true _ _).mp hopen with hitem | hline
    · obtain ⟨it, hit, hopens⟩ := List.any_eq_true.mp hitem
      have hloc : it.1 ∈ (targetScan ls source).singles := by
        rw [← singleItems_locs _ _]
        exact List.mem_map_of_mem hit
      obtain ⟨pre, line, post, th, cpus, opens, hls, hrole, hat⟩ := (mem_singles_iff hc).mp hloc
      rw [hat] at hopens
      refine hblock.unseen ho (pre.length + 1) ?_
      have htake : ls.take (pre.length + 1) = pre ++ [line] := by
        rw [hls, show pre ++ line :: post = (pre ++ [line]) ++ post by simp]
        exact List.take_left' (by simp)
      rw [htake, placeAfter_concat, hrole, nextPlace, if_pos (show opens = true from hopens)]
    · cases hl : (targetScan ls source).pkgLine with
      | none =>
        rw [hl] at hline
        cases hline
      | some l =>
        have hstand := hheader.alone ho l hl
        cases l with
        | standalone i =>
          rw [hl] at hline
          cases hline
        | openInline i => cases hstand
        | bareOpen i => cases hstand
        | barePending i => cases hstand

/-- When a clone copies what it should: the names and the text are such that the loader and the scan agree, the
    two normalisations meet none of their traps, and the first header of the source stands for all its package
    rules. -/
structure CloneSafe (topo : CpuTopology) (ls : List Str) (source target : Str) (copyPackage copyThreads : Bool) :
    Prop where
  accepted : Accepted source
  trimmed : trim target = target
  clashFree : ClashFree ls
  normal : normalizeRuns ls source = true → NormalizeSafe ls source
  normalTarget : normalizeRuns (normalizeSingles ls source) target = true →
    NormalizeSafe (normalizeSingles ls source) target
  covered : copyPackage = true → HeaderCovers topo (normalizeSingles ls source) source
  closed : copyPackage = true → copyThreads = false →
    ∀ c ∈ headerSpec (normalizeSingles ls source) source, valueOpens c = false

/-- The text a clone is made from. -/
theorem clone_normal {copyPackage copyThreads : Bool} (h : CloneSafe topo ls source target copyPackage copyThreads)
    (htarget : target ≠ []) (hready : CloneReady ls source target) :
    cloneText ls source target = normalizeSingles ls source ∧ Kept source ls (normalizeSingles ls source) ∧
      (targetScan (normalizeSingles ls source) source).singles = [] ∧
      (∃ w, placeAfter (normalizeSingles ls source) = .outside w) ∧
      seen target Place.start (normalizeSingles ls source) = [] := by
  have hkept := normalizeSingles_kept h.clashFree h.normal
  -- the target has no lines, so its normalisation finds nothing to move
  have hidle : cloneText ls source target = normalizeSingles ls source := by
    unfold cloneText
    by_cases hrun : normalizeRuns (normalizeSingles ls source) target = true
    · -- the lines that were moved would be lines of the target
      exfalso
      have hr := normalizeSingles_reshaped (h.normalTarget hrun) hrun
      have hnone : seen target Place.start (normalizeSingles (normalizeSingles ls source) target) = [] := by
        rw [← callsFor_eq_seen hr.clashFree]
        exact callsFor_nil htarget hr.clashFree hready.free
      obtain ⟨loc, locs, hlocs, _⟩ := normalizeSingles_runs hrun
      refine seen_of_single hkept.clashFree (by rw [hlocs]; simp) ?_
      exact List.Perm.eq_nil (hnone ▸ hr.own.symm)
    · exact normalizeSingles_idle (Bool.eq_false_iff.mpr hrun)
  have hends := hready.sourceEnds
  have hfree := hready.free
  rw [hidle] at hends hfree
  have hout : ∃ w, placeAfter (normalizeSingles ls source) = .outside w := by
    cases hp : placeAfter (normalizeSingles ls source) with
    | outside w => exact ⟨w, rfl⟩
    | inside o =>
      rw [(targetScan_unterminated hkept.clashFree).mpr ⟨o, hp⟩] at hends
      cases hends
  refine ⟨hidle, hkept, ?_, hout, ?_⟩
  · -- single-line rules are left only where the source block has no end
    by_cases hrun : normalizeRuns ls source = true
    · have hr := normalizeSingles_reshaped (h.normal hrun) hrun
      exact singles_eq_nil hr.clashFree hr.noSingles
    · have hstill := Bool.eq_false_iff.mpr hrun
      rw [normalizeSingles_idle hstill] at hout ⊢
      rcases Bool.and_eq_false_iff.mp hstill with hnone | hblocked
      · rw [← singleItems_locs _ _, List.map_eq_nil_iff]
        simpa using hnone
      · obtain ⟨o, ho⟩ := blocked_unterminated h.clashFree (by simpa using hblocked)
        obtain ⟨w, hw⟩ := hout
        rw [ho] at hw
        cases hw
  · rw [← callsFor_eq_seen hkept.clashFree]
    exact callsFor_nil htarget hkept.clashFree hfree

/-! ## The result -/

/-- What a clone comes to, in the rules loaded before and after. -/
structure Cloned (topo : CpuTopology) (source target : Str) (copyPackage copyThreads : Bool) (text written : Str) :
    Prop where
  package : ∀ create, if copyPackage then
      (packageRules target (loadLines create topo (lines written)).rules).1 =
        (packageRules source (loadLines create topo (lines written)).rules).1
    else rulesOf [] (rulesFor target (loadLines create topo (lines written)).rules) = []
  threads : ∀ create thread, thread ≠ [] → if copyThreads then
      unionOf (rulesOf thread (rulesFor target (loadLines create topo (lines written)).rules)) =
        unionOf (rulesOf thread (rulesFor source (loadLines create topo (lines written)).rules))
    else rulesOf thread (rulesFor target (loadLines create topo (lines written)).rules) = []
  others : ∀ create create' q, q ≠ target → (rulesFor q (loadLines create' topo (lines written)).rules).Perm
    (rulesFor q (loadLines create topo (lines text)).rules)

/-- One of the selected categories of the source is empty. -/
def NothingToClone (topo : CpuTopology) (source : Str) (copyPackage copyThreads : Bool) (text : Str) : Prop :=
  ∀ create, copyPackage = true ∧ rulesOf [] (rulesFor source (loadLines create topo (lines text)).rules) = [] ∨
    copyThreads = true ∧ rulesBut [] (rulesFor source (loadLines create topo (lines text)).rules) = []

theorem packageNameOk_name (h : packageNameOk target = true) (ht : trim target = target) : Name maxPkgLen target := by
  have hplain := (Bool.and_eq_true _ _).mp ((Bool.and_eq_true _ _).mp h).1
  have := @tokenOk_name target maxPkgLen (by rw [ht]; exact hplain.1)
  rwa [ht] at this

/-- The rules that the text before the clone holds for a package. -/
theorem rulesFor_source (hc : ClashFree ls) (create : Nat → Str → Bool) (topo : CpuTopology) (q : Str) :
    rulesFor q (loadLines create topo ls).rules = (seen q Place.start ls).filterMap (ruleView topo q) := by
  rw [rulesFor_eq, callsFor_eq_seen hc]

/-- An empty set of CPUs is no rule. -/
theorem ruleView_count {q : Str} {e : Str × Str} {r : Str × CpuSet} (h : ruleView topo q e = some r) :
    r.2 ≠ CpuSet.new := by
  obtain ⟨rule, hrule, rfl⟩ := Option.map_eq_some_iff.mp h
  have hcount : rule.cpus.count ≠ 0 := by
    unfold addRule at hrule
    dsimp only at hrule
    split at hrule
    · cases hrule
    split at hrule
    · cases hrule
    split at hrule
    · cases hrule
    split at hrule
    · cases hrule
    next hcount =>
    obtain rfl := Option.some.inj hrule
    exact hcount
  intro hnew
  refine hcount (CpuSet.count_eq_zero.mpr fun i hi => ?_)
  rw [show rule.cpus = CpuSet.new from hnew]
  simp [CpuSet.new]

/-- A header without a spec stands for no package rule at all. -/
theorem covered_none {pkg : Str} (hcover : HeaderCovers topo ls pkg) (hnone : headerSpec ls pkg = none) :
    ((seen pkg Place.start ls).filter fun e => e.1 = []).filterMap (ruleView topo pkg) = [] := by
  have hcpus : headerCpus topo ls pkg = CpuSet.new := by rw [headerCpus, hnone]; rfl
  rw [List.filterMap_eq_nil_iff]
  intro e he
  obtain ⟨hmem, hname⟩ := List.mem_filter.mp he
  cases hv : ruleView topo pkg e with
  | none => rfl
  | some r =>
    have := hcover e hmem (by simpa using hname) r hv
    rw [hcpus, CpuSet.new_or] at this
    exact absurd this (ruleView_count hv)

theorem seen_of_header {i : Nat} {c : Str} {opens : Bool} (h : LineAt ls i (.outer (.rule source c opens))) :
    ([], c) ∈ seen source Place.start ls := by
  obtain ⟨place, hat⟩ := lineAt_iff.mp h
  rw [seen_eq_outlineAt]
  exact List.mem_flatMap.mpr ⟨_, hat, by simp [entriesFor, entry]⟩

/-- **The package rules together** are those of the first header. -/
theorem header_union {c : Str} (hcover : HeaderCovers topo ls source) (hspec : headerSpec ls source = some c)
    (hmem : ([], c) ∈ seen source Place.start ls) :
    unionOf (((seen source Place.start ls).filter fun e => e.1 = []).filterMap (ruleView topo source)) =
      headerCpus topo ls source := by
  have hin : ([], c) ∈ (seen source Place.start ls).filter fun e => e.1 = [] := List.mem_filter.mpr ⟨hmem, by simp⟩
  have hcover' : ∀ r ∈ ((seen source Place.start ls).filter fun e => e.1 = []).filterMap (ruleView topo source),
      (headerCpus topo ls source).or r.2 = headerCpus topo ls source := by
    intro r hr
    obtain ⟨e, he, hv⟩ := List.mem_filterMap.mp hr
    obtain ⟨hmem, hname⟩ := List.mem_filter.mp he
    exact hcover e hmem (by simpa using hname) r hv
  have hcpus : headerCpus topo ls source = ((ruleView topo source ([], c)).map (·.2)).getD CpuSet.new := by
    rw [headerCpus, hspec]
    rfl
  generalize hR : ((seen source Place.start ls).filter fun e => e.1 = []).filterMap (ruleView topo source) = R
    at hcover' ⊢
  cases hv : ruleView topo source ([], c) with
  | none =>
    -- refused by the loader, and then nothing else is accepted either
    rw [hv] at hcpus
    have hnil : R = [] := by
      cases R with
      | nil => rfl
      | cons r R =>
        have hr := hcover' r (by simp)
        rw [hcpus] at hr
        have hr' : r.2 = CpuSet.new := by simpa [CpuSet.new_or] using hr
        have hin : r ∈ ((seen source Place.start ls).filter fun e => e.1 = []).filterMap (ruleView topo source) := by
          rw [hR]
          simp
        obtain ⟨_, _, hview⟩ := List.mem_filterMap.mp hin
        exact absurd hr' (ruleView_count hview)
    rw [hnil, hcpus]
    rfl
  | some r =>
    rw [hv] at hcpus
    have hr : r ∈ R := hR ▸ List.mem_filterMap.mpr ⟨_, hin, hv⟩
    have hcpus' : headerCpus topo ls source = r.2 := hcpus
    rw [unionOf_perm (List.perm_cons_erase hr), hcpus']
    exact unionOf_covered fun r' hr' => hcpus' ▸ hcover' r' (List.mem_of_mem_erase hr')

theorem chunk_unbroken {rules : CloneRules} (htarget : '\n' ∉ target)
    (hpkg : ∀ c, rules.packageCpus = some c → '\n' ∉ c) (hthreads : ∀ t ∈ rules.threads, '\n' ∉ t.1 ∧ '\n' ∉ t.2) :
    Unbroken (rules.chunk target) := by
  obtain ⟨pc, ts⟩ := rules
  have hline : ∀ t ∈ ts, '\n' ∉ '\t' :: t.1 ++ '=' :: t.2 := fun t ht => by
    have := hthreads t ht
    simp [this.1, this.2]
  have hblock : Unbroken (ts.map (fun t => '\t' :: t.1 ++ '=' :: t.2) ++ [['}']]) := by
    refine Unbroken.append (fun l hl => ?_) (unbroken_nil.cons (by decide))
    obtain ⟨t, ht, rfl⟩ := List.mem_map.mp hl
    exact hline t ht
  have hpair : ∀ c, pc = some c → ∀ w : Str, '\n' ∉ w → '\n' ∉ target ++ '=' :: c ++ w := fun c hc w hw =>
    pairLine_unbroken htarget (hpkg c hc) hw
  cases ts with
  | nil =>
    cases pc with
    | none => exact unbroken_nil
    | some c => exact unbroken_nil.cons (by simpa using hpair c rfl [] (by simp))
  | cons t ts =>
    cases pc with
    | none => exact hblock.cons (bareOpenLine_unbroken htarget)
    | some c => exact hblock.cons (hpair c rfl _ (by decide))

theorem cloneAppend_unbroken {rules : CloneRules} (hls : Unbroken ls) (hchunk : Unbroken (rules.chunk target)) :
    Unbroken (cloneAppend ls target rules) := by
  obtain ⟨gap, hgap, heq⟩ := cloneAppend_eq ls target rules
  rw [heq]
  exact (hls.append fun l hl => by simp [hgap l hl]).append hchunk

theorem entries_package {rules : CloneRules} (h : ∀ t ∈ rules.threads, t.1 ≠ []) :
    (rules.entries.filter fun e => e.1 = []) = rules.packageCpus.toList.map fun c => ([], c) := by
  have hthreads : (rules.threads.filter fun e => e.1 = []) = [] :=
    List.filter_eq_nil_iff.mpr fun t ht => by simpa using h t ht
  rw [CloneRules.entries, List.filter_append, hthreads, List.append_nil, List.filter_eq_self]
  intro e he
  obtain ⟨c, _, rfl⟩ := List.mem_map.mp he
  simp

theorem entries_thread {rules : CloneRules} (h : thread ≠ []) :
    (rules.entries.filter fun e => e.1 = thread) = rules.threads.filter fun e => e.1 = thread := by
  have hpkg : ((rules.packageCpus.toList.map fun c => (([] : Str), c)).filter fun e => e.1 = thread) = [] := by
    refine List.filter_eq_nil_iff.mpr fun e he => ?_
    obtain ⟨c, _, rfl⟩ := List.mem_map.mp he
    simpa using h.symm
  rw [CloneRules.entries, List.filter_append, hpkg, List.nil_append]

/-- The rules of one thread name, as they are written. -/
theorem written_rules {q : Str} {es : List (Str × Str)} (hc : ClashFree ls') (hplain : Unbroken ls')
    (hown : (seen q Place.start ls').Perm es) (create : Nat → Str → Bool) (topo : CpuTopology) (thread : Str) :
    (rulesOf thread (rulesFor q (loadLines create topo (lines (unlines ls'))).rules)).Perm
      ((es.filter fun e => e.1 = thread).filterMap (ruleView topo q)) := by
  rw [rulesFor_written hc hplain, rulesOf, filter_ruleView fun n => n = thread]
  exact (hown.filter _).filterMap _

/-- The rules a clone takes from the normalised text. -/
structure Taken (ls : List Str) (source : Str) (copyPackage copyThreads : Bool) (rules : CloneRules) : Prop where
  package : rules.packageCpus = if copyPackage then headerSpec ls source else none
  threads : rules.threads = if copyThreads then cloneThreads ls source else []
  stated : copyPackage = true → headerSpec ls source ≠ none
  named : copyThreads = true → cloneThreads ls source ≠ []

theorem Taken.spec {copyPackage copyThreads : Bool} {rules : CloneRules} {c : Str}
    (h : Taken ls source copyPackage copyThreads rules) (hc : rules.packageCpus = some c) :
    copyPackage = true ∧ headerSpec ls source = some c := by
  rw [h.package] at hc
  split at hc
  · next hcp => exact ⟨hcp, hc⟩
  · cases hc

theorem Taken.threadLine {copyPackage copyThreads : Bool} {rules : CloneRules} {t : Str × Str}
    (h : Taken ls source copyPackage copyThreads rules) (hc : ClashFree ls)
    (hnone : (targetScan ls source).singles = []) (ht : t ∈ rules.threads) :
    ∃ line ∈ ls, ∃ place closed, roleOf place line = .thread t.1 t.2 closed := by
  rw [h.threads] at ht
  split at ht
  · exact cloned_line hc hnone ht
  · cases ht

/-- The clone of the rules taken, and what it adds to the text. -/
theorem Taken.gains {copyPackage copyThreads : Bool} {rules : CloneRules} {w : Option Str}
    (h : Taken ls source copyPackage copyThreads rules) (hc : ClashFree ls)
    (hnone : (targetScan ls source).singles = []) (hend : placeAfter ls = .outside w) (hname : Name maxPkgLen target)
    (hplain : PlainName target) (hflags : copyPackage = true ∨ copyThreads = true)
    (hclosed : copyPackage = true → copyThreads = false → ∀ c ∈ headerSpec ls source, valueOpens c = false) :
    Gains target rules.entries ls (cloneAppend ls target rules) := by
  refine clone_gains hc hend (clone_chunk hname.key hplain ?_ (fun c hspec => ?_) (fun c hspec hthreads => ?_)
    fun t ht => ?_)
  · -- one of the two categories is there
    intro hnil
    obtain ⟨hpkgs, hthreads⟩ := List.append_eq_nil_iff.mp hnil
    rcases hflags with hcp | hct
    · have := h.package
      rw [if_pos hcp] at this
      obtain ⟨c, hspec⟩ := Option.ne_none_iff_exists'.mp (h.stated hcp)
      rw [this, hspec] at hpkgs
      cases hpkgs
    · have := h.threads
      rw [if_pos hct] at this
      exact h.named hct (this ▸ hthreads)
  · obtain ⟨i, opens, hat⟩ := (clonePackageSpec_eq source hc).2 c (h.spec hspec).2
    exact ⟨opens, rule_parts hat.split.2.2⟩
  · obtain ⟨hcp, hheader⟩ := h.spec hspec
    refine hclosed hcp ?_ c hheader
    by_contra hct
    have hct' : copyThreads = true := by simpa using hct
    have := h.threads
    rw [if_pos hct'] at this
    exact h.named hct' (this ▸ hthreads)
  · obtain ⟨line, _, place, closed, hrole⟩ := h.threadLine hc hnone ht
    exact thread_parts hrole

theorem Taken.unbroken {copyPackage copyThreads : Bool} {rules : CloneRules}
    (h : Taken ls source copyPackage copyThreads rules) (hc : ClashFree ls)
    (hnone : (targetScan ls source).singles = []) (hname : Name maxPkgLen target) (hls : Unbroken ls) :
    Unbroken (cloneAppend ls target rules) := by
  refine cloneAppend_unbroken hls (chunk_unbroken hname.no_newline (fun c hspec hm => ?_) fun t ht => ?_)
  · obtain ⟨i, opens, pre, line, post, rfl, _, hrole⟩ := (clonePackageSpec_eq source hc).2 c (h.spec hspec).2
    exact hls line (by simp) (rule_subset hrole hm)
  · obtain ⟨line, hmem, place, closed, hrole⟩ := h.threadLine hc hnone ht
    obtain ⟨hk, hv⟩ := thread_subset hrole
    exact ⟨fun hm => hls line hmem (hk hm), fun hm => hls line hmem (hv hm)⟩

/-- An `Ok` of `clone_prepare` and `clone_append`. -/
theorem clone_taken {copyPackage copyThreads : Bool} (hname : target ≠ [])
    (hsafe : CloneSafe topo ls source target copyPackage copyThreads)
    (hok : cloneLines source target copyPackage copyThreads ls = .ok ls') :
    CloneReady ls source target ∧ ∃ rules, Taken (normalizeSingles ls source) source copyPackage copyThreads rules ∧
      ls' = cloneAppend (normalizeSingles ls source) target rules := by
  unfold cloneLines at hok
  cases hp : clonePrepare source target copyPackage copyThreads ls with
  | error e =>
    rw [hp] at hok
    cases hok
  | ok p =>
    rw [hp] at hok
    obtain ⟨hready, h | ⟨hspec, hthreads, hresult⟩⟩ := clonePrepare_cases hp (fun e he => by cases he)
    · cases h.2
    obtain ⟨htext, hkept, _⟩ := clone_normal hsafe hname hready
    obtain ⟨hheader, _⟩ := clonePackageSpec_eq source hkept.clashFree
    rw [htext, hheader] at hspec hresult
    rw [htext] at hthreads
    obtain rfl := Except.ok.inj hresult
    exact ⟨hready, _, ⟨rfl, rfl, hspec, hthreads⟩, (Except.ok.inj hok).symm⟩

/-- **A clone that is made** holds the selected rules of the source, and changes no other package. -/
theorem clone_made {copyPackage copyThreads : Bool} {text : Str} (hdiff : source ≠ target)
    (hname : Name maxPkgLen target) (hplain : PlainName target) (hflags : copyPackage = true ∨ copyThreads = true)
    (hsafe : CloneSafe topo (lines text) source target copyPackage copyThreads)
    (hok : cloneLines source target copyPackage copyThreads (lines text) = .ok ls') :
    Cloned topo source target copyPackage copyThreads text (unlines ls') := by
  obtain ⟨hready, rules, htaken, rfl⟩ := clone_taken hname.ne hsafe hok
  obtain ⟨_, hkept, hsingles, ⟨w, hend⟩, hfree⟩ := clone_normal hsafe hname.ne hready
  have hgains := htaken.gains hkept.clashFree hsingles hend hname hplain hflags hsafe.closed
  have hlines := htaken.unbroken hkept.clashFree hsingles hname (normalizeSingles_unbroken (unbroken_lines text))
  have hown := hgains.own
  rw [hfree, List.append_nil] at hown
  -- both names are accepted, so a rule reads alike under either
  have hview : ruleView topo target = ruleView topo source :=
    funext (ruleView_accepted hname.accepted hsafe.accepted topo)
  have htarget := written_rules hgains.clashFree hlines hown
  have hsame := written_rules hgains.clashFree hlines (List.Perm.of_eq (hgains.others source hdiff))
  have hnames : ∀ t ∈ rules.threads, t.1 ≠ [] := fun t ht => by
    obtain ⟨line, _, place, closed, hrole⟩ := htaken.threadLine hkept.clashFree hsingles ht
    exact (thread_parts hrole).named
  refine ⟨fun create => ?_, fun create thread hth => ?_, fun create create' q hq => ?_⟩
  · -- the package rules: one header was copied, and it covers the others
    have hpkg := htarget create topo []
    rw [entries_package hnames, htaken.package, hview] at hpkg
    split
    · next hcp =>
      rw [if_pos hcp] at hpkg
      obtain ⟨c, hspec⟩ := Option.ne_none_iff_exists'.mp (htaken.stated hcp)
      obtain ⟨i, opens, hat⟩ := (clonePackageSpec_eq source hkept.clashFree).2 c hspec
      rw [packageRules_union, packageRules_union]
      refine (unionOf_perm hpkg).trans (Eq.trans ?_ (unionOf_perm (hsame create topo [])).symm)
      rw [header_union (hsafe.covered hcp) hspec (seen_of_header hat), headerCpus, hspec]
      cases hv : ruleView topo source ([], c) with
      | none => simp [hv, unionOf]
      | some r => simp [hv, unionOf, CpuSet.new_or]
    · next hcp =>
      rw [if_neg hcp] at hpkg
      exact List.Perm.eq_nil hpkg
  · -- the thread rules: all entries were copied, in their order
    have hthread := htarget create topo thread
    rw [entries_thread hth, htaken.threads, hview] at hthread
    split
    · next hct =>
      have hfilter : ((seen source Place.start (normalizeSingles (lines text) source)).filter fun e => e.1 ≠ []).filter
          (fun e => e.1 = thread) = (seen source Place.start (normalizeSingles (lines text) source)).filter
            fun e => e.1 = thread := by
        rw [List.filter_filter]
        refine List.filter_congr fun e _ => ?_
        by_cases he : e.1 = thread <;> simp [he, hth]
      rw [if_pos hct, cloned_threads hkept.clashFree hsingles, hfilter] at hthread
      exact (unionOf_perm hthread).trans (unionOf_perm (hsame create topo thread)).symm
    · next hct =>
      rw [if_neg hct] at hthread
      exact List.Perm.eq_nil hthread
  · rw [rulesFor_written hgains.clashFree hlines, hgains.others q hq, rulesFor_source hsafe.clashFree]
    by_cases hqs : q = source
    · subst hqs
      exact hkept.own.filterMap _
    · rw [hkept.others q hqs]

/-- **A clone that is refused** for want of rules: the source has none of a selected category. -/
theorem clone_refused {copyPackage copyThreads : Bool} {text : Str} (hname : target ≠ [])
    (hsafe : CloneSafe topo (lines text) source target copyPackage copyThreads)
    (hrefused : cloneLines source target copyPackage copyThreads (lines text) = .error .notFound) :
    NothingToClone topo source copyPackage copyThreads text := by
  have hprep : clonePrepare source target copyPackage copyThreads (lines text) = .error .notFound := by
    unfold cloneLines at hrefused
    cases hp : clonePrepare source target copyPackage copyThreads (lines text) with
    | error e =>
      rw [hp] at hrefused
      rw [Except.error.inj (show Except.error e = Except.error RuleEdit.notFound from hrefused)]
    | ok p =>
      rw [hp] at hrefused
      cases hrefused
  obtain ⟨hready, ⟨hempty, _⟩ | ⟨_, _, h⟩⟩ := clonePrepare_cases hprep (fun e he => by cases he; rfl)
  · obtain ⟨htext, hkept, hsingles, _, _⟩ := clone_normal hsafe hname hready
    rw [htext, (clonePackageSpec_eq source hkept.clashFree).1] at hempty
    intro create
    rw [rulesFor_source hsafe.clashFree]
    rcases hempty with ⟨hcp, hnone⟩ | ⟨hct, hnone⟩
    · refine .inl ⟨hcp, ?_⟩
      have hcovered := covered_none (hsafe.covered hcp) hnone
      rw [rulesOf, filter_ruleView fun n => n = []]
      exact List.Perm.eq_nil (hcovered ▸ (hkept.own.symm.filter _).filterMap _)
    · refine .inr ⟨hct, ?_⟩
      rw [cloned_threads hkept.clashFree hsingles] at hnone
      rw [rulesBut, filter_ruleView fun n => n ≠ []]
      have hfilter := List.Perm.eq_nil (hnone ▸ hkept.own.symm.filter fun e : Str × Str => e.1 ≠ [])
      rw [hfilter]
      rfl
  · cases h

end AppOptR
