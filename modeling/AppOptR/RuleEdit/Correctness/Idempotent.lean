import AppOptR.RuleEdit.Correctness.LinesReturn
import AppOptR.RuleEdit.Correctness.NamedHeaders

/-!
# `RuleEdit.Correctness.Idempotent` — `rule_upsert` twice

The second of two equal calls reads the lines the first has written, finds its own rule on one of them and swaps
the spec there. So it writes the same file exactly when the spec is one word (`SpecWritten.swap_again`), with
one exception: a header with a comment swallows the brace that is put behind it, and the second call puts the
rule in once more (`swallowed_again`, `grows_without_occurrence`). `UpsertRegular` names the texts on which an
edit runs into none of the other traps.
-/

namespace AppOptR

open Text

variable {pkg thread cpus : Str} {ls ls' : List Str} {topo : CpuTopology}

/-! ## The lines of the call -/

/-- The line whose spec the edit swaps, if it swaps one. -/
def swapLine (t : Target) (thread : Str) : List Nat :=
  if thread = [] then statingLine t else ((t.locs thread).getLast?.map (·.idx)).toList

/-- The edit of normalised lines runs into none of the traps that are not about writing a spec: the swapped line
    keeps its place in the block structure, no removed line keeps a waiting header and a bare `{` apart, and
    single-line rules that were left alone keep their reason or go together. -/
structure EditRegular (ls : List Str) (pkg thread : Str) : Prop where
  keeps : ∀ e ∈ outlineAt ls, e.1 ∈ swapLine (targetScan ls pkg) thread → SwapKeeps (ls.getD e.1 []) e.2.2
  apart : ¬ Bridged ls (erasedOthers ls pkg thread)
  alone : thread ≠ [] → (targetScan ls pkg).singles ≠ [] →
    (∃ i, (targetScan ls pkg).pkgLine = some (.standalone i)) → (targetScan ls pkg).locs thread ≠ [] ∧
      ((∀ loc ∈ ((targetScan ls pkg).locs thread).dropLast, loc.opens = false) ∨
        ∀ loc ∈ (targetScan ls pkg).singles, loc ∈ ((targetScan ls pkg).locs thread).dropLast)

/-- The header under which a new block is put has no comment. -/
def HeaderBare (ls : List Str) (pkg thread : Str) : Prop :=
  thread ≠ [] → (targetScan ls pkg).locs thread = [] → (targetScan ls pkg).blockClose = none →
    ∀ i, (targetScan ls pkg).pkgLine = some (.standalone i) → commentAt (ls.getD i []) = none

/-! ## The thread half -/

/-- Where a thread without a rule gets one, no single-line rule of the package is left. -/
theorem inserted_singles (hth : thread ≠ []) (hc : ClashFree ls) (hidle : normalizeRuns ls pkg = false)
    (hreg : EditRegular ls pkg thread) (hnone : (targetScan ls pkg).locs thread = [])
    (h : upsertThread ls (targetScan ls pkg) pkg thread cpus = .ok ls') : (targetScan ls pkg).singles = [] := by
  by_contra hne
  have hleft := (normalizeRuns_eq_false.mp hidle).resolve_left hne
  have hun : (targetScan ls pkg).unterminated = true :=
    (targetScan_unterminated hc).mpr ⟨pkg, hleft.place hc⟩
  unfold upsertThread at h
  dsimp only at h
  rw [hnone, List.getLast?_nil, hleft.1] at h
  dsimp only at h
  split at h
  · next heq => cases heq
  · next i _ hline => exact (hreg.alone hth hne ⟨i, hline⟩).1 hnone
  · rw [if_pos hun] at h
    cases h

/-- The inserted line states its spec. -/
theorem threadLine_written {max : Nat} (hn : Name max thread) (hspec : Spec topo cpus) :
    SpecWritten cpus ('\t' :: thread ++ '=' :: cpus) := by
  have htab : Blank ['\t'] := fun c hm => by
    rw [List.mem_singleton.mp hm]
    rfl
  have hline := @pairLine_written cpus [] topo ['\t'] thread [] hn.commentFree htab hspec (by simp) (.inl rfl)
  simpa using hline

/-- **A new rule** of a thread is the line of the second edit. -/
theorem inserted_lands (hn : Name maxPkgLen pkg) (hp : PlainName pkg) (hnt : Name maxThreadLen thread)
    (hpt : PlainName thread) (hspec : Spec topo cpus) (hc : ClashFree ls) (hidle : normalizeRuns ls pkg = false)
    (hreg : EditRegular ls pkg thread) (hbare : HeaderBare ls pkg thread)
    (hnone : (targetScan ls pkg).locs thread = [])
    (h : upsertThread ls (targetScan ls pkg) pkg thread cpus = .ok ls') :
    ∃ i, Lands pkg thread ls' i ∧ SpecWritten cpus (ls'.getD i []) := by
  have hpkg := hn.key.ne
  obtain ⟨hg, pre, post, hsplit, hin⟩ := inserted_gains hn.key hp hnt hpt hspec hc hnone (hbare hnt.ne hnone) h
  have hrole : roleOf (.inside pkg) ('\t' :: thread ++ '=' :: cpus) = .thread thread cpus false := by
    have := @roleOf_threadLine _ _ pkg ⟨hnt.head, hnt.last, hnt.key.plain⟩ hnt.ne (hpt.blockName hnt) hspec.solid
      (hspec.unmarked.not_mem (by decide)) (hspec.unmarked.not_mem (by decide)) [] (.inl rfl)
    rwa [List.append_nil] at this
  have hnil := inserted_singles hnt.ne hc hidle hreg hnone h
  refine ⟨pre.length, gains_lands hnt.ne hc hnil hnone hg hsplit hin hrole, ?_⟩
  rw [hsplit, getD_after]
  exact threadLine_written hnt hspec

theorem swapLine_last {last : ThreadLoc} (hth : thread ≠ [])
    (hlast : ((targetScan ls pkg).locs thread).getLast? = some last) :
    last.idx ∈ swapLine (targetScan ls pkg) thread := by
  rw [swapLine, if_neg hth, hlast]
  exact List.mem_singleton_self _

/-- Where the swapped line of the thread keeps its place, the edit keeps the last occurrence. -/
theorem EditRegular.keepsLast (hreg : EditRegular ls pkg thread) (hth : thread ≠ [])
    (hc : ClashFree ls) (hspec : Spec topo cpus) {last : ThreadLoc}
    (hlast : ((targetScan ls pkg).locs thread).getLast? = some last) :
    ∃ c, KeepsLast pkg thread cpus c ls last := by
  obtain ⟨pre, line, post, hls, ht⟩ := (mem_locs_iff hc).mp (List.mem_of_getLast? hlast)
  have hidx : last.idx = pre.length := threadOf_idx ht
  have hget : ls.getD pre.length [] = line := by rw [hls, getD_after]
  have hk := hreg.keeps _ (mem_outlineAt.mpr ⟨pre, line, post, hls, rfl⟩) (hidx ▸ swapLine_last hth hlast)
  rw [hget] at hk
  obtain ⟨c₀, hspec₀⟩ := threadOf_spec ht
  obtain ⟨c, hnew⟩ := roleOf_swapped hspec₀ hk hspec
  refine ⟨c, hc, hlast, hreg.apart, fun pre' line' post' hls' hidx' => ?_⟩
  obtain ⟨rfl, hrest⟩ := List.append_inj (hls'.symm.trans hls) (hidx'.trans hidx)
  obtain ⟨rfl, _⟩ := List.cons.inj hrest
  exact hnew

/-- **The thread half of `rule_upsert`** leaves one line that states the rule. -/
theorem upsertThread_lands (hn : Name maxPkgLen pkg) (hp : PlainName pkg) (hnt : Name maxThreadLen thread)
    (hpt : PlainName thread) (hspec : Spec topo cpus) (hc : ClashFree ls) (hidle : normalizeRuns ls pkg = false)
    (hreg : EditRegular ls pkg thread) (hbare : HeaderBare ls pkg thread)
    (h : upsertThread ls (targetScan ls pkg) pkg thread cpus = .ok ls') :
    ∃ i, Lands pkg thread ls' i ∧ SpecWritten cpus (ls'.getD i []) := by
  have hpkg := hn.key.ne
  cases hlast : ((targetScan ls pkg).locs thread).getLast? with
  | none => exact inserted_lands hn hp hnt hpt hspec hc hidle hreg hbare (List.getLast?_eq_none_iff.mp hlast) h
  | some last =>
    have hmem := List.mem_of_getLast? hlast
    unfold upsertThread at h
    dsimp only at h
    rw [hlast] at h
    obtain rfl := Except.ok.inj h
    rw [upsertLocs_run hlast (locs_ascending thread) fun loc hloc => thread_idx_lt (mem_locs.mp hloc)]
    obtain ⟨c, hkeeps⟩ := hreg.keepsLast hnt.ne hc hspec hlast
    obtain ⟨i, hlands, hline⟩ := hkeeps.lands hnt.ne hidle fun hne hst => (hreg.alone hnt.ne hne hst).2
    refine ⟨i, hlands, ?_⟩
    show SpecWritten cpus ((lastKeptText ls pkg thread cpus last ls).getD i [])
    rw [hline]
    obtain ⟨pre, line, post, hls, ht⟩ := (mem_locs_iff hc).mp hmem
    obtain ⟨c₀, hspec₀⟩ := threadOf_spec ht
    obtain ⟨hshown, heq⟩ := eq_of_spec hspec₀
    have hget : ls.getD last.idx [] = line := by rw [show last.idx = pre.length from threadOf_idx ht, hls, getD_after]
    rw [hget]
    exact specSwap_written hshown heq hspec

/-! ## A header with a comment -/

theorem spliceAt_length (ls : List Str) (i : Nat) (chunk : List Str) :
    (spliceAt ls i chunk).length = ls.length + chunk.length := by
  have hsplit := congrArg List.length (List.take_append_drop i ls)
  rw [List.length_append] at hsplit
  rw [spliceAt, List.length_append, List.length_append]
  omega

/-- **A text in which the thread does not occur** grows with the edit. -/
theorem grows_without_occurrence (hth : thread ≠ []) (hidle : normalizeRuns ls pkg = false)
    (hnone : (targetScan ls pkg).locs thread = []) (h : upsertLines pkg thread cpus ls = .ok ls') :
    ls.length < ls'.length := by
  unfold upsertLines at h
  rw [normalizeSingles_idle hidle] at h
  dsimp only at h
  rw [if_neg (by simpa using hth), upsertThread] at h
  dsimp only at h
  rw [hnone, List.getLast?_nil] at h
  dsimp only at h
  split at h
  · obtain rfl := Except.ok.inj h
    simp [spliceAt_length]
  · obtain rfl := Except.ok.inj h
    simp [spliceAt_length]
  · split at h
    · cases h
    · obtain rfl := Except.ok.inj h
      simp

/-- Outside a block the line of a thread rule is a rule of the package of that name. -/
theorem threadLine_outside (hnt : Name maxThreadLen thread) (hpt : PlainName thread) (hspec : Spec topo cpus)
    (w : Option Str) : roleOf (.outside w) ('\t' :: thread ++ '=' :: cpus) = .outer (.rule thread cpus false) := by
  have hline := @packageLine_role thread cpus topo hnt.key hpt (hpt.blockName hnt).2.1 hspec w
  have htab : Blank ['\t'] := fun c hm => by
    rw [List.mem_singleton.mp hm]
    rfl
  have htrim : trim ('\t' :: thread ++ '=' :: cpus) = trim (thread ++ '=' :: cpus) := trim_blank_append htab _
  unfold roleOf at hline ⊢
  rw [htrim]
  exact hline

/-- The lines put under a header whose comment swallows the brace: two package rules and a `}` that closes nothing. -/
theorem swallowed_lines (hth : thread ≠ []) {w : Option Str} {new rule c : Str}
    (hnew : roleOf (.outside w) new = .outer (.rule pkg c false))
    (hrule : roleOf (.outside none) rule = .outer (.rule thread cpus false)) :
    placeFrom (.outside w) [new, rule, ['}']] = .outside none ∧
      (seen pkg (.outside w) [new, rule, ['}']]).filter (fun x => x.1 = thread) = [] ∧
      ClashFreeFrom (.outside w) [new, rule, ['}']] ∧
      ∀ r ∈ rolesFrom (.outside w) [new, rule, ['}']], r.singleOf pkg = false := by
  have hend : roleOf (.outside none) ['}'] = .outer .junk := by decide
  have hfirst : nextPlace (.outside w) (.outer (.rule pkg c false)) = .outside none := rfl
  have hsecond : nextPlace (.outside none) (.outer (.rule thread cpus false)) = .outside none := rfl
  have hother : ∀ w k c,
      (entriesFor pkg (.outside w, .outer (.rule k c false))).filter (fun x => x.1 = thread) = [] := by
    intro w k c
    by_cases hq : k = pkg <;> simp [entriesFor, entry, hq, Ne.symm hth]
  refine ⟨?_, ?_, ⟨fun h => ?_, ?_⟩, fun r hr => ?_⟩
  · rw [placeFrom_cons, hnew, hfirst, placeFrom_cons, hrule, hsecond, placeFrom_cons, hend]
    rfl
  · rw [seen_cons, hnew, hfirst, seen_cons, hrule, hsecond, seen_cons, hend, seen_nil, List.filter_append,
      List.filter_append, hother, hother]
    rfl
  · rw [Clash, hnew] at h
    cases h.2
  · show ClashFreeFrom (nextPlace (.outside w) (roleOf (.outside w) new)) _
    rw [hnew, hfirst]
    exact ⟨fun h => (by cases h.1), by
      show ClashFreeFrom (nextPlace (.outside none) (roleOf (.outside none) rule)) _
      rw [hrule, hsecond]
      exact ⟨fun h => (by cases h.1), trivial⟩⟩
  · rw [rolesFrom_cons, hnew, hfirst, rolesFrom_cons, hrule, hsecond, rolesFrom_cons, hend, rolesFrom_nil] at hr
    simp only [List.mem_cons, List.not_mem_nil, or_false] at hr
    rcases hr with rfl | rfl | rfl <;> rfl

/-- **The swallowed brace**: under a header with a comment no block is opened, and the thread still has no rule. -/
theorem swallowed_again (hnt : Name maxThreadLen thread) (hpt : PlainName thread)
    (hspec : Spec topo cpus) (hc : ClashFree ls) (hnil : (targetScan ls pkg).singles = [])
    (hnone : (targetScan ls pkg).locs thread = []) {i : Nat}
    (hline : (targetScan ls pkg).pkgLine = some (.standalone i)) (hcomment : commentAt (ls.getD i []) ≠ none)
    (hls' : ls' = spliceAt (ls.set i (trimEnd (ls.getD i []) ++ [' ', '{'])) (i + 1)
      ['\t' :: thread ++ '=' :: cpus, ['}']]) :
    normalizeRuns ls' pkg = false ∧ (targetScan ls' pkg).locs thread = [] := by
  obtain ⟨c, hat⟩ := (targetScan_found pkg hc).2.standing _ hline
  obtain ⟨hlt, hsplit, hrole⟩ := hat.split
  obtain ⟨⟨w, hw⟩, _⟩ := outer_place hrole
  rw [spliceAt_set hlt] at hls'
  generalize ls.take i = pre, ls.getD i [] = header, ls.drop (i + 1) = post at hls' hsplit hrole hw hcomment
  have hnew := @roleOf_headerSwallowed w header (.rule pkg c false) (hw ▸ hrole) hcomment w
  generalize trimEnd header ++ [' ', '{'] = new at hls' hnew
  obtain ⟨hplace, hseen, hclash, hroles⟩ := swallowed_lines hnt.ne hnew (threadLine_outside hnt hpt hspec none)
  generalize '\t' :: thread ++ '=' :: cpus = rule at hls' hplace hseen hclash hroles
  rw [← hw] at hplace hseen hclash hroles
  replace hls' : ls' = pre ++ ([new, rule, ['}']] ++ post) := hls'
  replace hsplit : ls = pre ++ ([header] ++ post) := hsplit
  -- behind the three lines the place is the one behind the old header
  have hsame : placeFrom (placeAfter pre) [new, rule, ['}']] = placeFrom (placeAfter pre) [header] := by
    rw [hplace, placeFrom_cons, hrole]
    rfl
  have hc' : ClashFree ls' := by
    rw [hsplit] at hc
    obtain ⟨hpre, hrest⟩ := clashFreeFrom_append.mp hc
    rw [hls']
    refine clashFreeFrom_append.mpr ⟨hpre, clashFreeFrom_append.mpr ⟨hclash, ?_⟩⟩
    show ClashFreeFrom (placeFrom (placeAfter pre) [new, rule, ['}']]) post
    rw [hsame]
    exact (clashFreeFrom_append.mp hrest).2
  constructor
  · refine normalizeRuns_eq_false.mpr (.inl (singles_eq_nil hc' fun r hr => ?_))
    rw [hls'] at hr
    rcases roles_stretch hsame hr with hr | hr
    · rw [← hsplit] at hr
      obtain ⟨e, he, rfl⟩ := List.mem_map.mp hr
      exact (singles_nil_iff hc).mp hnil e he
    · exact hroles r hr
  · have hlen := @locs_length pkg _ _ hc hnt.ne
    rw [hnone, List.length_nil, eq_comm, List.length_eq_zero_iff, hsplit, seen_text, List.filter_append,
      List.filter_append, List.append_eq_nil_iff, List.append_eq_nil_iff] at hlen
    rw [← List.length_eq_zero_iff, locs_length hc' hnt.ne, List.length_eq_zero_iff, hls', seen_text,
      List.filter_append, List.filter_append, hseen, hsame, hlen.1, hlen.2.2]
    rfl

/-! ## Texts with empty headers -/

/-- A line that states a rule in the named text states it in the text. -/
theorem lineAt_states {i : Nat} {r : Role} {c : Str} (h : LineAt (nameHeaders pkg ls) i r) (hr : r.spec = some c) :
    States (ls.getD i []) := by
  obtain ⟨_, _, hrole⟩ := h.split
  rw [getD_named, lineAt_named h hr] at hrole
  exact eq_of_spec (hrole ▸ hr)

/-- The header that states the rule, read in the named text. -/
theorem stating_named (hpkg : pkg ≠ []) {i : Nat} (hi : statingLine (targetScan ls pkg) = [i]) :
    ∃ r c, LineAt (nameHeaders pkg ls) i r ∧ r.spec = some c := by
  rw [← targetScan_named hpkg] at hi
  obtain ⟨l, c, _, _, hat⟩ := stating_header (clashFree_named pkg ls) hi
  exact ⟨_, c, hat, rfl⟩

/-- An occurrence of the thread, read in the named text. -/
theorem occurrence_named (hpkg : pkg ≠ []) {loc : ThreadLoc} (hloc : loc ∈ (targetScan ls pkg).locs thread) :
    ∃ r c, LineAt (nameHeaders pkg ls) loc.idx r ∧ r.spec = some c := by
  rw [← targetScan_named hpkg] at hloc
  obtain ⟨pre, line, post, hls, ht⟩ := (mem_locs_iff (clashFree_named pkg ls)).mp hloc
  obtain ⟨c, hc⟩ := threadOf_spec ht
  exact ⟨_, c, ⟨pre, line, post, hls, (threadOf_idx ht).symm, rfl⟩, hc⟩

theorem statingLine_eq {t : Target} {i : Nat} (h : i ∈ statingLine t) : statingLine t = [i] := by
  unfold statingLine at h ⊢
  cases hl : t.pkgLine with
  | none =>
    rw [hl] at h
    cases h
  | some l =>
    rw [hl] at h
    cases l with
    | standalone j => rw [List.mem_singleton.mp h]; rfl
    | openInline j => rw [List.mem_singleton.mp h]; rfl
    | bareOpen j => cases h
    | barePending j => cases h

/-- **The line of the second edit** is the same one in the text and in the named text. -/
theorem Lands.of_named {i : Nat} (h : Lands pkg thread (nameHeaders pkg ls) i) (hpkg : pkg ≠ [])
    (hw : SpecWritten cpus ((nameHeaders pkg ls).getD i [])) :
    Lands pkg thread ls i ∧ SpecWritten cpus (ls.getD i []) := by
  obtain ⟨hidle, hlt, hheader, hocc⟩ := h
  rw [normalizeRuns_named hpkg] at hidle
  rw [targetScan_named hpkg] at hheader hocc
  have hlands : Lands pkg thread ls i := ⟨hidle, by simpa [nameHeaders] using hlt, hheader, hocc⟩
  obtain ⟨r, c, hat, hr⟩ : ∃ r c, LineAt (nameHeaders pkg ls) i r ∧ r.spec = some c := by
    by_cases hth : thread = []
    · exact stating_named hpkg (hheader hth)
    · obtain ⟨loc, hlocs, rfl⟩ := hocc hth
      exact occurrence_named hpkg (by rw [hlocs]; exact List.mem_singleton_self loc)
  rw [getD_named, lineAt_named hat hr] at hw
  exact ⟨hlands, hw⟩

/-- The header that would take the block has its comment in both texts. -/
theorem headerBare_named (hpkg : pkg ≠ []) (ls : List Str) (thread : Str) :
    HeaderBare (nameHeaders pkg ls) pkg thread ↔ HeaderBare ls pkg thread := by
  unfold HeaderBare
  rw [targetScan_named hpkg]
  refine imp_congr_right fun _ => imp_congr_right fun _ => imp_congr_right fun _ => forall_congr' fun i =>
    imp_congr_right fun hline => ?_
  obtain ⟨r, c, hat, hr⟩ := stating_named hpkg (show statingLine (targetScan ls pkg) = [i] by
    simp [statingLine, hline, PkgLine.stating])
  rw [getD_named, lineAt_named hat hr]

/-! ## The file -/

/-- The texts on which `rule_upsert` runs into none of its other traps: the spec is one line, no line that is left
    ends with a carriage return that the next reader would drop, and, with the empty headers named, the
    normalisation meets none of its traps and the edit of the normalised lines is regular. -/
structure UpsertRegular (ls : List Str) (pkg thread cpus : Str) : Prop where
  oneLine : '\n' ∉ cpus
  returns : KeepsClean (normalizeSingles ls pkg) pkg thread
  normal : normalizeRuns ls pkg = true → NormalizeSafe (nameHeaders pkg ls) pkg
  edit : EditRegular (nameHeaders pkg (normalizeSingles ls pkg)) pkg thread

/-- What the second call does to the lines of the first: it writes at least one line, and the same lines exactly
    where `good` holds. -/
structure Repeats (pkg thread cpus : Str) (ls : List Str) (good : Prop) : Prop where
  ne : ls ≠ []
  next : ∀ ls', upsertLines pkg thread cpus ls = .ok ls' → ls' ≠ []
  fixed : upsertLines pkg thread cpus ls = .ok ls ↔ good

theorem Lands.repeats {i : Nat} (h : Lands pkg thread ls i) (hw : SpecWritten cpus (ls.getD i []))
    (hspec : Spec topo cpus) : Repeats pkg thread cpus ls (OneWord cpus) := by
  have hne : ls ≠ [] := List.ne_nil_of_length_pos (Nat.zero_lt_of_lt h.lt)
  refine ⟨hne, fun ls' hls' => ?_, h.fixed hw hspec⟩
  rw [h.again, Except.ok.injEq] at hls'
  rw [← hls']
  simpa using hne

theorem Repeats.congr {good good' : Prop} (h : Repeats pkg thread cpus ls good) (hiff : good ↔ good') :
    Repeats pkg thread cpus ls good' := ⟨h.ne, h.next, h.fixed.trans hiff⟩

/-- The lines of the first call come back. -/
theorem upsertLines_returns (hpkg : pkg ≠ []) (hspec : Spec topo cpus)
    (hclean : KeepsClean (normalizeSingles ls pkg) pkg thread) (h : upsertLines pkg thread cpus ls = .ok ls') :
    Returns ls' := by
  unfold upsertLines at h
  dsimp only at h
  by_cases hth : thread = []
  · subst hth
    rw [if_pos List.isEmpty_nil] at h
    refine upsertPackage_returns hspec (fun i hi => ?_) hclean h
    obtain ⟨r, c, hat, hr⟩ := stating_named hpkg (statingLine_eq hi)
    exact lineAt_states hat hr
  · rw [if_neg (by simpa using hth)] at h
    refine upsertThread_returns hspec hth (fun last hlast => ?_) hclean h
    obtain ⟨r, c, hat, hr⟩ := occurrence_named hpkg (List.mem_of_getLast? hlast)
    exact lineAt_states hat hr

/-- **The lines of two equal calls.** -/
theorem upsertLines_repeats (hn : Name maxPkgLen pkg) (hp : PlainName pkg)
    (hnt : thread ≠ [] → Name maxThreadLen thread) (hpt : PlainName thread) (hspec : Spec topo cpus)
    (hreg : UpsertRegular ls pkg thread cpus) (h : upsertLines pkg thread cpus ls = .ok ls') :
    Repeats pkg thread cpus ls' (OneWord cpus ∧ HeaderBare (normalizeSingles ls pkg) pkg thread) := by
  have hk := hn.key
  -- the first call, on the text whose empty headers are named
  have hnormal : normalizeRuns (nameHeaders pkg ls) pkg = true → NormalizeSafe (nameHeaders pkg ls) pkg := by
    rw [normalizeRuns_named hk.ne]
    exact hreg.normal
  have hmid := normalizeSingles_named hk hp.noOpen hreg.normal
  have hidle := normalizeRuns_twice hnormal
  have hshape := normalized_shape hnormal
  have hedit := hreg.edit
  rw [hmid] at hidle hshape
  unfold upsertLines at h
  dsimp only at h
  generalize normalizeSingles ls pkg = mid at *
  have hc := clashFree_named pkg mid
  have hscan := targetScan_named hk.ne mid
  by_cases hth : thread = []
  · subst hth
    rw [if_pos List.isEmpty_nil] at h
    have hkeeps := hedit.keeps
    have hnamed := upsertPackage_named hk hp (hp.blockName hn).2.1 hspec (hscan ▸ hkeeps)
    rw [h, ← hscan] at hnamed
    obtain ⟨i, hlands, hw⟩ := upsertPackage_lands hn hp hspec hc hidle hshape hkeeps hnamed
    obtain ⟨hlands, hw⟩ := hlands.of_named hk.ne hw
    exact (hlands.repeats hw hspec).congr ⟨fun ho => ⟨ho, fun hne => absurd rfl hne⟩, fun ho => ho.1⟩
  · have hnt := hnt hth
    rw [if_neg (by simpa using hth)] at h
    have hnamed := upsertThread_named hk hp hnt hpt hspec fun last hlast e he hidx =>
      hedit.keeps e he (hidx ▸ swapLine_last hth (hscan.symm ▸ hlast))
    rw [h, ← hscan] at hnamed
    by_cases hbare : HeaderBare mid pkg thread
    · obtain ⟨i, hlands, hw⟩ := upsertThread_lands hn hp hnt hpt hspec hc hidle hedit
        ((headerBare_named hk.ne mid thread).mpr hbare) hnamed
      obtain ⟨hlands, hw⟩ := hlands.of_named hk.ne hw
      exact (hlands.repeats hw hspec).congr ⟨fun ho => ⟨ho, hbare⟩, fun ho => ho.1⟩
    · -- the header has a comment, which swallows the brace
      have hbare' := hbare
      rw [← headerBare_named hk.ne] at hbare'
      unfold HeaderBare at hbare'
      push Not at hbare'
      obtain ⟨_, hnone, hclose, i, hline, hcomment⟩ := hbare'
      have hnil := inserted_singles hth hc hidle hedit hnone hnamed
      unfold upsertThread at hnamed
      dsimp only at hnamed
      rw [hnone, List.getLast?_nil, hclose, hline] at hnamed
      obtain ⟨hidle', hnone'⟩ := swallowed_again hnt hpt hspec hc hnil hnone hline hcomment (Except.ok.inj hnamed).symm
      rw [normalizeRuns_named hk.ne] at hidle'
      rw [targetScan_named hk.ne] at hnone'
      have hgrows : ∀ ls'', upsertLines pkg thread cpus ls' = .ok ls'' → ls'.length < ls''.length :=
        fun ls'' h'' => grows_without_occurrence hth hidle' hnone' h''
      refine ⟨?_, fun ls'' h'' => ?_, fun h'' => ?_, fun hgood => absurd hgood.2 hbare⟩
      · rintro rfl
        have := congrArg List.length (Except.ok.inj hnamed)
        simp [spliceAt_length, nameHeaders] at this
      · exact List.ne_nil_of_length_pos (Nat.zero_lt_of_lt (hgrows ls'' h''))
      · exact absurd (hgrows ls' h'') (Nat.lt_irrefl _)

/-- The written lines are lines. -/
theorem upsertLines_unbroken (hpkg : '\n' ∉ pkg) (hth : '\n' ∉ thread) (hcpus : '\n' ∉ cpus) (hls : Unbroken ls)
    (h : upsertLines pkg thread cpus ls = .ok ls') : Unbroken ls' := by
  unfold upsertLines at h
  dsimp only at h
  split at h
  · exact upsertPackage_unbroken hpkg hcpus (normalizeSingles_unbroken hls) h
  · exact upsertThread_unbroken hpkg hth hcpus (normalizeSingles_unbroken hls) h

/-- Lines without line feeds can be told from the file. -/
theorem unlines_injective (hne : ls ≠ []) (hne' : ls' ≠ []) (hls : Unbroken ls) (hls' : Unbroken ls')
    (h : unlines ls = unlines ls') : ls = ls' := by
  rw [unlines, unlines] at h
  have := congrArg (List.splitOn '\n') (List.append_cancel_right h)
  rwa [List.splitOn_intercalate '\n' hls hne, List.splitOn_intercalate '\n' hls' hne'] at this

end AppOptR
