import AppOptR.RuleEdit.Correctness.Changed

/-!
# `RuleEdit.Correctness.UpsertThread` — `rule_upsert` sets a thread rule

After the normalisation `rule_upsert` rewrites the last occurrence of the thread rule and removes the others, or
adds a line to the closed block, under the header or in a block of its own (`upsertThread_changed`).
-/

namespace AppOptR

open Text

variable {pkg thread cpus : Str} {ls ls' : List Str} {topo : CpuTopology}

/-! ## The thread rule -/

/-- The line of a new thread rule. -/
theorem threadLine_block {max : Nat} (hp : PlainName thread) (hn : Name max thread) (hc : Spec topo cpus) :
    BlockLines pkg ['\t' :: thread ++ '=' :: cpus] [(thread, cpus)] := by
  have hrole : roleOf (.inside pkg) ('\t' :: thread ++ '=' :: cpus ++ []) = .thread thread cpus false :=
    roleOf_threadLine ⟨hn.head, hn.last, hn.key.plain⟩ hn.ne (hp.blockName hn) hc.solid
      (hc.unmarked.not_mem (by decide)) (hc.unmarked.not_mem (by decide)) (.inl rfl)
  rw [List.append_nil] at hrole
  exact BlockLines.nil.cons hrole

/-- Where the edit of a thread rule goes well, in the lines as `normalize_singles` leaves them: the spec of
    the last occurrence can be found again, no removed line keeps a waiting header and a bare `{` apart, and
    the header that is made to open a block has no comment. -/
structure ThreadEditSafe (ls : List Str) (pkg thread : Str) : Prop where
  swap : ∀ last ∈ ((targetScan ls pkg).locs thread).getLast?, ∀ e ∈ outlineAt ls,
    e.1 = last.idx → SwapSafe (ls.getD e.1 []) e.2.2
  apart : ¬ Bridged ls (((((targetScan ls pkg).locs thread).dropLast).filter
    fun loc => !loc.opens && !loc.closed).map (·.idx))
  header : (targetScan ls pkg).locs thread = [] → (targetScan ls pkg).blockClose = none →
    ∀ i, (targetScan ls pkg).pkgLine = some (.standalone i) → commentAt (ls.getD i []) = none

/-- What becomes of the lines of the thread: the last one is given the new spec, the others go. -/
def keepLast (pkg cpus : Str) (last loc : ThreadLoc) (line : Str) : List Str :=
  if loc.idx = last.idx then [specSwap line cpus] else lineGone pkg loc line

/-- The last occurrence is rewritten and the others are removed, from the last line up: one rewriting. -/
theorem upsertLocs_run {locs : List ThreadLoc} {last : ThreadLoc} (hlast : locs.getLast? = some last)
    (hs : locs.Pairwise fun a b => a.idx < b.idx) (hlt : ∀ loc ∈ locs, loc.idx < ls.length) :
    locs.dropLast.reverse.foldl (fun ls loc => lineRemove ls pkg loc)
        (ls.set last.idx (specSwap (ls.getD last.idx []) cpus))
      = rewriteFrom (editsAt ThreadLoc.idx (keepLast pkg cpus last) locs) 0 ls := by
  have hsplit : locs = locs.dropLast ++ [last] := by
    obtain ⟨init, rfl⟩ := List.getLast?_eq_some_iff.mp hlast
    rw [List.dropLast_concat]
  rw [← @edits_run _ _ _ _ (fun ls loc =>
    if loc.idx = last.idx then ls.set loc.idx (specSwap (ls.getD loc.idx []) cpus) else lineRemove ls pkg loc) _
      (fun ls loc h => ?_) hs hlt]
  · have hbelow : ∀ loc ∈ locs.dropLast, loc.idx ≠ last.idx := by
      rw [hsplit, List.pairwise_append] at hs
      exact fun loc hloc => (hs.2.2 loc hloc last (by simp)).ne
    conv_rhs => rw [hsplit, List.reverse_append, List.reverse_singleton, List.singleton_append, List.foldl_cons,
      if_pos rfl]
    exact List.foldl_ext _ _ _ fun ls loc hloc => (if_neg (hbelow loc (List.mem_reverse.mp hloc))).symm
  · unfold keepLast
    by_cases heq : loc.idx = last.idx
    · rw [if_pos heq, set_eq_replaceAt h fun line => specSwap line cpus]
      simp only [heq, if_true]
    · rw [if_neg heq, lineRemove_eq h]
      simp only [heq, if_false]

/-- The lines of the thread, all but the last, that leave the text. -/
def erasedOthers (ls : List Str) (pkg thread : Str) : List Nat :=
  ((((targetScan ls pkg).locs thread).dropLast).filter fun loc => !loc.opens && !loc.closed).map (·.idx)

theorem erasedOthers_subset {i : Nat} (h : i ∈ erasedOthers ls pkg thread) :
    i ∈ ((targetScan ls pkg).locs thread).map (·.idx) := by
  obtain ⟨loc, hloc, rfl⟩ := List.mem_map.mp h
  exact List.mem_map_of_mem (List.dropLast_subset _ (List.mem_filter.mp hloc).1)

/-- An occurrence is the last one, or stands before it. -/
theorem loc_cases {last loc : ThreadLoc} (hlast : ((targetScan ls pkg).locs thread).getLast? = some last)
    (hloc : loc ∈ (targetScan ls pkg).locs thread) :
    loc ∈ ((targetScan ls pkg).locs thread).dropLast ∨ loc = last := by
  obtain ⟨init, hinit⟩ := List.getLast?_eq_some_iff.mp hlast
  rw [hinit] at hloc ⊢
  rw [List.dropLast_concat]
  exact (List.mem_append.mp hloc).imp id List.mem_singleton.mp

/-- **One line of the thread**, where the swap of the last one gives it the spec `c`. -/
theorem keepLast_line {q c line : Str} {pre : List Str} {last loc : ThreadLoc}
    (hlast : ((targetScan ls pkg).locs thread).getLast? = some last)
    (hloc : loc ∈ (targetScan ls pkg).locs thread) (ht : (thread, loc) ∈ threadOf pkg (lineHere pre line))
    (hnew : pre.length = last.idx →
      roleOf (placeAfter pre) (specSwap line cpus) = (roleOf (placeAfter pre) line).withSpec c) :
    CutLine q (restated pkg q (((targetScan ls pkg).locs thread).map (·.idx)) last.idx [(thread, c)]) (fun _ => True)
      (erasedOthers ls pkg thread) pre line (keepLast pkg cpus last loc line) := by
  have hidx : pre.length = loc.idx := (threadOf_idx ht).symm
  have hin : pre.length ∈ ((targetScan ls pkg).locs thread).map (·.idx) := hidx ▸ List.mem_map_of_mem hloc
  unfold keepLast
  by_cases hl : loc.idx = last.idx
  · rw [if_pos hl]
    obtain ⟨c₀, hentry⟩ := entry_of_threadOf ht
    refine .reworded hentry (hnew (hidx.trans hl)) ?_
    unfold restated
    rw [if_pos hin]
    exact if_congr (by simp [hidx, hl]) rfl rfl
  · rw [if_neg hl]
    refine .gone ht (fun ho hcl => ?_) ?_ trivial trivial
    · rw [hidx]
      refine List.mem_map_of_mem (List.mem_filter.mpr ⟨?_, by simp [ho, hcl]⟩)
      exact (loc_cases hlast hloc).resolve_right fun h => hl (by rw [h])
    · unfold restated
      rw [if_pos hin]
      exact if_neg fun h => hl (hidx.symm.trans h.1)

/-- **An existing rule** of the thread. -/
theorem upsertLocs_changed (hth : thread ≠ []) (hc : ClashFree ls) (hspec : Spec topo cpus)
    (hsafe : ThreadEditSafe ls pkg thread) {last : ThreadLoc}
    (hlast : ((targetScan ls pkg).locs thread).getLast? = some last) :
    Changed pkg thread [(thread, cpus)] ls
      (((targetScan ls pkg).locs thread).dropLast.reverse.foldl (fun ls loc => lineRemove ls pkg loc)
        (ls.set last.idx (specSwap (ls.getD last.idx []) cpus))) := by
  rw [upsertLocs_run hlast (locs_ascending thread) fun loc hloc => thread_idx_lt (mem_locs.mp hloc)]
  refine locs_changed hc hth hsafe.apart (fun i hi => erasedOthers_subset hi) (fun x hx => ?_)
    (fun _ => List.mem_map_of_mem (List.mem_of_getLast? hlast)) fun q pre line post loc hls hloc ht =>
      keepLast_line hlast hloc ht fun hidx => ?_
  · rw [List.mem_singleton.mp hx]
  · obtain ⟨c₀, hentry⟩ := entry_of_threadOf ht
    have hget : ls.getD pre.length [] = line := by rw [hls, getD_after]
    have hswap := hsafe.swap last hlast _ (mem_outlineAt.mpr ⟨pre, line, post, hls, rfl⟩) hidx
    rw [hget] at hswap
    exact roleOf_specSwap hswap (by rw [hentry]; simp) hspec

/-- **A new rule** of a thread that has none: the text gains it, and it stands inside a block of the package. -/
theorem inserted_gains (hk : Key pkg) (hp : PlainName pkg) (hn : Name maxThreadLen thread)
    (hpt : PlainName thread) (hspec : Spec topo cpus) (hc : ClashFree ls)
    (hnone : (targetScan ls pkg).locs thread = [])
    (hheader : (targetScan ls pkg).blockClose = none → ∀ i, (targetScan ls pkg).pkgLine = some (.standalone i) →
      commentAt (ls.getD i []) = none)
    (h : upsertThread ls (targetScan ls pkg) pkg thread cpus = .ok ls') :
    Gains pkg [(thread, cpus)] ls ls' ∧
      ∃ pre post, ls' = pre ++ ('\t' :: thread ++ '=' :: cpus) :: post ∧ placeAfter pre = .inside pkg := by
  have hlines := @threadLine_block pkg _ _ _ _ hpt hn hspec
  obtain ⟨hblock, hstands⟩ := targetScan_found pkg hc
  unfold upsertThread at h
  dsimp only at h
  rw [hnone, List.getLast?_nil] at h
  dsimp only at h
  split at h
  · next c hclose =>
    obtain rfl := Except.ok.inj h
    obtain ⟨o, _, hb⟩ := hblock.closed c hclose
    have hg := @BlockLines.gains _ (ls.take c) (ls.drop c) _ _ hlines (by rwa [List.take_append_drop]) hb.place.2
    rw [List.take_append_drop, ← List.append_assoc] at hg
    exact ⟨hg, ls.take c, ls.drop c, by simp [spliceAt], hb.place.2⟩
  · next i hclose hline =>
    obtain rfl := Except.ok.inj h
    obtain ⟨cpus', hat⟩ := hstands.standing _ hline
    obtain ⟨hlt, hsplit, hrole⟩ := hat.split
    obtain ⟨⟨w, hw⟩, _⟩ := outer_place hrole
    have hrole' := hrole
    rw [hw] at hrole'
    -- the header has no comment, so the brace counts
    have hopen := fun w' => @roleOf_headerOpen _ _ _ _ hrole' (hheader hclose i hline) w'
    have hg := @BlockLines.gains_header _ (ls.take i) (ls.drop (i + 1)) _ _ hlines _ _ _ (by rwa [← hsplit]) hrole hopen
    rw [← hsplit, ← spliceAt_set hlt] at hg
    refine ⟨hg, ls.take i ++ [trimEnd (ls.getD i []) ++ [' ', '{']], ['}'] :: ls.drop (i + 1), ?_, ?_⟩
    · rw [spliceAt_set hlt]
      simp
    · rw [placeAfter_concat, hw, hopen w]
      rfl
  · split at h
    · cases h
    · next hun =>
      obtain rfl := Except.ok.inj h
      obtain ⟨w, hw⟩ := outside_of_terminated hc hun
      refine ⟨(hlines.ownBlock hk hp.noOpen).gains_end hc hw, ls ++ [bareOpenLine pkg], [['}']], by simp, ?_⟩
      have hopen : roleOf (.outside w) (bareOpenLine pkg) = .outer (.bareOpen pkg) :=
        @roleOf_bareOpenLine _ [] _ hk hp.noOpen
      rw [placeAfter_concat, hw, hopen]
      simp [nextPlace, hk.ne]

/-- **The thread half of `rule_upsert`.** -/
theorem upsertThread_changed (hk : Key pkg) (hp : PlainName pkg) (hn : Name maxThreadLen thread)
    (hpt : PlainName thread) (hspec : Spec topo cpus) (hc : ClashFree ls) (hsafe : ThreadEditSafe ls pkg thread)
    (h : upsertThread ls (targetScan ls pkg) pkg thread cpus = .ok ls') :
    Changed pkg thread [(thread, cpus)] ls ls' := by
  cases hlast : ((targetScan ls pkg).locs thread).getLast? with
  | none =>
    have hnone := List.getLast?_eq_none_iff.mp hlast
    exact (inserted_gains hk hp hn hpt hspec hc hnone (hsafe.header hnone) h).1.changed_new hc hn.ne hnone
  | some last =>
    unfold upsertThread at h
    dsimp only at h
    rw [hlast] at h
    obtain rfl := Except.ok.inj h
    exact upsertLocs_changed hn.ne hc hspec hsafe hlast

/-! ## The file -/

/-- The only refusal of `rule_upsert` is an unclosed block. -/
theorem upsertLines_error {e : RuleEdit} (h : upsertLines pkg thread cpus ls = .error e) : e = .malformed := by
  unfold upsertLines at h
  dsimp only at h
  split at h
  · unfold upsertPackage at h
    split at h
    · cases h
    · dsimp only at h
      split at h <;> cases h
    · cases h
    · cases h
    · split at h <;> cases h
      rfl
  · unfold upsertThread at h
    dsimp only at h
    split at h
    · cases h
    · split at h
      · cases h
      · cases h
      · split at h <;> cases h
        rfl

theorem ruleUpsert_ok {text written : Str} {writeOk : Bool}
    (h : ruleUpsert writeOk (some text) pkg thread cpus = (.ok, some written)) :
    ∃ ls, upsertLines pkg thread cpus (lines text) = .ok ls ∧ written = unlines ls := by
  unfold ruleUpsert editFile at h
  rw [show lines ((some text).getD []) = lines text from rfl] at h
  cases he : upsertLines pkg thread cpus (lines text) with
  | error e =>
    rw [he] at h
    have := upsertLines_error he
    rw [(Prod.mk.inj h).1] at this
    cases this
  | ok ls =>
    rw [he] at h
    cases writeOk with
    | false => cases h
    | true => exact ⟨ls, rfl, (Option.some.inj (Prod.mk.inj h).2).symm⟩

/-- The written lines are lines. -/
theorem upsertThread_unbroken (hpkg : '\n' ∉ pkg) (hth : '\n' ∉ thread) (hcpus : '\n' ∉ cpus) (hls : Unbroken ls)
    (h : upsertThread ls (targetScan ls pkg) pkg thread cpus = .ok ls') : Unbroken ls' := by
  have hrule : Unbroken ['\t' :: thread ++ '=' :: cpus] := by
    refine unbroken_nil.cons ?_
    have := pairLine_unbroken (s := '\t' :: thread) (t := cpus) (w := [])
      (by simp [hth]) hcpus (by simp)
    rwa [List.append_nil] at this
  have hclose : Unbroken [['}']] := unbroken_nil.cons (by decide)
  unfold upsertThread at h
  dsimp only at h
  split at h
  · next last hlast =>
    obtain rfl := Except.ok.inj h
    exact lineRemoves_unbroken (hls.set (specSwap_unbroken (hls.getD _) hcpus)) fun _ _ _ => hpkg
  · split at h
    · obtain rfl := Except.ok.inj h
      exact hls.spliceAt hrule
    · obtain rfl := Except.ok.inj h
      refine (hls.set ?_).spliceAt (hrule.append hclose)
      exact newline_not_mem_append.mpr ⟨fun hm => hls.getD _ (trimEnd_subset _ hm), by decide⟩
    · split at h
      · cases h
      · obtain rfl := Except.ok.inj h
        exact hls.append ((hrule.append hclose).cons (bareOpenLine_unbroken hpkg))

/-- What setting a thread rule comes to: one rule for the thread, and the other rules of the package. -/
structure SetsThread (topo : CpuTopology) (pkg thread cpus text written : Str) : Prop where
  one : ∀ create, rulesOf thread (rulesFor pkg (loadLines create topo (lines written)).rules)
    = [(thread, parseCpuSpec cpus topo)]
  rest : ∀ create create', (rulesBut thread (rulesFor pkg (loadLines create' topo (lines written)).rules)).Perm
    (rulesBut thread (rulesFor pkg (loadLines create topo (lines text)).rules))

/-- When `rule_upsert` sets a thread rule as it should: the spec is one line, the text has no clash, the
    normalisation meets none of its traps, nor does the edit of the normalised lines. -/
structure UpsertThreadSafe (ls : List Str) (pkg thread cpus : Str) : Prop where
  oneLine : '\n' ∉ cpus
  clashFree : ClashFree ls
  normal : normalizeRuns ls pkg = true → NormalizeSafe ls pkg
  edit : ThreadEditSafe (normalizeSingles ls pkg) pkg thread

end AppOptR
