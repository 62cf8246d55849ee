import AppOptR.RuleEdit.Written
import AppOptR.Web.RuleApi

/-!
# `RuleEdit.Correctness.Store` — which accepted rules the file can hold

`rule_api` checks names and specs, `rule_upsert` writes them into an empty file, `load_config` reads them
back. The three were written apart: `Storable` is the exact condition on the accepted arguments under which
the round trip gives the one rule back (`stored_iff`). Each clause that fails leaves a line the loader takes
for something else, and with it a counted failure.
-/

namespace AppOptR

open Text Json

variable {pkg thread cpus : Str} {topo : CpuTopology} {createCpusetDir : Nat → Str → Bool}

/-! ## What the checks give -/

theorem tokenOk_name {s : Str} {max : Nat} (h : tokenOk (trim s) max = true) : Name max (trim s) := by
  simp only [tokenOk, plainTokenOk, trim_trim, Bool.and_eq_true, Bool.not_eq_true', decide_eq_true_eq,
    List.isEmpty_eq_false_iff, List.any_eq_false, List.contains_eq_mem, decide_eq_false_iff_not] at h
  obtain ⟨⟨⟨⟨hne, hlen⟩, hctl⟩, hhash⟩, hslash⟩ := h
  refine ⟨hne, headSolid_trim s, lastSolid_trim s, hlen, fun c hc => by simpa using hctl c hc, hhash, ?_⟩
  intro hi
  have hsub : containsStr "//".toList (trim s) = true := containsStr_iff.mpr hi
  rw [hsub] at hslash
  cases hslash

/-- The arguments `rule_api` passes on to `rule_upsert`. -/
structure RuleArgs (topo : CpuTopology) (pkg thread cpus : Str) : Prop where
  pkgName : Name maxPkgLen pkg
  threadName : thread ≠ [] → Name maxThreadLen thread
  pkgShape : thread = [] → ¬ ('{' ∈ pkg ∧ pkg.getLast? = some '}')
  spec : Spec topo cpus

theorem ruleApiArgs_ok {body : Option Value}
    (h : ruleApiArgs body (some topo) = .ok (pkg, thread, cpus)) : RuleArgs topo pkg thread cpus := by
  unfold ruleApiArgs at h
  cases body with
  | none => cases h
  | some v =>
    dsimp only at h
    generalize hp : (v.index "pkg".toList).asStr.map trim = p at h
    generalize hc : (v.index "cpus".toList).asStr.map trim = c at h
    generalize ht : ((v.index "thread".toList).asStr.map trim).getD [] = t at h
    obtain ⟨t', rfl⟩ : ∃ t', t = trim t' := by
      cases hv : (v.index "thread".toList).asStr with
      | none => exact ⟨[], by rw [← ht, hv]; rfl⟩
      | some t' => exact ⟨t', by rw [← ht, hv]; rfl⟩
    cases p with
    | none => cases h
    | some p =>
      cases c with
      | none => cases h
      | some c =>
        obtain ⟨p', _, rfl⟩ := Option.map_eq_some_iff.mp hp
        obtain ⟨c', _, rfl⟩ := Option.map_eq_some_iff.mp hc
        dsimp only at h
        split at h
        · cases h
        next hnames =>
        split at h
        · cases h
        next hshape =>
        split at h
        · cases h
        next hspec =>
        simp only [Except.ok.injEq, Prod.mk.injEq] at h
        obtain ⟨rfl, rfl, rfl⟩ := h
        simp only [Bool.or_eq_true, Bool.not_eq_true', Bool.and_eq_true, not_or, Bool.not_eq_false,
          List.isEmpty_iff, decide_eq_true_eq, beq_iff_eq, not_and] at hnames hshape hspec
        obtain ⟨⟨⟨hne, _⟩, hlike⟩, hcount⟩ := hspec
        refine ⟨tokenOk_name hnames.1, fun hne => ?_, fun he => ?_,
          ⟨hne, headSolid_trim _, lastSolid_trim _, hlike, hcount⟩⟩
        · exact tokenOk_name (hnames.2 (by simpa using hne))
        · rintro ⟨hm, hl⟩
          have hok := hshape he
          simp [pkgShapeOk, hm, hl] at hok

/-! ## The loader on single lines -/

theorem loadLines_concat (ls : List Str) (l : Str) :
    loadLines createCpusetDir topo (ls ++ [l])
      = loadLine createCpusetDir topo (loadLines createCpusetDir topo ls) (l, ls.length) := by
  simp [loadLines, List.zipIdx_append]

theorem loadAct_failCnt (i : Nat) (acts : List LoadAct) (st : LoadState) :
    st.failCnt ≤ (acts.foldl (loadAct createCpusetDir topo i) st).failCnt := by
  induction acts generalizing st with
  | nil => exact le_rfl
  | cons a acts ih =>
    refine le_trans ?_ (ih _)
    cases a with
    | fail => exact Nat.le_succ _
    | addRule pkg thread cpus =>
      simp only [loadAct]
      split
      · exact le_rfl
      · exact Nat.le_succ _

/-- A counted failure stays counted. -/
theorem loadLine_failCnt (st : LoadState) (l : Str × Nat) :
    st.failCnt ≤ (loadLine createCpusetDir topo st l).failCnt :=
  loadAct_failCnt _ _ { st with ctl := (loadCtlStep st.ctl l.1).1 }

theorem addRule_ok (create : Str → Bool) (hp : Name maxPkgLen pkg)
    (ht : thread ≠ [] → Name maxThreadLen thread) (hc : Spec topo cpus) :
    ∃ r, addRule create topo pkg thread cpus = some r ∧ r.pkg = pkg ∧ r.thread = thread ∧
      r.cpus = parseCpuSpec cpus topo := by
  have hlen : byteLen thread < maxThreadLen := by
    by_cases he : thread = []
    · subst he; decide
    · exact (ht he).short
  have hclean : (pkg ++ thread).any isControl = false := by
    simp only [List.any_eq_false, List.mem_append]
    rintro c (hm | hm)
    · simp [hp.clean c hm]
    · simp [(ht (List.ne_nil_of_mem hm)).clean c hm]
  have hguard : (pkg.isEmpty || decide (maxPkgLen ≤ byteLen pkg) || decide (maxThreadLen ≤ byteLen thread))
      = false := by
    simp [hp.ne, hp.short, hlen]
  unfold addRule
  rw [hguard, hclean, hc.like]
  simp only [Bool.false_eq_true, if_false, Bool.not_true, hc.count]
  exact ⟨_, rfl, rfl, rfl, rfl⟩

/-- A line without a mark is no rule: it counts as a failure inside a block, and is a header left waiting
    outside. -/
theorem loadLine_unmarked {l : Str} (h : Unmarked (trim l)) (hne : trim l ≠ []) (st : LoadState) (i : Nat) :
    0 < (loadLine createCpusetDir topo st (l, i)).failCnt ∨
      (loadLine createCpusetDir topo st (l, i)).ctl.inBlock = false ∧
        (loadLine createCpusetDir topo st (l, i)).ctl.pendingPkg ≠ [] := by
  have hs : skipped (trim l) = false := h.commentFree.not_skipped hne
  have heq : '=' ∉ trim l := h.not_mem (by simp [marks])
  have hclose : '}' ∉ trim l := h.not_mem (by simp [marks])
  have hopen : '{' ∉ trim l := h.not_mem (by simp [marks])
  have hkv : ∀ s : Str, '=' ∉ s → kv s = none := fun s hs => by
    rw [kv, splitLast_eq_none.mpr hs]
  have hcl : closeLike (trim l) = false := by
    cases ht : trim l with
    | nil => rfl
    | cons c s =>
      unfold closeLike
      split
      · next hc =>
        rw [ht, hc] at hclose
        simp at hclose
      · rfl
  cases hb : st.ctl.inBlock with
  | true =>
    left
    -- without an `=` there is no rule, so the line fails
    have hrule : splitRuleLine (trim l) = none := by
      unfold splitRuleLine
      rw [h.commentFree.stripComment]
      have hnone : kvBeforeBrace [] (trim l) = none :=
        kvBeforeBrace_eq_none.mpr fun a b hab => absurd (by rw [hab]; simp) hclose
      simp [hnone, hkv _ heq]
    have hstep : loadCtlStep st.ctl l = (st.ctl, [.fail]) := by
      simp [loadCtlStep, hs, hb, hcl, hrule, hclose]
    simp [loadLine, hstep, loadAct]
  | false =>
    right
    have hbody : outerBody (trim l) = (false, trim l) := by
      rw [outerBody, h.commentFree.stripComment, stripSuffix_eq_none.mpr]
      exact fun hl => hopen (List.mem_of_getLast? hl)
    -- and outside it is taken for a header
    have houter : parseOuter (trim l) = .pending (trim l) := by
      unfold parseOuter
      rw [hbody]
      simp [splitSingleLine, splitLast_eq_none.mpr heq, hcl, parseHeader]
    have hctl : (loadLine createCpusetDir topo st (l, i)).ctl = { st.ctl with pendingPkg := trim l } := by
      unfold loadLine
      rw [loadAct_ctl]
      simp [loadCtlStep, hs, hb, houter]
    rw [hctl]
    exact ⟨hb, hne⟩

/-- A closing line outside a block counts as a failure. -/
theorem loadLine_close (st : LoadState) (i : Nat) (h : st.ctl.inBlock = false) :
    0 < (loadLine createCpusetDir topo st (['}'], i)).failCnt := by
  have hstep : loadCtlStep st.ctl ['}'] = ({ st.ctl with pendingPkg := [] }, [.fail]) := by
    have hp : parseOuter ['}'] = .junk := by decide +kernel
    simp [loadCtlStep, skipped, h, hp, show trim ['}'] = ['}'] by decide]
  simp [loadLine, hstep, loadAct]

theorem parseFails_pos {st : LoadState} (h : 0 < st.failCnt ∨ st.ctl.pendingPkg ≠ []) : parseFails st ≠ 0 := by
  unfold parseFails
  split
  · exact Nat.succ_ne_zero _
  · next hn =>
    rcases h with h | h
    · exact Nat.pos_iff_ne_zero.mp h
    · simp [h] at hn

/-! ## Storing one rule in an empty file -/

/-- `rule_upsert` on an empty file succeeds, and the loader reads the one rule back from the text it
    writes, without a failure. -/
def Stored (createCpusetDir : Nat → Str → Bool) (topo : CpuTopology) (pkg thread cpus : Str) : Prop :=
  ∃ text, ruleUpsert true (some []) pkg thread cpus = (.ok, some text) ∧
    (loadLines createCpusetDir topo (lines text)).rules.map (fun r => (r.pkg, r.thread, r.cpus))
      = [(pkg, thread, parseCpuSpec cpus topo)] ∧
    parseFails (loadLines createCpusetDir topo (lines text)) = 0

/-- The accepted arguments that survive the round trip. -/
structure Storable (pkg thread cpus : Str) : Prop where
  oneLine : '\n' ∉ cpus
  pkgLine : thread = [] → ¬ StartsClose pkg
  threadLine : thread ≠ [] → ¬ StartsClose thread ∧ ¬ BraceAfterKey thread
  header : thread ≠ [] → ¬ ('=' ∈ pkg ∧ SinglePair pkg)

theorem upsert_empty_package :
    ruleUpsert true (some []) pkg [] cpus = (.ok, some (unlines [pkg ++ '=' :: cpus])) := by
  simp [ruleUpsert, editFile, upsertLines, normalizeSingles, targetScan, scanPrefix, Target.singles,
    upsertPackage]

theorem upsert_empty_thread (hth : thread ≠ []) :
    ruleUpsert true (some []) pkg thread cpus
      = (.ok, some (unlines [bareOpenLine pkg, '\t' :: thread ++ '=' :: cpus, ['}']])) := by
  simp [ruleUpsert, editFile, upsertLines, normalizeSingles, targetScan, scanPrefix, Target.singles,
    upsertThread, Target.locs, hth]

theorem tab_blank : Blank ['\t'] := by simp only [Blank, List.mem_singleton, forall_eq]; decide

theorem bareOpenLine_no_newline {max : Nat} (hp : Name max pkg) : '\n' ∉ bareOpenLine pkg := by
  have := hp.no_newline
  unfold bareOpenLine
  split <;> simp [this]

/-- The last line of a spec that runs over several lines. -/
theorem spec_lastLine {a b : Str} (hc : Spec topo (a ++ '\n' :: b)) :
    Unmarked (trim (stripCr b)) ∧ trim (stripCr b) ≠ [] := by
  rw [trim_stripCr]
  have hsub : trim b ⊆ a ++ '\n' :: b := by
    obtain ⟨w, w', _, _, he⟩ := trim_decomp b
    intro c hm
    have : c ∈ b := by rw [he]; simp [hm]
    simp [this]
  refine ⟨hc.unmarked.of_subset hsub, fun hb => ?_⟩
  have hblank : Blank b := trim_eq_nil.mp hb
  cases hl : b.getLast? with
  | none =>
    rw [List.getLast?_eq_none_iff.mp hl] at hc
    exact absurd (hc.last '\n' (by simp)) (by decide)
  | some c =>
    have hcb : c ∈ b := List.mem_of_getLast? hl
    have hlast : (a ++ '\n' :: b).getLast? = some c := by
      rw [List.getLast?_append_of_ne_nil _ (by simp), List.getLast?_cons_of_ne_nil (List.ne_nil_of_mem hcb),
        hl]
    have := hc.last c hlast
    rw [hblank c hcb] at this
    cases this

/-- **A spec with a line feed is never stored**: the rest of it becomes a line of its own. -/
theorem newline_not_stored (h : RuleArgs topo pkg thread cpus) (hn : '\n' ∈ cpus) :
    ¬ Stored createCpusetDir topo pkg thread cpus := by
  obtain ⟨a, b, rfl, hb⟩ := newline_split hn
  obtain ⟨hun, hne⟩ := spec_lastLine h.spec
  rintro ⟨text, hup, _, hfail⟩
  revert hfail
  by_cases hth : thread = []
  · subst hth
    rw [upsert_empty_package] at hup
    simp only [Prod.mk.injEq, Option.some.injEq, true_and] at hup
    -- what follows the last line feed is the last line
    obtain ⟨pre, hpre⟩ : ∃ pre, lines text = pre ++ [stripCr b] := by
      rw [← hup, unlines_singleton]
      refine ⟨((pkg ++ '=' :: a).splitOn '\n').map stripCr, ?_⟩
      have : pkg ++ '=' :: (a ++ '\n' :: b) ++ ['\n'] = (pkg ++ '=' :: a) ++ '\n' :: (b ++ ['\n']) := by simp
      rw [this, lines_append_newline, lines_line hb]
      rfl
    rw [hpre, loadLines_concat]
    apply parseFails_pos
    rcases loadLine_unmarked hun hne (loadLines createCpusetDir topo pre) pre.length with hf | hf
    · exact .inl hf
    · exact .inr hf.2
  · rw [upsert_empty_thread hth] at hup
    simp only [Prod.mk.injEq, Option.some.injEq, true_and] at hup
    -- and here the line above the closing brace
    obtain ⟨pre, hpre⟩ : ∃ pre, lines text = pre ++ [stripCr b] ++ [['}']] := by
      rw [← hup, unlines_cons _ (by simp), unlines_cons _ (by simp), unlines_singleton,
        lines_line (bareOpenLine_no_newline h.pkgName)]
      refine ⟨stripCr (bareOpenLine pkg) :: (('\t' :: thread ++ '=' :: a).splitOn '\n').map stripCr, ?_⟩
      have : '\t' :: thread ++ '=' :: (a ++ '\n' :: b) ++ '\n' :: (['}'] ++ ['\n'])
          = ('\t' :: thread ++ '=' :: a) ++ '\n' :: (b ++ '\n' :: ['}', '\n']) := by simp
      rw [this, lines_append_newline, lines_line hb]
      simp only [List.cons_append, List.append_assoc, List.cons_inj_right]
      rfl
    rw [hpre, loadLines_concat]
    apply parseFails_pos
    left
    rw [loadLines_concat]
    rcases loadLine_unmarked hun hne (loadLines createCpusetDir topo pre) pre.length with hf | hf
    · exact lt_of_lt_of_le hf (loadLine_failCnt _ _)
    · exact loadLine_close _ _ hf.1

theorem ruleLine_solid {s : Str} (hc : Spec topo cpus) :
    stripCr (s ++ '=' :: cpus) = s ++ '=' :: cpus := by
  refine stripCr_of_solid ?_
  have := hc.last.append hc.ne (s ++ ['='])
  rwa [List.append_assoc] at this

theorem ruleLine_not_skipped {max : Nat} {s : Str} (hs : Name max s) (hc : Spec topo cpus) :
    skipped (s ++ '=' :: cpus) = false :=
  (ruleLine_commentFree hs hc).not_skipped (by simp)

/-- The one line of a package rule. -/
theorem package_stored_iff (h : RuleArgs topo pkg [] cpus) (hn : '\n' ∉ cpus) :
    Stored createCpusetDir topo pkg [] cpus ↔ ¬ StartsClose pkg := by
  have hlines : lines (unlines [pkg ++ '=' :: cpus]) = [pkg ++ '=' :: cpus] := by
    rw [lines_unlines (by simp) (by simp [h.pkgName.no_newline, hn]), List.map_singleton,
      ruleLine_solid h.spec]
  have hload : loadLines createCpusetDir topo [pkg ++ '=' :: cpus]
      = loadLine createCpusetDir topo {} (pkg ++ '=' :: cpus, 0) := rfl
  obtain ⟨hjunk, hrule⟩ := parseOuter_ruleLine h.pkgName h.spec (h.pkgShape rfl)
  classical
  have hstep : loadCtlStep {} (pkg ++ '=' :: cpus)
      = if StartsClose pkg then ({}, [.fail]) else ({}, [.addRule pkg [] cpus]) := by
    by_cases hclose : StartsClose pkg
    · simp [loadCtlStep, ruleLine_trim h.pkgName h.spec, ruleLine_not_skipped h.pkgName h.spec,
        hjunk hclose, hclose]
    · simp [loadCtlStep, ruleLine_trim h.pkgName h.spec, ruleLine_not_skipped h.pkgName h.spec,
        hrule hclose, hclose, danglingFail]
  constructor
  · rintro ⟨text, hup, _, hfail⟩ hclose
    rw [upsert_empty_package] at hup
    simp only [Prod.mk.injEq, Option.some.injEq, true_and] at hup
    rw [← hup, hlines, hload, loadLine, hstep, if_pos hclose] at hfail
    exact absurd hfail (parseFails_pos (.inl Nat.one_pos))
  · intro hclose
    refine ⟨_, upsert_empty_package, ?_⟩
    obtain ⟨r, hr, hp, ht, hc⟩ := addRule_ok (createCpusetDir 0) h.pkgName h.threadName h.spec
    rw [hlines, hload, loadLine, hstep, if_neg hclose]
    simp [loadAct, hr, hp, ht, hc, parseFails]

/-- The block of a thread rule, read line by line. -/
theorem thread_load (h : RuleArgs topo pkg thread cpus) (hth : thread ≠ []) (hn : '\n' ∉ cpus) :
    lines (unlines [bareOpenLine pkg, '\t' :: thread ++ '=' :: cpus, ['}']])
      = [bareOpenLine pkg, '\t' :: thread ++ '=' :: cpus, ['}']] := by
  have ht := h.threadName hth
  have hopen : LastSolid (bareOpenLine pkg) := by
    rw [← bareOpenLine_trim h.pkgName]
    exact lastSolid_trim _
  have hrule : LastSolid ('\t' :: thread ++ '=' :: cpus) := by
    have := h.spec.last.append h.spec.ne ('\t' :: thread ++ ['='])
    rwa [List.append_assoc] at this
  rw [lines_unlines (by simp)]
  · simp only [List.map_cons, List.map_nil, stripCr_of_solid hopen, stripCr_of_solid hrule]
    rfl
  · simp only [List.mem_cons, List.not_mem_nil, or_false]
    rintro l (rfl | rfl | rfl)
    · exact bareOpenLine_no_newline h.pkgName
    · simp [ht.no_newline, hn]
    · decide

theorem loadLines_three (a b c : Str) :
    loadLines createCpusetDir topo [a, b, c]
      = loadLine createCpusetDir topo (loadLine createCpusetDir topo
          (loadLine createCpusetDir topo {} (a, 0)) (b, 1)) (c, 2) := rfl

/-- The header line that reads as a one-line rule has an empty spec, which `add_rule` refuses. -/
theorem loadLine_header_single (hp : Name maxPkgLen pkg) (hs : '=' ∈ pkg ∧ SinglePair pkg) (i : Nat) :
    0 < (loadLine createCpusetDir topo {} (bareOpenLine pkg, i)).failCnt := by
  obtain ⟨a, b, hab⟩ := (parseOuter_bareOpenLine hp).1 hs
  have hstep : loadCtlStep {} (bareOpenLine pkg)
      = ({ curPkg := a, pendingPkg := [], inBlock := true }, [.addRule a b []]) := by
    simp [loadCtlStep, bareOpenLine_trim hp,
      (bareOpenLine_commentFree hp).not_skipped (by simp [bareOpenLine]; split <;> simp), hab, danglingFail]
  have hrefuse : addRule (createCpusetDir i) topo a b [] = none := by
    have hlike : specLike [] = false := by decide
    unfold addRule
    rw [hlike]
    split
    · rfl
    · split <;> rfl
  simp [loadLine, hstep, loadAct, hrefuse]

theorem loadLine_header (hp : Name maxPkgLen pkg) (hs : ¬ ('=' ∈ pkg ∧ SinglePair pkg)) (i : Nat) :
    loadLine createCpusetDir topo {} (bareOpenLine pkg, i)
      = { ctl := { curPkg := pkg, pendingPkg := [], inBlock := true } } := by
  have hstep : loadCtlStep {} (bareOpenLine pkg)
      = ({ curPkg := pkg, pendingPkg := [], inBlock := true }, []) := by
    simp [loadCtlStep, bareOpenLine_trim hp,
      (bareOpenLine_commentFree hp).not_skipped (by simp [bareOpenLine]; split <;> simp),
      (parseOuter_bareOpenLine hp).2 hs, danglingFail, hp.ne]
  simp [loadLine, hstep]

/-- A rule line inside a block, by its role. -/
theorem loadCtlStep_inside {owner line : Str} (hs : skipped (trim line) = false) :
    loadCtlStep { curPkg := owner, pendingPkg := [], inBlock := true } line
      = match insideRole (trim line) with
        | .close => ({}, if closeLike (trim line) then [] else [.fail])
        | .thread k v closed =>
          (if closed then {} else { curPkg := owner, pendingPkg := [], inBlock := true },
            [.addRule owner k v])
        | _ => ({ curPkg := owner, pendingPkg := [], inBlock := true }, [.fail]) := by
  simp only [loadCtlStep, hs, Bool.false_eq_true, if_false, if_true, insideRole]
  by_cases hcl : closeLike (trim line) = true
  · simp [hcl]
  · simp only [hcl]
    cases splitRuleLine (trim line) with
    | some r => rfl
    | none => by_cases hb : '}' ∈ trim line <;> simp [hb]

theorem thread_stored_iff (h : RuleArgs topo pkg thread cpus) (hth : thread ≠ []) (hn : '\n' ∉ cpus) :
    Stored createCpusetDir topo pkg thread cpus ↔
      (¬ StartsClose thread ∧ ¬ BraceAfterKey thread) ∧ ¬ ('=' ∈ pkg ∧ SinglePair pkg) := by
  have ht := h.threadName hth
  have htrim : trim ('\t' :: thread ++ '=' :: cpus) = thread ++ '=' :: cpus := by
    have := trim_blank_append tab_blank (thread ++ '=' :: cpus)
    rw [ruleLine_trim ht h.spec] at this
    exact this
  have hskip : skipped (trim ('\t' :: thread ++ '=' :: cpus)) = false := by
    rw [htrim]
    exact ruleLine_not_skipped ht h.spec
  obtain ⟨hclose, hshort, hrule⟩ := insideRole_ruleLine ht h.spec
  rw [← htrim] at hclose hshort hrule
  -- a bad thread name closes the block early
  have hinside : ∀ st : LoadState, st.ctl = { curPkg := pkg, pendingPkg := [], inBlock := true } →
      StartsClose thread ∨ BraceAfterKey thread →
      (loadLine createCpusetDir topo st ('\t' :: thread ++ '=' :: cpus, 1)).ctl.inBlock = false := by
    intro st hst hbad
    unfold loadLine
    rw [loadAct_ctl, hst, loadCtlStep_inside hskip]
    by_cases hc : StartsClose thread
    · rw [hclose hc]
    · obtain ⟨k, v, hkv⟩ := hshort hc (hbad.resolve_left hc)
      rw [hkv]
      rfl
  constructor
  · rintro ⟨text, hup, _, hfail⟩
    rw [upsert_empty_thread hth] at hup
    simp only [Prod.mk.injEq, Option.some.injEq, true_and] at hup
    rw [← hup, thread_load h hth hn, loadLines_three] at hfail
    -- the header itself fails, or the brace that closes is left over
    by_cases hhead : '=' ∈ pkg ∧ SinglePair pkg
    · refine absurd hfail (parseFails_pos (.inl ?_))
      exact lt_of_lt_of_le (loadLine_header_single h.pkgName hhead 0)
        ((loadLine_failCnt _ _).trans (loadLine_failCnt _ _))
    · refine ⟨?_, hhead⟩
      by_contra hbad
      rw [not_and_or, not_not, not_not] at hbad
      refine absurd hfail (parseFails_pos (.inl (loadLine_close _ _ (hinside _ ?_ hbad))))
      rw [loadLine_header h.pkgName hhead]
  · rintro ⟨⟨hc, hb⟩, hhead⟩
    refine ⟨_, upsert_empty_thread hth, ?_⟩
    obtain ⟨r, hr, hp, ht', hcp⟩ := addRule_ok (createCpusetDir 1) h.pkgName h.threadName h.spec
    -- the three lines, one at a time
    have hsecond : loadLine createCpusetDir topo
        { ctl := { curPkg := pkg, pendingPkg := [], inBlock := true } } ('\t' :: thread ++ '=' :: cpus, 1)
        = { ctl := { curPkg := pkg, pendingPkg := [], inBlock := true }, rules := [r] } := by
      unfold loadLine
      rw [loadCtlStep_inside hskip, hrule hc hb]
      simp [loadAct, hr]
    have hthird : loadCtlStep { curPkg := pkg, pendingPkg := [], inBlock := true } ['}'] = ({}, []) := by
      rw [loadCtlStep_inside (by decide)]
      rfl
    rw [thread_load h hth hn, loadLines_three, loadLine_header h.pkgName hhead, hsecond, loadLine, hthird]
    simp [hp, ht', hcp, parseFails]

/-- **Which accepted rules are stored.** What `rule_api` lets through comes back from the file exactly when
    the spec is one line, the name that starts a line does not begin with a closing brace and a blank, a
    thread name has no brace behind a key and `=`, and a package name with an `=` that heads a block does
    not read as `pkg{thread}`. -/
theorem stored_iff (createCpusetDir : Nat → Str → Bool) (topo : CpuTopology) (body : Option Value)
    (pkg thread cpus : Str) (h : ruleApiArgs body (some topo) = .ok (pkg, thread, cpus)) :
    Stored createCpusetDir topo pkg thread cpus ↔ Storable pkg thread cpus := by
  have hargs := ruleApiArgs_ok h
  by_cases hn : '\n' ∈ cpus
  · exact ⟨fun hs => absurd hs (newline_not_stored hargs hn), fun hs => absurd hn hs.oneLine⟩
  · by_cases hth : thread = []
    · subst hth
      rw [package_stored_iff hargs hn]
      exact ⟨fun hc => ⟨hn, fun _ => hc, fun hne => absurd rfl hne, fun hne => absurd rfl hne⟩,
        fun hs => hs.pkgLine rfl⟩
    · rw [thread_stored_iff hargs hth hn]
      exact ⟨fun hs => ⟨hn, fun he => absurd he hth, fun _ => hs.1, fun _ => hs.2⟩,
        fun hs => ⟨hs.threadLine hth, hs.header hth⟩⟩

theorem stored_iff_render :
    Stored (fun _ _ => true) quadTopology "com.a".toList "Render".toList "0-3".toList := by
  have hargs : ruleApiArgs (some (.object [("pkg".toList, .string "com.a".toList),
      ("thread".toList, .string "Render ".toList), ("cpus".toList, .string "0-3".toList)]))
      (some quadTopology) = .ok ("com.a".toList, "Render".toList, "0-3".toList) := by decide +kernel
  refine (stored_iff (fun _ _ => true) quadTopology _ _ _ _ hargs).mpr ⟨by decide, ?_, ?_, ?_⟩
  · intro h
    cases h
  · intro _
    refine ⟨?_, ?_⟩
    · rintro ⟨c, r, h, _⟩
      cases h
    · rintro ⟨a, b, h, _⟩
      have hmem : '=' ∈ "Render".toList := by rw [h]; simp
      revert hmem
      decide
  · rintro _ ⟨h, _⟩
    revert h
    decide

/-- The thread name `a=1}b` passes every check; its line is read as thread `a` with a closing brace. -/
theorem brace_thread_not_stored :
    ruleApiArgs (some (.object [("pkg".toList, .string "com.a".toList),
        ("thread".toList, .string "a=1\x7db".toList), ("cpus".toList, .string "0".toList)]))
      (some quadTopology) = .ok ("com.a".toList, "a=1\x7db".toList, "0".toList) ∧
    ¬ Stored (fun _ _ => true) quadTopology "com.a".toList "a=1\x7db".toList "0".toList := by
  refine ⟨by decide +kernel, ?_⟩
  rintro ⟨text, hup, _, hfail⟩
  have hwritten : ruleUpsert true (some []) "com.a".toList "a=1\x7db".toList "0".toList
      = (.ok, some "com.a \x7b\n\ta=1\x7db=0\n\x7d\n".toList) := by decide +kernel
  rw [hwritten] at hup
  simp only [Prod.mk.injEq, Option.some.injEq, true_and] at hup
  rw [← hup] at hfail
  revert hfail
  decide +kernel

end AppOptR
