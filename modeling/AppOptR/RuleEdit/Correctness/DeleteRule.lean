import AppOptR.RuleEdit.Correctness.UpsertPackage

/-!
# `RuleEdit.Correctness.DeleteRule` — `rule_delete` removes the rule

For a thread `rule_delete` takes out every line the scan lists (`deleteThread_changed`). For the package it
takes the rule off the first header alone (`deleteStandalone_changed`, `deleteOpenInline_changed`), so what is
left is what other lines say (`leftover`); a first header without a spec ends it at once, whatever stands below.
-/

namespace AppOptR

open Text

variable {pkg thread cpus : Str} {ls ls' : List Str} {topo : CpuTopology}

/-! ## Thread rules -/

/-- The lines that go with the rules of a thread: those that neither open nor close a block. -/
def erasedLocs (ls : List Str) (pkg thread : Str) : List Nat :=
  (((targetScan ls pkg).locs thread).filter fun loc => !loc.opens && !loc.closed).map (·.idx)

/-- **The thread half of `rule_delete`.** -/
theorem deleteThread_changed (hth : thread ≠ []) (hc : ClashFree ls)
    (hb : ¬ Bridged ls (erasedLocs ls pkg thread)) :
    Changed pkg thread [] ls
      (((targetScan ls pkg).locs thread).reverse.foldl (fun ls loc => lineRemove ls pkg loc) ls) := by
  rw [lineRemove_run (locs_ascending thread) fun loc hloc => thread_idx_lt (mem_locs.mp hloc)]
  refine locs_changed (k := 0) hc hth hb (fun i hi => ?_) (by simp) (fun h => absurd rfl h)
    fun q pre line post loc hls hloc ht => ?_
  · obtain ⟨loc, hloc, rfl⟩ := List.mem_map.mp hi
    exact List.mem_map_of_mem (List.mem_filter.mp hloc).1
  · have hidx : pre.length = loc.idx := (threadOf_idx ht).symm
    refine .gone ht (fun ho hcl => ?_) ?_ trivial trivial
    · rw [hidx]
      exact List.mem_map_of_mem (List.mem_filter.mpr ⟨hloc, by simp [ho, hcl]⟩)
    · have hin : pre.length ∈ ((targetScan ls pkg).locs thread).map (·.idx) := by
        rw [hidx]
        exact List.mem_map_of_mem hloc
      unfold restated
      rw [if_pos hin, ite_self]

/-! ## The package rule -/

/-- **A rule that stands alone** goes with its line. -/
theorem standalone_gone (hc : ClashFree ls) {i : Nat} {c : Str}
    (hat : LineAt ls i (.outer (.rule pkg c false))) (hb : ¬ Bridged ls [i]) :
    Changed pkg [] (leftover ls pkg [] [i]) ls (ls.eraseIdx i) := by
  rw [eraseIdx_eq_replaceAt]
  refine @line_changed _ _ _ _ [i] [] _ _ hc hat hb (by simp) (by simp) fun q pre hlen hrole => ?_
  refine .flat (by simp [hlen]) (outer_place hrole).1 ?_ ?_
  · rw [hrole]
    rfl
  · simp [restated, hlen]

/-- **A rule that opens a block** leaves the opening line. -/
theorem openInline_gone (hpkg : pkg ≠ []) (hopen : '{' ∉ pkg) (hc : ClashFree ls) {i : Nat} {c : Str}
    (hat : LineAt ls i (.outer (.rule pkg c true))) :
    Changed pkg [] (leftover ls pkg [] [i]) ls (ls.set i (bareOpenLine pkg)) := by
  obtain ⟨hlt, _, hrole₀⟩ := hat.split
  have hk : Key pkg := outer_key hrole₀ hpkg
  have hbare : ∀ w, roleOf (.outside w) (bareOpenLine pkg) = .outer (.bareOpen pkg) := fun w =>
    @roleOf_bareOpenLine _ [] _ hk hopen
  rw [set_eq_replaceAt hlt fun _ => bareOpenLine pkg]
  refine @line_changed _ _ _ _ [] [] _ _ hc hat not_bridged_nil (by simp) (by simp) fun q pre hlen hrole => ?_
  refine .swap (fun p' hp' => ?_) fun key hkey => ?_
  · obtain ⟨⟨w, hw⟩, _⟩ := outer_place hrole
    rw [hw] at hp'
    obtain ⟨w', rfl⟩ := hp'.outside
    refine standsFor_single ?_ ?_ (fun hcl => ?_) trivial
    · rw [hbare]
      simp [entriesFor, entry, restated, hlen]
    · rw [hbare, hrole]
      have hnext : nextPlace (.outside w') (.outer (.bareOpen pkg)) = .inside pkg := by simp [nextPlace, hpkg]
      rw [hnext]
      exact Place.Alike.refl _
    · rw [Clash, hbare] at hcl
      simp only [Role.outer.injEq, OuterLine.bareOpen.injEq] at hcl
      exact hpkg hcl.2
  · rw [hrole] at hkey
    cases hkey

/-- The package half of `rule_delete` erases a header that stands alone. -/
theorem deleteStandalone_changed (hc : ClashFree ls) {i : Nat}
    (hline : (targetScan ls pkg).pkgLine = some (.standalone i)) (hb : ¬ Bridged ls [i]) :
    Changed pkg [] (leftover ls pkg [] (statingLine (targetScan ls pkg))) ls (ls.eraseIdx i) := by
  have hst : statingLine (targetScan ls pkg) = [i] := by simp [statingLine, hline, PkgLine.stating]
  obtain ⟨c, hat⟩ := (targetScan_found pkg hc).2.standing _ hline
  rw [hst]
  exact standalone_gone hc hat hb

/-- Of a header that opens a block it leaves the brace, which needs a name before it. -/
theorem deleteOpenInline_changed (hpkg : pkg ≠ []) (hp : PlainName pkg) (hc : ClashFree ls) {i : Nat}
    (hline : (targetScan ls pkg).pkgLine = some (.openInline i)) :
    Changed pkg [] (leftover ls pkg [] (statingLine (targetScan ls pkg))) ls (ls.set i (bareOpenLine pkg)) := by
  have hst : statingLine (targetScan ls pkg) = [i] := by simp [statingLine, hline, PkgLine.stating]
  obtain ⟨_, _, c, hat⟩ := (targetScan_found pkg hc).2.standing _ hline
  rw [hst]
  exact openInline_gone hpkg hp.noOpen hc hat

/-! ## The file -/

/-- What `rule_delete` does to the normalised lines: nothing found, or the edit of one of the two halves. -/
theorem deleteLines_cases (pkg thread : Str) (ls : List Str) :
    let mid := normalizeSingles ls pkg
    (deleteLines pkg thread ls = .error .notFound ∧
        (thread = [] → statingLine (targetScan mid pkg) = []) ∧
        (thread ≠ [] → (targetScan mid pkg).locs thread = [])) ∨
      (thread = [] ∧ ∃ i, (targetScan mid pkg).pkgLine = some (.standalone i) ∧
        deleteLines pkg thread ls = .ok (mid.eraseIdx i)) ∨
      (thread = [] ∧ ∃ i, (targetScan mid pkg).pkgLine = some (.openInline i) ∧
        deleteLines pkg thread ls = .ok (mid.set i (bareOpenLine pkg))) ∨
      (thread ≠ [] ∧ deleteLines pkg thread ls
        = .ok (((targetScan mid pkg).locs thread).reverse.foldl (fun ls loc => lineRemove ls pkg loc) mid)) := by
  intro mid
  unfold deleteLines
  dsimp only
  by_cases hth : thread = []
  · rw [if_pos (by simp [hth])]
    cases hline : (targetScan mid pkg).pkgLine with
    | none => exact .inl ⟨rfl, fun _ => by simp [statingLine, hline], fun h => absurd hth h⟩
    | some l =>
      cases l with
      | standalone i => exact .inr (.inl ⟨hth, i, rfl, rfl⟩)
      | openInline i => exact .inr (.inr (.inl ⟨hth, i, rfl, rfl⟩))
      | bareOpen i =>
        exact .inl ⟨rfl, fun _ => by simp [statingLine, hline, PkgLine.stating], fun h => absurd hth h⟩
      | barePending i =>
        exact .inl ⟨rfl, fun _ => by simp [statingLine, hline, PkgLine.stating], fun h => absurd hth h⟩
  · rw [if_neg (by simpa using hth)]
    by_cases hlocs : (targetScan mid pkg).locs thread = []
    · exact .inl ⟨if_pos hlocs, fun h => absurd h hth, fun _ => hlocs⟩
    · exact .inr (.inr (.inr ⟨hth, if_neg hlocs⟩))

/-- The written lines are lines. -/
theorem deleteLines_unbroken (hls : Unbroken ls) (h : deleteLines pkg thread ls = .ok ls') : Unbroken ls' := by
  have hmid := @normalizeSingles_unbroken pkg _ hls
  obtain ⟨hheader, hsingles⟩ := @scanned_unbroken pkg _ hmid
  rcases deleteLines_cases pkg thread ls with ⟨he, _⟩ | ⟨_, i, _, he⟩ | ⟨_, i, hline, he⟩ | ⟨_, he⟩
  · rw [he] at h
    cases h
  · rw [he] at h
    obtain rfl := Except.ok.inj h
    exact hmid.eraseIdx
  · rw [he] at h
    obtain rfl := Except.ok.inj h
    exact hmid.set (bareOpenLine_unbroken (hheader _ hline))
  · rw [he] at h
    obtain rfl := Except.ok.inj h
    refine lineRemoves_unbroken hmid fun loc hloc ho => ?_
    have ht := mem_locs.mp (List.mem_reverse.mp hloc)
    have hsingle := ((targetScan_listed _ pkg).threads _ ht).opens ho
    exact hsingles loc (mem_singles.mpr ⟨thread, ht, hsingle⟩)

theorem ruleDelete_result {text : Str} {writeOk : Bool} {e : RuleEdit} {content : Option Str}
    (h : ruleDelete writeOk (some text) pkg thread = (e, content)) :
    (e = .notFound → deleteLines pkg thread (lines text) = .error .notFound) ∧
      (e = .ok → ∃ ls, deleteLines pkg thread (lines text) = .ok ls ∧ content = some (unlines ls)) := by
  unfold ruleDelete editFile at h
  rw [show lines ((some text).getD []) = lines text from rfl] at h
  cases hd : deleteLines pkg thread (lines text) with
  | error e' =>
    have he' : e' = .notFound := by
      rcases deleteLines_cases pkg thread (lines text) with ⟨he, _⟩ | ⟨_, i, _, he⟩ | ⟨_, i, _, he⟩ | ⟨_, he⟩
      · exact Except.error.inj (hd.symm.trans he)
      · rw [he] at hd
        cases hd
      · rw [he] at hd
        cases hd
      · rw [he] at hd
        cases hd
    rw [hd, he'] at h
    obtain ⟨rfl, _⟩ := Prod.mk.inj h
    exact ⟨fun _ => (by rw [he']), fun h => (by cases h)⟩
  | ok ls =>
    rw [hd] at h
    cases writeOk with
    | false =>
      obtain ⟨rfl, _⟩ := Prod.mk.inj h
      exact ⟨fun h => (by cases h), fun h => (by cases h)⟩
    | true =>
      obtain ⟨rfl, rfl⟩ := Prod.mk.inj h
      exact ⟨fun h => (by cases h), fun _ => ⟨ls, rfl, rfl⟩⟩

/-- What `rule_delete` promises: nothing of the rule is left, the other rules of the package are, and a rule
    that has not been found is not there. -/
structure DeletesRule (topo : CpuTopology) (text pkg thread : Str) : Prop where
  notFound : ∀ writeOk content, ruleDelete writeOk (some text) pkg thread = (.notFound, content) →
    ∀ create, rulesOf thread (rulesFor pkg (loadLines create topo (lines text)).rules) = []
  ok : ∀ writeOk written, ruleDelete writeOk (some text) pkg thread = (.ok, some written) →
    ∀ create create', rulesOf thread (rulesFor pkg (loadLines create' topo (lines written)).rules) = [] ∧
      (rulesBut thread (rulesFor pkg (loadLines create' topo (lines written)).rules)).Perm
        (rulesBut thread (rulesFor pkg (loadLines create topo (lines text)).rules))

/-- When it keeps that: the text has no clash, the normalisation meets none of its traps, no removed line keeps a
    waiting header and a bare `{` apart, and, for the package rule, none that `add_rule` accepts stands on
    another line than the first header. -/
structure DeleteSafe (topo : CpuTopology) (ls : List Str) (pkg thread : Str) : Prop where
  clashFree : ClashFree ls
  normal : normalizeRuns ls pkg = true → NormalizeSafe ls pkg
  apart : thread ≠ [] → ¬ Bridged (normalizeSingles ls pkg) (erasedLocs (normalizeSingles ls pkg) pkg thread)
  apartHeader : thread = [] → ∀ i,
    (targetScan (normalizeSingles ls pkg) pkg).pkgLine = some (.standalone i) →
      ¬ Bridged (normalizeSingles ls pkg) [i]
  alone : thread = [] → ∀ e ∈ leftover (normalizeSingles ls pkg) pkg []
    (statingLine (targetScan (normalizeSingles ls pkg) pkg)), ruleView topo pkg e = none

end AppOptR
