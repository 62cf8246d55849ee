import AppOptR.Cpuset.Members
import AppOptR.RuleMatch

/-!
# `RuleMatch.Correctness.Documented` — the affinity `thread_affinity` promises

The documented reading: the thread rules that match, together; failing these the package rules, together; failing
these every CPU of a package that has thread rules anywhere, and otherwise nothing. The two loops of
`thread_affinity` accumulate over the whole rule list and carry a directory name along; `threadAffinity_view`
takes the accumulation away, `PackageAcc` is the invariant that ties the name to the mask.
-/

namespace AppOptR

open Text

variable {fnmatch : Str → Str → Bool} {createCpusetDir : Str → Bool} {pkg thread : Str} {cfg : AppConfig}
  {rules rules' : List AffinityRule}

/-! ## The documented affinity -/

/-- The thread rules of the package that match the thread. -/
def matchingRules (fnmatch : Str → Str → Bool) (pkg thread : Str) (rules : List AffinityRule) :
    List AffinityRule :=
  rules.filter fun r => r.pkg = pkg ∧ r.thread ≠ [] ∧ fnmatchC fnmatch r.threadPattern thread = true

/-- The package-level rules of the package. -/
def packageLevel (pkg : Str) (rules : List AffinityRule) : List AffinityRule :=
  rules.filter fun r => r.pkg = pkg ∧ r.thread = []

/-- The CPUs are those of the rules together. -/
def Together (cpus : CpuSet) (rules : List AffinityRule) : Prop :=
  ∀ i, cpus.isSet i = true ↔ ∃ r ∈ rules, r.cpus.isSet i = true

/-- What `thread_affinity` is documented to return. -/
structure Documented (fnmatch : Str → Str → Bool) (pkg thread : Str) (cfg : AppConfig)
    (res : Option AffinityResult) : Prop where
  matched : thread ≠ [] → matchingRules fnmatch pkg thread cfg.rules ≠ [] →
    ∃ r, res = some r ∧ r.isThreadRule = true ∧ Together r.cpus (matchingRules fnmatch pkg thread cfg.rules)
  fallback : thread = [] ∨ matchingRules fnmatch pkg thread cfg.rules = [] → packageLevel pkg cfg.rules ≠ [] →
    ∃ r, res = some r ∧ r.isThreadRule = false ∧ Together r.cpus (packageLevel pkg cfg.rules)
  everyCpu : thread = [] ∨ matchingRules fnmatch pkg thread cfg.rules = [] → packageLevel pkg cfg.rules = [] →
    pkg ∈ cfg.hasThreadRules → ∃ r, res = some r ∧ r.isThreadRule = false ∧ r.cpus = cfg.topo.presentCpus
  nothing : thread = [] ∨ matchingRules fnmatch pkg thread cfg.rules = [] → packageLevel pkg cfg.rules = [] →
    pkg ∉ cfg.hasThreadRules → res = none

/-! ## The two loops -/

/-- The CPUs of some rules, accumulated. -/
def unionCpus (rules : List AffinityRule) : CpuSet := rules.foldl (fun acc r => acc.or r.cpus) CpuSet.new

theorem foldl_or_isSet (acc : CpuSet) (i : Nat) :
    (rules.foldl (fun acc r => acc.or r.cpus) acc).isSet i = true ↔
      acc.isSet i = true ∨ ∃ r ∈ rules, r.cpus.isSet i = true := by
  induction rules generalizing acc with
  | nil => simp
  | cons r rules ih => rw [List.foldl_cons, ih, CpuSet.isSet_or, Bool.or_eq_true, List.exists_mem_cons_iff, or_assoc]

theorem unionCpus_together (rules : List AffinityRule) : Together (unionCpus rules) rules := fun i => by
  rw [unionCpus, foldl_or_isSet, CpuSet.isSet_new]
  simp

theorem unionCpus_perm (h : rules.Perm rules') : unionCpus rules = unionCpus rules' := by
  apply CpuSet.ext_isSet
  intro i
  rw [Bool.eq_iff_iff, unionCpus_together rules i, unionCpus_together rules' i]
  exact exists_congr fun r => and_congr_left fun _ => h.mem_iff

/-- Rules with CPUs have some together. -/
theorem unionCpus_count (hne : rules ≠ []) (h : ∀ r ∈ rules, r.cpus.count ≠ 0) : (unionCpus rules).count ≠ 0 := by
  intro hzero
  obtain ⟨r, rest, rfl⟩ := List.exists_cons_of_ne_nil hne
  refine h r (by simp) (CpuSet.count_eq_zero_iff.mpr fun i => ?_)
  have hno := CpuSet.count_eq_zero_iff.mp hzero i
  by_contra hi
  rw [Bool.not_eq_false] at hi
  rw [(unionCpus_together _ i).mpr ⟨r, by simp, hi⟩] at hno
  cases hno

/-- **The first loop** is the union of the matching rules. -/
theorem threadRules_eq :
    threadRules fnmatch pkg thread rules
      = (unionCpus (matchingRules fnmatch pkg thread rules), !(matchingRules fnmatch pkg thread rules).isEmpty) := by
  have run : ∀ (rules : List AffinityRule) (acc : CpuSet × Bool),
      rules.foldl
        (fun acc rule =>
          if rule.pkg ≠ pkg ∨ rule.thread = [] then acc
          else if fnmatchC fnmatch rule.threadPattern thread then (acc.1.or rule.cpus, true) else acc) acc
      = ((matchingRules fnmatch pkg thread rules).foldl (fun acc r => acc.or r.cpus) acc.1,
          acc.2 || !(matchingRules fnmatch pkg thread rules).isEmpty) := by
    intro rules
    induction rules with
    | nil => simp [matchingRules]
    | cons r rules ih =>
      intro acc
      rw [List.foldl_cons, ih]
      unfold matchingRules
      by_cases hskip : r.pkg ≠ pkg ∨ r.thread = []
      · rw [if_pos hskip, List.filter_cons_of_neg]
        rw [decide_eq_true_eq]
        rintro ⟨hpkg, hth, _⟩
        exact hskip.elim (fun h => h hpkg) hth
      · obtain ⟨hpkg, hth⟩ := not_or.mp hskip
        rw [not_not] at hpkg
        rw [if_neg hskip]
        by_cases hm : fnmatchC fnmatch r.threadPattern thread = true
        · rw [if_pos hm, List.filter_cons_of_pos (by simp [hpkg, hth, hm])]
          simp
        · rw [if_neg hm, List.filter_cons_of_neg (by simp [hm])]
  have h := run rules (CpuSet.new, false)
  rwa [Bool.false_or] at h

/-- **The invariant of the second loop**: the mask is the union of the rules seen, and the name is that of the
    only one. -/
structure PackageAcc (acc : CpuSet × Str × Bool) (done : List AffinityRule) : Prop where
  cpus : acc.1 = unionCpus done
  seen : acc.2.2 = !done.isEmpty
  dir : acc.2.1 ≠ [] → ∃ r, done = [r] ∧ acc.2.1 = r.cpusetDir

theorem PackageAcc.next {acc : CpuSet × Str × Bool} {done : List AffinityRule} (h : PackageAcc acc done)
    (r : AffinityRule) :
    PackageAcc (acc.1.or r.cpus, if acc.2.2 then [] else r.cpusetDir, true) (done ++ [r]) where
  cpus := by
    show acc.1.or r.cpus = unionCpus (done ++ [r])
    rw [h.cpus, unionCpus, unionCpus, List.foldl_append]
    rfl
  seen := by simp
  dir := by
    show (if acc.2.2 then [] else r.cpusetDir) ≠ [] → _
    cases done with
    | nil =>
      rw [h.seen]
      exact fun _ => ⟨r, rfl, rfl⟩
    | cons d done =>
      rw [h.seen]
      exact fun hne => absurd rfl hne

/-- **The second loop** keeps it. -/
theorem packageRules_acc (pkg : Str) (rules : List AffinityRule) :
    PackageAcc (packageRules pkg rules) (packageLevel pkg rules) := by
  have run : ∀ (rules done : List AffinityRule) (acc : CpuSet × Str × Bool), PackageAcc acc done →
      PackageAcc
        (rules.foldl
          (fun acc rule =>
            if rule.pkg ≠ pkg ∨ rule.thread ≠ [] then acc
            else (acc.1.or rule.cpus, if acc.2.2 then [] else rule.cpusetDir, true)) acc)
        (done ++ packageLevel pkg rules) := by
    intro rules
    induction rules with
    | nil =>
      intro done acc h
      rw [packageLevel, List.filter_nil, List.append_nil]
      exact h
    | cons r rules ih =>
      intro done acc h
      rw [List.foldl_cons]
      unfold packageLevel
      by_cases hskip : r.pkg ≠ pkg ∨ r.thread ≠ []
      · rw [if_pos hskip, List.filter_cons_of_neg]
        · exact ih done acc h
        · rw [decide_eq_true_eq]
          rintro ⟨hpkg, hth⟩
          exact hskip.elim (fun h => h hpkg) fun h => h hth
      · obtain ⟨hpkg, hth⟩ := not_or.mp hskip
        rw [not_not] at hpkg hth
        rw [if_neg hskip, List.filter_cons_of_pos (by simp [hpkg, hth]), List.append_cons]
        exact ih _ _ (h.next r)
  have h := run rules [] (CpuSet.new, [], false) ⟨rfl, rfl, fun hne => absurd rfl hne⟩
  rwa [List.nil_append] at h

/-! ## The result -/

/-- The CPUs and the kind of a result, as the documentation has them. -/
def documentedView (fnmatch : Str → Str → Bool) (pkg thread : Str) (cfg : AppConfig) : Option (CpuSet × Bool) :=
  if thread ≠ [] ∧ matchingRules fnmatch pkg thread cfg.rules ≠ [] then
    some (unionCpus (matchingRules fnmatch pkg thread cfg.rules), true)
  else if packageLevel pkg cfg.rules ≠ [] then some (unionCpus (packageLevel pkg cfg.rules), false)
  else if pkg ∈ cfg.hasThreadRules then some (cfg.topo.presentCpus, false)
  else none

/-- A rule as `add_rule` makes it: it has CPUs, and a directory name is that of its CPUs. -/
structure RuleSound (r : AffinityRule) : Prop where
  cpus : r.cpus.count ≠ 0
  dir : r.cpusetDir ≠ [] → r.cpusetDir = r.cpus.toRangeString

/-- A directory that exists is named after its CPUs. -/
theorem ensureCpusetDir_name {cpus : CpuSet} {topo : CpuTopology}
    (h : ensureCpusetDir createCpusetDir cpus topo ≠ []) :
    ensureCpusetDir createCpusetDir cpus topo = cpus.toRangeString := by
  unfold ensureCpusetDir at h ⊢
  split at h
  · exact absurd rfl h
  · next hon =>
    rw [if_neg hon]
    dsimp only at h ⊢
    split at h
    · next hmade => rw [if_pos hmade]
    · exact absurd rfl h

/-- No loop has matched: what the second one gives, by the package-level rules. -/
theorem packageRules_count_iff (hrules : ∀ r ∈ rules, RuleSound r) :
    (packageRules pkg rules).1.count = 0 ↔ packageLevel pkg rules = [] := by
  rw [(packageRules_acc pkg rules).cpus]
  constructor
  · intro hzero
    by_contra hne
    exact unionCpus_count hne (fun r hr => (hrules r (List.mem_filter.mp hr).1).cpus) hzero
  · intro hnil
    rw [hnil]
    exact CpuSet.count_eq_zero_iff.mpr CpuSet.isSet_new

/-- **The result of `thread_affinity`**: the documented CPUs and kind, and a name that is that of the CPUs. -/
theorem threadAffinity_view (hrules : ∀ r ∈ cfg.rules, RuleSound r) :
    (threadAffinity fnmatch createCpusetDir pkg thread cfg).map (fun r => (r.cpus, r.isThreadRule))
        = documentedView fnmatch pkg thread cfg ∧
      ∀ r, threadAffinity fnmatch createCpusetDir pkg thread cfg = some r → r.cpusetDir ≠ [] →
        r.cpusetDir = r.cpus.toRangeString := by
  have hsound : ∀ r ∈ matchingRules fnmatch pkg thread cfg.rules, r.cpus.count ≠ 0 := fun r hr =>
    (hrules r (List.mem_filter.mp hr).1).cpus
  unfold threadAffinity documentedView
  dsimp only
  by_cases hmatch : thread ≠ [] ∧ matchingRules fnmatch pkg thread cfg.rules ≠ []
  · -- a thread rule matches
    have hfirst : (if thread.isEmpty then (CpuSet.new, false) else threadRules fnmatch pkg thread cfg.rules)
        = (unionCpus (matchingRules fnmatch pkg thread cfg.rules), true) := by
      rw [if_neg (by simpa using hmatch.1), threadRules_eq]
      simp [hmatch.2]
    rw [hfirst, if_pos hmatch]
    simp only [if_true]
    rw [if_neg (unionCpus_count hmatch.2 hsound)]
    refine ⟨rfl, fun r hr => ?_⟩
    obtain rfl := Option.some.inj hr
    exact ensureCpusetDir_name
  · -- none does: the second loop decides
    have hfirst : (if thread.isEmpty then (CpuSet.new, false) else threadRules fnmatch pkg thread cfg.rules).2
        = false := by
      by_cases hth : thread = []
      · rw [if_pos (by simpa using hth)]
      · have hnone : matchingRules fnmatch pkg thread cfg.rules = [] := by
          by_contra hne
          exact hmatch ⟨hth, hne⟩
        rw [if_neg (by simpa using hth), threadRules_eq, hnone]
        rfl
    rw [hfirst, if_neg hmatch]
    simp only [Bool.false_eq_true, if_false]
    have hacc := packageRules_acc pkg cfg.rules
    by_cases hlevel : packageLevel pkg cfg.rules = []
    · rw [if_pos ((packageRules_count_iff hrules).mpr hlevel), if_neg (not_not.mpr hlevel)]
      by_cases hhas : pkg ∈ cfg.hasThreadRules
      · rw [if_pos hhas, if_pos hhas]
        refine ⟨rfl, fun r hr hne => ?_⟩
        obtain rfl := Option.some.inj hr
        exact absurd rfl hne
      · rw [if_neg hhas, if_neg hhas]
        exact ⟨rfl, fun r hr => by cases hr⟩
    · rw [if_neg fun h => hlevel ((packageRules_count_iff hrules).mp h), if_pos hlevel]
      refine ⟨by rw [Option.map_some, hacc.cpus], fun r hr hne => ?_⟩
      obtain rfl := Option.some.inj hr
      -- a name that is left is that of the only rule
      obtain ⟨rule, hone, hdir⟩ := hacc.dir hne
      have hmem : rule ∈ cfg.rules := (List.mem_filter.mp (hone ▸ List.mem_singleton_self rule)).1
      have hcpus : (packageRules pkg cfg.rules).1 = rule.cpus := by
        rw [hacc.cpus, hone]
        exact CpuSet.new_or rule.cpus
      show (packageRules pkg cfg.rules).2.1 = (packageRules pkg cfg.rules).1.toRangeString
      rw [hcpus, hdir]
      exact (hrules rule hmem).dir (hdir ▸ hne)

/-- **The order of the rules does not matter** to the documented affinity. -/
theorem documentedView_perm (h : rules'.Perm cfg.rules) :
    documentedView fnmatch pkg thread { cfg with rules := rules' } = documentedView fnmatch pkg thread cfg := by
  have hm : (matchingRules fnmatch pkg thread rules').Perm (matchingRules fnmatch pkg thread cfg.rules) :=
    h.filter _
  have hl : (packageLevel pkg rules').Perm (packageLevel pkg cfg.rules) := h.filter _
  unfold documentedView
  dsimp only
  rw [unionCpus_perm hm, unionCpus_perm hl]
  have hmnil : matchingRules fnmatch pkg thread rules' = [] ↔ matchingRules fnmatch pkg thread cfg.rules = [] :=
    ⟨fun he => (he ▸ hm).nil_eq.symm, fun he => (he ▸ hm).eq_nil⟩
  have hlnil : packageLevel pkg rules' = [] ↔ packageLevel pkg cfg.rules = [] :=
    ⟨fun he => (he ▸ hl).nil_eq.symm, fun he => (he ▸ hl).eq_nil⟩
  simp only [ne_eq, hmnil, hlnil]

theorem Documented.of_view {res : Option AffinityResult}
    (h : res.map (fun r => (r.cpus, r.isThreadRule)) = documentedView fnmatch pkg thread cfg) :
    Documented fnmatch pkg thread cfg res := by
  have hsome : ∀ {cpus : CpuSet} {kind : Bool}, res.map (fun r => (r.cpus, r.isThreadRule)) = some (cpus, kind) →
      ∃ r, res = some r ∧ r.isThreadRule = kind ∧ r.cpus = cpus := by
    intro cpus kind hv
    obtain ⟨r, hr, hpair⟩ := Option.map_eq_some_iff.mp hv
    obtain ⟨hcpus, hkind⟩ := Prod.mk.inj hpair
    exact ⟨r, hr, hkind, hcpus⟩
  have hnot : thread = [] ∨ matchingRules fnmatch pkg thread cfg.rules = [] →
      ¬ (thread ≠ [] ∧ matchingRules fnmatch pkg thread cfg.rules ≠ []) := by
    rintro (hth | hm) ⟨h₁, h₂⟩
    · exact h₁ hth
    · exact h₂ hm
  unfold documentedView at h
  constructor
  · intro hth hm
    rw [if_pos ⟨hth, hm⟩] at h
    obtain ⟨r, hr, hkind, hcpus⟩ := hsome h
    exact ⟨r, hr, hkind, hcpus ▸ unionCpus_together _⟩
  · intro hno hl
    rw [if_neg (hnot hno), if_pos hl] at h
    obtain ⟨r, hr, hkind, hcpus⟩ := hsome h
    exact ⟨r, hr, hkind, hcpus ▸ unionCpus_together _⟩
  · intro hno hl hhas
    rw [if_neg (hnot hno), if_neg (not_not.mpr hl), if_pos hhas] at h
    exact hsome h
  · intro hno hl hhas
    rw [if_neg (hnot hno), if_neg (not_not.mpr hl), if_neg hhas] at h
    exact Option.map_eq_none_iff.mp h

/-! ## Loaded configurations -/

theorem addRule_sound {topo : CpuTopology} {spec : Str} {r : AffinityRule}
    (h : addRule createCpusetDir topo pkg thread spec = some r) : RuleSound r := by
  unfold addRule at h
  split at h
  · cases h
  split at h
  · cases h
  split at h
  · cases h
  dsimp only at h
  split at h
  · cases h
  next hcount =>
  obtain rfl := Option.some.inj h
  refine ⟨hcount, fun hne => ?_⟩
  dsimp only at hne ⊢
  split at hne
  · next hth =>
    rw [if_pos hth]
    split at hne
    · next hon =>
      rw [if_pos hon]
      split at hne
      · next hmade => rw [if_pos hmade]
      · exact absurd rfl hne
    · exact absurd rfl hne
  · exact absurd rfl hne

theorem configOf_sound {create : Nat → Str → Bool} {topo : CpuTopology} {appPkgs threadPkgs : Finset Str}
    {content : Str} : ∀ r ∈ (configOf create topo appPkgs threadPkgs content).rules, RuleSound r := by
  intro r hr
  replace hr : r ∈ (loadLines create topo (lines content)).rules := hr
  rw [loadLines_rules] at hr
  obtain ⟨c, _, hc⟩ := List.mem_filterMap.mp hr
  exact addRule_sound hc

/-- **`thread_affinity` gives the documented affinity** for every configuration `load_config` builds, whatever the
    order of the rules, and the cpuset it names is that of the CPUs it returns. -/
theorem thread_affinity_documented (fnmatch : Str → Str → Bool) (create : Nat → Str → Bool)
    (createCpusetDir : Str → Bool) (topo : CpuTopology) (appPkgs threadPkgs : Finset Str)
    (content pkg thread : Str) :
    let cfg := configOf create topo appPkgs threadPkgs content
    let res := threadAffinity fnmatch createCpusetDir pkg thread cfg
    Documented fnmatch pkg thread cfg res ∧
      (∀ rules', rules'.Perm cfg.rules →
        (threadAffinity fnmatch createCpusetDir pkg thread { cfg with rules := rules' }).map
            (fun r => (r.cpus, r.isThreadRule)) = res.map fun r => (r.cpus, r.isThreadRule)) ∧
      ∀ r, res = some r → r.cpusetDir ≠ [] → r.cpusetDir = r.cpus.toRangeString := by
  intro cfg res
  have hsound : ∀ r ∈ cfg.rules, RuleSound r := configOf_sound
  obtain ⟨hview, hdir⟩ := @threadAffinity_view fnmatch createCpusetDir pkg thread cfg hsound
  refine ⟨Documented.of_view hview, fun rules' hperm => ?_, hdir⟩
  have hsound' : ∀ r ∈ { cfg with rules := rules' }.rules, RuleSound r := fun r hr =>
    hsound r (hperm.mem_iff.mp hr)
  exact (threadAffinity_view hsound').1.trans ((documentedView_perm hperm).trans hview.symm)

end AppOptR
