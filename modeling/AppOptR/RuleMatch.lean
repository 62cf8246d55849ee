import AppOptR.Config.Load

/-!
# `RuleMatch` — which affinity a thread gets, and which package a process is

`thread_affinity` and `comm_to_pkg` of `rule_match.rs`. `fnmatch` is the C library's; creating a cpuset
directory and reading a command line are system calls. All three are parameters.
-/

namespace AppOptR

open Text

/-- `AffinityResult`. -/
structure AffinityResult where
  cpus : CpuSet
  cpusetDir : Str
  isThreadRule : Bool
  deriving DecidableEq

section
variable (fnmatch : Str → Str → Bool) (createCpusetDir : Str → Bool)

/-- `fnmatch_c`: nothing matches a name that does not fit the buffer. -/
def fnmatchC (pattern string : Str) : Bool :=
  if maxThreadLen ≤ byteLen string then false else fnmatch pattern string

/-- The first loop of `thread_affinity`, for the thread rules that match: the union, and whether any did. -/
def threadRules (pkg thread : Str) (rules : List AffinityRule) : CpuSet × Bool :=
  rules.foldl
    (fun acc rule =>
      if rule.pkg ≠ pkg ∨ rule.thread = [] then acc
      else if fnmatchC fnmatch rule.threadPattern thread then (acc.1.or rule.cpus, true) else acc)
    (CpuSet.new, false)

/-- The second loop, for the package rules: the union, and the directory while there is one rule only. -/
def packageRules (pkg : Str) (rules : List AffinityRule) : CpuSet × Str × Bool :=
  rules.foldl
    (fun acc rule =>
      if rule.pkg ≠ pkg ∨ rule.thread ≠ [] then acc
      else (acc.1.or rule.cpus, if acc.2.2 then [] else rule.cpusetDir, true))
    (CpuSet.new, [], false)

/-- `thread_affinity`: the rules that match the thread, or else those of the package, or else every CPU where the
    package has rules for threads only. -/
def threadAffinity (pkg thread : Str) (cfg : AppConfig) : Option AffinityResult :=
  let first := if thread.isEmpty then (CpuSet.new, false) else threadRules fnmatch pkg thread cfg.rules
  let matched := first.2
  let (cpus, cpusetDir) :=
    if matched then (first.1, ensureCpusetDir createCpusetDir first.1 cfg.topo)
    else
      let fallback := packageRules pkg cfg.rules
      (fallback.1, fallback.2.1)
  if cpus.count = 0 then
    if pkg ∈ cfg.hasThreadRules then
      some { cpus := cfg.topo.presentCpus, cpusetDir := [], isThreadRule := false }
    else none
  else some { cpus, cpusetDir, isThreadRule := matched }

/-- The CPUs and the kind of the result do not depend on the cpuset directories. -/
theorem threadAffinity_env (createCpusetDir' : Str → Bool) (pkg thread : Str) (cfg : AppConfig) :
    (threadAffinity fnmatch createCpusetDir pkg thread cfg).map (fun r => (r.cpus, r.isThreadRule))
      = (threadAffinity fnmatch createCpusetDir' pkg thread cfg).map
          (fun r => (r.cpus, r.isThreadRule)) := by
  unfold threadAffinity
  dsimp only
  split <;> split <;> first | rfl | (split <;> rfl)

theorem threadRules_none {pkg thread : Str} {rules : List AffinityRule}
    (h : ∀ rule ∈ rules, rule.pkg = pkg → rule.thread = []) :
    threadRules fnmatch pkg thread rules = (CpuSet.new, false) := by
  unfold threadRules
  generalize (CpuSet.new, false) = acc
  induction rules with
  | nil => rfl
  | cons rule rules ih =>
    have hskip : rule.pkg ≠ pkg ∨ rule.thread = [] := by
      by_cases hpkg : rule.pkg = pkg
      · exact Or.inr (h rule (List.mem_cons_self ..) hpkg)
      · exact Or.inl hpkg
    rw [List.foldl_cons, if_pos hskip]
    exact ih fun r hr => h r (List.mem_cons_of_mem _ hr)

/-- A package without thread rules gives all its threads the same. -/
theorem threadAffinity_packageOnly {pkg : Str} {cfg : AppConfig}
    (h : ∀ rule ∈ cfg.rules, rule.pkg = pkg → rule.thread = []) (thread : Str) :
    threadAffinity fnmatch createCpusetDir pkg thread cfg
      = threadAffinity fnmatch createCpusetDir pkg [] cfg := by
  unfold threadAffinity
  rw [threadRules_none fnmatch h, ite_self]
  rfl

/-- The union of the package rules is empty only when each of them is. -/
theorem packageRules_count {pkg : Str} {rules : List AffinityRule}
    (h : (packageRules pkg rules).1.count = 0) :
    ∀ rule ∈ rules, rule.pkg = pkg → rule.thread = [] → rule.cpus.count = 0 := by
  have run : ∀ (rules : List AffinityRule) (acc : CpuSet × Str × Bool),
      (rules.foldl
        (fun acc rule =>
          if rule.pkg ≠ pkg ∨ rule.thread ≠ [] then acc
          else (acc.1.or rule.cpus, if acc.2.2 then [] else rule.cpusetDir, true)) acc).1.count = 0 →
      acc.1.count = 0 ∧ ∀ rule ∈ rules, rule.pkg = pkg → rule.thread = [] → rule.cpus.count = 0 := by
    intro rules
    induction rules with
    | nil => exact fun acc h => ⟨h, fun _ h => absurd h List.not_mem_nil⟩
    | cons rule rules ih =>
      intro acc h
      obtain ⟨hacc, hrest⟩ := ih _ h
      dsimp only at hacc
      by_cases hskip : rule.pkg ≠ pkg ∨ rule.thread ≠ []
      · rw [if_pos hskip] at hacc
        refine ⟨hacc, fun r hr hpkg hthread => ?_⟩
        rcases List.mem_cons.mp hr with rfl | hr
        · rcases hskip with hno | hno
          · exact absurd hpkg hno
          · exact absurd hthread hno
        · exact hrest r hr hpkg hthread
      · rw [if_neg hskip] at hacc
        obtain ⟨hleft, hright⟩ := CpuSet.count_or_eq_zero.mp hacc
        refine ⟨hleft, fun r hr hpkg hthread => ?_⟩
        rcases List.mem_cons.mp hr with rfl | hr
        · exact hright
        · exact hrest r hr hpkg hthread
  exact (run rules _ h).2

/-- The CPUs of some rules together. -/
def unionOf (rules : List (Str × CpuSet)) : CpuSet := rules.foldl (fun acc r => acc.or r.2) CpuSet.new

theorem unionOf_perm {rules rules' : List (Str × CpuSet)} (h : rules.Perm rules') :
    unionOf rules = unionOf rules' := by
  have : RightCommutative fun (acc : CpuSet) (r : Str × CpuSet) => acc.or r.2 :=
    ⟨fun s r r' => by rw [CpuSet.or_assoc, CpuSet.or_assoc, CpuSet.or_comm r.2]⟩
  exact h.foldl_eq _

/-- Rules within the first one add nothing. -/
theorem unionOf_covered {r : Str × CpuSet} {rules : List (Str × CpuSet)} (h : ∀ r' ∈ rules, r.2.or r'.2 = r.2) :
    unionOf (r :: rules) = r.2 := by
  rw [unionOf, List.foldl_cons, CpuSet.new_or]
  induction rules with
  | nil => rfl
  | cons r' rules ih =>
    rw [List.foldl_cons, h r' (by simp)]
    exact ih fun x hx => h x (by simp [hx])

/-- **The fallback of `thread_affinity`** is the union of the package-level rules. -/
theorem packageRules_union (pkg : Str) (rules : List AffinityRule) :
    (packageRules pkg rules).1 = unionOf ((rulesFor pkg rules).filter fun r => r.1 = []) := by
  have run : ∀ (rules : List AffinityRule) (acc : CpuSet × Str × Bool),
      (rules.foldl
        (fun acc rule =>
          if rule.pkg ≠ pkg ∨ rule.thread ≠ [] then acc
          else (acc.1.or rule.cpus, if acc.2.2 then [] else rule.cpusetDir, true)) acc).1
        = ((rulesFor pkg rules).filter fun r => r.1 = []).foldl (fun acc r => acc.or r.2) acc.1 := by
    intro rules
    induction rules with
    | nil => exact fun _ => rfl
    | cons rule rules ih =>
      intro acc
      rw [List.foldl_cons, ih, rulesFor, rulesFor]
      by_cases hpkg : rule.pkg = pkg
      · by_cases hth : rule.thread = []
        · simp [hpkg, hth]
        · simp [hpkg, hth]
      · simp [hpkg]
  exact run rules _

/-- A package with thread rules gives every thread an affinity: all CPUs, where no rule matches. -/
theorem threadAffinity_isSome_of_thread {pkg : Str} {cfg : AppConfig} (thread : Str)
    (h : pkg ∈ cfg.hasThreadRules) : (threadAffinity fnmatch createCpusetDir pkg thread cfg).isSome := by
  unfold threadAffinity
  dsimp only
  rw [if_pos h, apply_ite Option.isSome]
  exact ite_self true

/-- A thread of a package with rules has an affinity. -/
theorem threadAffinity_isSome {pkg : Str} {cfg : AppConfig} (thread : Str) {rule : AffinityRule}
    (hrule : rule ∈ cfg.rules) (hpkg : rule.pkg = pkg) (hcpus : rule.cpus.count ≠ 0)
    (hthreads : pkg ∉ cfg.hasThreadRules → ∀ r ∈ cfg.rules, r.pkg = pkg → r.thread = []) :
    (threadAffinity fnmatch createCpusetDir pkg thread cfg).isSome := by
  by_cases hhas : pkg ∈ cfg.hasThreadRules
  · exact threadAffinity_isSome_of_thread fnmatch createCpusetDir thread hhas
  · have honly := hthreads hhas
    have hcount : (packageRules pkg cfg.rules).1.count ≠ 0 :=
      fun h => hcpus (packageRules_count h rule hrule hpkg (honly rule hrule hpkg))
    rw [threadAffinity_packageOnly fnmatch createCpusetDir honly]
    unfold threadAffinity
    simp [hcount]

end

/-- `comm_to_pkg`. `readCmdline pid` is what reading the command line of `pid` gives at that moment. -/
def commToPkg (readCmdline : Int → Option Str) (pid : Int) (comm : Str) (cfg : AppConfig) : Option Str :=
  if comm ∈ cfg.pkgs then some comm
  else if 15 ≤ byteLen comm ∧ ∃ p ∈ cfg.pkgs, comm.isPrefixOf p ∨ comm.isSuffixOf p then
    (readCmdline pid).filter fun name => name ∈ cfg.pkgs
  else none

end AppOptR
