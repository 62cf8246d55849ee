import AppOptR.Cpuset.Members
import AppOptR.Lib.Groups

/-!
# `Cpuset.CoreTypes` — the core tiers

`detect_core_types` reads the cpufreq policies, groups their CPUs by maximum frequency and splits the sorted groups
by their place: the first is the e tier, the last the h tier, what lies between the p tier. Which tier a frequency
goes to is a matter of the set of frequencies alone (`InTier`), and so is who is in a tier (`detect_isSet`): the
order of the directory leaves no trace. A policy without a frequency or without CPUs does not count.
-/

namespace AppOptR

open Text Groups

/-- `str::split_whitespace`. -/
def splitWhitespace (s : Str) : List Str := (s.splitOnP isWhitespace).filter fun t => !t.isEmpty

/-- An entry of `/sys/devices/system/cpu/cpufreq`: its name, and what the two files under it hold; nothing where
    that is no text. -/
structure PolicyDir where
  fileName : Option Str
  cpuinfoMaxFreq : Option Str
  relatedCpus : Option Str
  deriving DecidableEq

/-- A cpufreq policy: its maximum frequency and its related CPUs. -/
abbrev Policy := Nat × List Nat

/-- What the loop reads of an entry; an entry of another name is passed over. -/
def readPolicy (entry : PolicyDir) : Option Policy :=
  if !entry.fileName.any "policy".toList.isPrefixOf then none
  else
    let freq := (entry.cpuinfoMaxFreq.bind fun s => parseUnsigned 64 (trim s)).getD 0
    let cpus := (entry.relatedCpus.map fun s => (splitWhitespace s).filterMap (parseUnsigned 64)).getD []
    some (freq, cpus)

/-- The policies of the directory, which may not be there, in the order of `read_dir`. -/
def policiesOf (dir : Option (List PolicyDir)) : List Policy := (dir.getD []).filterMap readPolicy

/-- What the loop does with a policy: `groups` has one entry for each frequency. -/
def groupPolicy (groups : List (Nat × List Nat)) (policy : Policy) : List (Nat × List Nat) :=
  if policy.1 = 0 then groups
  else if policy.2.isEmpty then groups
  else Groups.add policy.1 policy.2 groups

/-- The tiers of the CPUs. -/
inductive Tier where
  | e
  | p
  | h
  deriving DecidableEq

/-- The tier of the group of index `i` of `n`. -/
def Tier.target (n i : Nat) : Tier := if i = 0 then .e else if i = n - 1 then .h else .p

/-- The three sets that `detect_core_types` returns. -/
structure CoreTypes where
  e : CpuSet := CpuSet.new
  p : CpuSet := CpuSet.new
  h : CpuSet := CpuSet.new
  deriving DecidableEq

namespace CoreTypes

def tier (t : CoreTypes) : Tier → CpuSet
  | .e => t.e
  | .p => t.p
  | .h => t.h

/-- `target.set(cpu)`. -/
def set (t : CoreTypes) (target : Tier) (cpu : Nat) : CoreTypes :=
  match target with
  | .e => { t with e := t.e.set cpu }
  | .p => { t with p := t.p.set cpu }
  | .h => { t with h := t.h.set cpu }

end CoreTypes

/-- One round of the loop over the sorted groups. -/
def splitGroup (n : Nat) (t : CoreTypes) (group : (Nat × List Nat) × Nat) : CoreTypes :=
  group.1.2.foldl (fun t cpu => t.set (Tier.target n group.2) cpu) t

/-- `detect_core_types`: the policies by frequency, and the groups shared out among the tiers. -/
def detectCoreTypes (dir : Option (List PolicyDir)) : CoreTypes :=
  let groups := ranked ((policiesOf dir).foldl groupPolicy [])
  groups.zipIdx.foldl (splitGroup groups.length) {}

/-! ## The members of a tier -/

variable {dir dir' : Option (List PolicyDir)} {policies policies' : List Policy} {t : CoreTypes} {y y' : Tier}
  {f cpu n i : Nat} {F : Set Nat}

@[simp] theorem CoreTypes.tier_new (y : Tier) : ({} : CoreTypes).tier y = CpuSet.new := by cases y <;> rfl

theorem CoreTypes.isSet_set (t : CoreTypes) (y y' : Tier) (c cpu : Nat) :
    ((t.set y c).tier y').isSet cpu = true ↔ (t.tier y').isSet cpu = true ∨ y = y' ∧ cpu = c ∧ cpu < cpuSetsize := by
  by_cases hy : y = y'
  · subst hy
    have hset : (t.set y c).tier y = (t.tier y).set c := by cases y <;> rfl
    rw [hset, CpuSet.isSet_set, Bool.or_eq_true, decide_eq_true_eq]
    refine or_congr_right ?_
    constructor
    · rintro ⟨rfl, hlt⟩
      exact ⟨rfl, rfl, hlt⟩
    · rintro ⟨_, rfl, hlt⟩
      exact ⟨rfl, hlt⟩
  · have hset : (t.set y c).tier y' = t.tier y' := by
      cases y <;> cases y' <;> first | rfl | exact absurd rfl hy
    rw [hset]
    simp [hy]

/-- Two results with the same tiers are equal. -/
theorem CoreTypes.ext_tier {t t' : CoreTypes} (h : ∀ y cpu, (t.tier y).isSet cpu = (t'.tier y).isSet cpu) : t = t' := by
  have he := CpuSet.ext_isSet (h .e)
  have hp := CpuSet.ext_isSet (h .p)
  have hh := CpuSet.ext_isSet (h .h)
  cases t
  cases t'
  simp only [CoreTypes.tier] at he hp hh
  rw [he, hp, hh]

theorem splitGroup_isSet (group : (Nat × List Nat) × Nat) :
    ((splitGroup n t group).tier y).isSet cpu = true ↔
      (t.tier y).isSet cpu = true ∨ Tier.target n group.2 = y ∧ cpu ∈ group.1.2 ∧ cpu < cpuSetsize := by
  unfold splitGroup
  induction group.1.2 generalizing t with
  | nil => simp
  | cons c cpus ih =>
    rw [List.foldl_cons, ih, CoreTypes.isSet_set, List.mem_cons]
    tauto

/-- **The split**: a tier gets the CPUs of the groups at its places. -/
theorem splitGroups_isSet (groups : List ((Nat × List Nat) × Nat)) :
    ((groups.foldl (splitGroup n) t).tier y).isSet cpu = true ↔ (t.tier y).isSet cpu = true ∨
      cpu < cpuSetsize ∧ ∃ group ∈ groups, Tier.target n group.2 = y ∧ cpu ∈ group.1.2 := by
  induction groups generalizing t with
  | nil => simp
  | cons group groups ih =>
    rw [List.foldl_cons, ih, splitGroup_isSet, List.exists_mem_cons_iff]
    tauto

/-! ## Tiers by frequency -/

/-- The policy counts: it has a frequency and a CPU. -/
def counted (policy : Policy) : Bool := policy.1 ≠ 0 && !policy.2.isEmpty

/-- The frequencies of the policies that count. -/
def frequencies (policies : List Policy) : Set Nat := {f | ∃ q ∈ policies, counted q = true ∧ q.1 = f}

/-- A policy of frequency `f` lists the CPU. -/
def Lists (policies : List Policy) (f cpu : Nat) : Prop := ∃ q ∈ policies, q.1 = f ∧ cpu ∈ q.2

/-- The tier that a frequency of `F` goes to. -/
def InTier (F : Set Nat) (y : Tier) (f : Nat) : Prop :=
  f ∈ F ∧ match y with
    | .e => IsLeast F f
    | .p => ¬ IsLeast F f ∧ ¬ IsGreatest F f
    | .h => IsGreatest F f ∧ ¬ IsLeast F f

/-- The groups are those of the policies that count. -/
theorem foldl_groupPolicy (policies : List Policy) :
    policies.foldl groupPolicy [] = collect (policies.filter counted) := by
  unfold collect
  induction policies using List.reverseRecOn with
  | nil => rfl
  | append_singleton policies q ih =>
    rw [List.foldl_concat, List.filter_append, List.foldl_append, ih]
    unfold groupPolicy counted
    by_cases hf : q.1 = 0
    · simp [hf]
    by_cases hc : q.2.isEmpty = true
    · simp [hf, hc]
    · simp [hf, hc]

theorem mem_frequencies : f ∈ keys (collect (policies.filter counted)) ↔ f ∈ frequencies policies := by
  rw [mem_keys_collect]
  simp only [List.mem_filter, and_assoc]
  rfl

/-- A group holds the CPUs that are listed with its frequency. -/
theorem held_groups (hf : f ≠ 0) : Held (collect (policies.filter counted)) f cpu ↔ Lists policies f cpu := by
  rw [held_collect]
  constructor
  · rintro ⟨q, hq, hqf, hcpu⟩
    exact ⟨q, (List.mem_filter.mp hq).1, hqf, hcpu⟩
  · rintro ⟨q, hq, rfl, hcpu⟩
    have hne : q.2.isEmpty = false := by
      rw [List.isEmpty_eq_false_iff]
      exact List.ne_nil_of_mem hcpu
    exact ⟨q, List.mem_filter.mpr ⟨hq, by simp [counted, hf, hne]⟩, rfl, hcpu⟩

theorem frequency_ne_zero (h : f ∈ frequencies policies) : f ≠ 0 := by
  obtain ⟨q, _, hcounted, rfl⟩ := h
  simp only [counted, Bool.and_eq_true, decide_eq_true_eq] at hcounted
  exact hcounted.1

theorem listed_frequency (hf : f ≠ 0) (h : Lists policies f cpu) : f ∈ frequencies policies := by
  obtain ⟨q, hq, rfl, hcpu⟩ := h
  refine ⟨q, hq, ?_, rfl⟩
  simp [counted, hf, List.ne_nil_of_mem hcpu]

/-- **The index of a group and its tier**: first and last are least and greatest. -/
theorem target_iff {ks : List Nat} (hs : ks.Pairwise (· < ·)) (hi : i < ks.length) :
    Tier.target ks.length i = y ↔ InTier {k | k ∈ ks} y ks[i] := by
  have hleast := isLeast_iff hs hi
  have hgreatest := isGreatest_iff hs hi
  have hmem : ks[i] ∈ {k | k ∈ ks} := List.getElem_mem hi
  unfold InTier
  rw [and_iff_right hmem]
  unfold Tier.target
  cases y with
  | e =>
    dsimp only
    rw [hleast]
    split
    · next h => exact iff_of_true rfl h
    · next h => exact iff_of_false (by split <;> simp) h
  | p =>
    dsimp only
    rw [hleast, hgreatest]
    split
    · next h => exact iff_of_false (by simp) fun hp => hp.1 h
    · next h =>
      split
      · next h' => exact iff_of_false (by simp) fun hp => hp.2 h'
      · next h' => exact iff_of_true rfl ⟨h, h'⟩
  | h =>
    dsimp only
    rw [hleast, hgreatest]
    split
    · next h => exact iff_of_false (by simp) fun hp => hp.2 h
    · next h =>
      split
      · next h' => exact iff_of_true rfl ⟨h', h⟩
      · next h' => exact iff_of_false (by simp) fun hp => h' hp.1

/-- **Who is in a tier**: the CPUs below 1024 that are listed with a frequency of the tier. -/
theorem detect_isSet (dir : Option (List PolicyDir)) (y : Tier) (cpu : Nat) :
    ((detectCoreTypes dir).tier y).isSet cpu = true ↔ cpu < cpuSetsize ∧
      ∃ f, InTier (frequencies (policiesOf dir)) y f ∧ Lists (policiesOf dir) f cpu := by
  unfold detectCoreTypes
  dsimp only
  rw [foldl_groupPolicy, splitGroups_isSet, CoreTypes.tier_new, CpuSet.isSet_new]
  generalize policiesOf dir = policies
  -- the groups, ranked: one for each counted frequency, in ascending order
  have hasc : (keys (ranked (collect (policies.filter counted)))).Pairwise (· < ·) := ranked_ascending nodup_collect
  have hkeys : {k | k ∈ keys (ranked (collect (policies.filter counted)))} = frequencies policies := by
    ext f
    rw [Set.mem_ofPred_eq, keys_ranked.mem_iff, mem_frequencies]
  have hheld : ∀ {f cpu}, f ≠ 0 → (Held (ranked (collect (policies.filter counted))) f cpu ↔ Lists policies f cpu) :=
    fun hf => held_ranked.trans (held_groups hf)
  generalize ranked (collect (policies.filter counted)) = groups at hasc hkeys hheld
  have hlen : (keys groups).length = groups.length := List.length_map _
  simp only [Bool.false_eq_true, false_or]
  refine and_congr_right fun _ => ?_
  constructor
  · rintro ⟨⟨group, i⟩, hmem, htarget, hcpu⟩
    -- a group of the tier is a frequency of the tier
    obtain ⟨hi, hget⟩ := List.getElem?_eq_some_iff.mp (List.mem_zipIdx_iff_getElem?.mp hmem)
    have hi' : i < (keys groups).length := hlen ▸ hi
    have hkey : (keys groups)[i] = group.1 := by simp [keys, hget]
    rw [← hlen] at htarget
    have htier := (target_iff hasc hi').mp htarget
    rw [hkeys, hkey] at htier
    have hgroup : group ∈ groups := List.mem_of_getElem hget
    exact ⟨group.1, htier, (hheld (frequency_ne_zero htier.1)).mp ⟨group.2, hgroup, hcpu⟩⟩
  · rintro ⟨f, htier, hlists⟩
    obtain ⟨cpus, hgroup, hcpu⟩ := (hheld (frequency_ne_zero htier.1)).mpr hlists
    -- and every frequency of the tier has its group
    obtain ⟨i, hi, hget⟩ := List.getElem_of_mem hgroup
    have hi' : i < (keys groups).length := hlen ▸ hi
    have hkey : (keys groups)[i] = f := by simp [keys, hget]
    rw [← hkeys, ← hkey, ← target_iff hasc hi', hlen] at htier
    refine ⟨((f, cpus), i), ?_, htier, hcpu⟩
    exact List.mem_zipIdx_iff_getElem?.mpr (List.getElem?_eq_some_iff.mpr ⟨hi, hget⟩)

/-! ## Order, completeness, separation -/

/-- Whatever the order of the policies, the frequencies and their CPUs are the same. -/
theorem frequencies_perm (h : policies.Perm policies') :
    frequencies policies = frequencies policies' ∧ ∀ f cpu, Lists policies f cpu ↔ Lists policies' f cpu := by
  refine ⟨Set.ext fun f => ?_, fun f cpu => ?_⟩
  · unfold frequencies
    simp only [Set.mem_ofPred_eq, h.mem_iff]
  · unfold Lists
    simp only [h.mem_iff]

/-- **The order of the directory does not matter.** -/
theorem detect_perm (h : (policiesOf dir).Perm (policiesOf dir')) : detectCoreTypes dir' = detectCoreTypes dir := by
  obtain ⟨hfreq, hlists⟩ := frequencies_perm h
  refine CoreTypes.ext_tier fun y cpu => ?_
  rw [Bool.eq_iff_iff, detect_isSet, detect_isSet, hfreq]
  simp only [hlists]

/-- Every frequency has its tier, and one only. -/
theorem inTier_exists (h : f ∈ F) : ∃ y, InTier F y f := by
  by_cases hleast : IsLeast F f
  · exact ⟨.e, h, hleast⟩
  · by_cases hgreatest : IsGreatest F f
    · exact ⟨.h, h, hgreatest, hleast⟩
    · exact ⟨.p, h, hleast, hgreatest⟩

theorem inTier_unique (h : InTier F y f) (h' : InTier F y' f) : y = y' := by
  obtain ⟨-, h⟩ := h
  obtain ⟨-, h'⟩ := h'
  cases y <;> cases y' <;> dsimp only at h h' <;> first | rfl | (exfalso; tauto)

/-- **Completeness**: a CPU is in some tier when a policy with a frequency lists it. -/
theorem detect_complete (hcpu : cpu < cpuSetsize) :
    (∃ y, ((detectCoreTypes dir).tier y).isSet cpu = true) ↔ ∃ q ∈ policiesOf dir, q.1 ≠ 0 ∧ cpu ∈ q.2 := by
  constructor
  · rintro ⟨y, h⟩
    obtain ⟨_, f, htier, q, hq, rfl, hlisted⟩ := (detect_isSet dir y cpu).mp h
    exact ⟨q, hq, frequency_ne_zero htier.1, hlisted⟩
  · rintro ⟨q, hq, hf, hlisted⟩
    have hlists : Lists (policiesOf dir) q.1 cpu := ⟨q, hq, rfl, hlisted⟩
    obtain ⟨y, htier⟩ := inTier_exists (listed_frequency hf hlists)
    exact ⟨y, (detect_isSet dir y cpu).mpr ⟨hcpu, q.1, htier, hlists⟩⟩

/-- The tiers are apart, and split by the frequencies of `F`: the lowest, the highest, and what lies between. -/
structure Tiered (F : Set Nat) (policies : List Policy) (t : CoreTypes) : Prop where
  disjoint : ∀ y y', y ≠ y' → ∀ cpu, (t.tier y).isSet cpu = true → (t.tier y').isSet cpu = false
  lowest : ∀ f, IsLeast F f → ∀ cpu < cpuSetsize, t.e.isSet cpu = true ↔ Lists policies f cpu
  highest : F.Nontrivial → ∀ f, IsGreatest F f → ∀ cpu < cpuSetsize, t.h.isSet cpu = true ↔ Lists policies f cpu
  between : ∀ cpu, t.p.isSet cpu = true → ∀ q ∈ policies, cpu ∈ q.2 → ∃ lo ∈ F, ∃ hi ∈ F, lo < q.1 ∧ q.1 < hi

/-- No CPU is listed by two policies. -/
def Unshared (policies : List Policy) : Prop := policies.Pairwise fun q q' => List.Disjoint q.2 q'.2

instance (policies : List Policy) : Decidable (Unshared policies) :=
  decidable_of_iff (policies.Pairwise fun q q' => ∀ cpu ∈ q.2, cpu ∉ q'.2) Iff.rfl

/-- The policy that lists a CPU is the only one. -/
theorem Unshared.unique (h : Unshared policies) {q q' : Policy} (hq : q ∈ policies) (hq' : q' ∈ policies)
    (hcpu : cpu ∈ q.2) (hcpu' : cpu ∈ q'.2) : q = q' := by
  obtain ⟨i, hi, rfl⟩ := List.getElem_of_mem hq
  obtain ⟨j, hj, rfl⟩ := List.getElem_of_mem hq'
  have hapart := List.pairwise_iff_getElem.mp h
  rcases Nat.lt_trichotomy i j with hlt | rfl | hlt
  · exact absurd hcpu' (hapart i j hi hj hlt hcpu)
  · rfl
  · exact absurd hcpu (hapart j i hj hi hlt hcpu')

/-- One frequency is least and greatest only when there is no other. -/
theorem least_ne_greatest (hF : F.Nontrivial) (h : IsGreatest F f) : ¬ IsLeast F f := by
  intro hleast
  obtain ⟨a, ha, b, hb, hne⟩ := hF
  have h₁ := le_antisymm (h.2 ha) (hleast.2 ha)
  have h₂ := le_antisymm (h.2 hb) (hleast.2 hb)
  exact hne (h₁.trans h₂.symm)

/-- **Separation**, where no CPU is listed by two policies. -/
theorem detect_tiered (h : Unshared (policiesOf dir)) :
    Tiered (frequencies (policiesOf dir)) (policiesOf dir) (detectCoreTypes dir) := by
  have hset := detect_isSet dir
  generalize policiesOf dir = policies at h hset
  refine ⟨fun y y' hne cpu hy => ?_, fun f hf cpu hcpu => ?_, fun hF f hf cpu hcpu => ?_, fun cpu hp q hq hlisted => ?_⟩
  · rw [← Bool.not_eq_true]
    intro hy'
    obtain ⟨_, f, htier, q, hq, rfl, hlisted⟩ := (hset y cpu).mp hy
    obtain ⟨_, f', htier', q', hq', rfl, hlisted'⟩ := (hset y' cpu).mp hy'
    rw [h.unique hq' hq hlisted' hlisted] at htier'
    exact hne (inTier_unique htier htier')
  · rw [show (detectCoreTypes dir).e = (detectCoreTypes dir).tier .e from rfl, hset, and_iff_right hcpu]
    constructor
    · rintro ⟨f', ⟨_, hleast⟩, hlists⟩
      rwa [hf.unique hleast]
    · exact fun hlists => ⟨f, ⟨hf.1, hf⟩, hlists⟩
  · rw [show (detectCoreTypes dir).h = (detectCoreTypes dir).tier .h from rfl, hset, and_iff_right hcpu]
    constructor
    · rintro ⟨f', ⟨_, hgreatest, _⟩, hlists⟩
      rwa [hf.unique hgreatest]
    · exact fun hlists => ⟨f, ⟨hf.1, hf, least_ne_greatest hF hf⟩, hlists⟩
  · obtain ⟨_, f, ⟨hmem, hleast, hgreatest⟩, q', hq', rfl, hlisted'⟩ := (hset .p cpu).mp hp
    obtain rfl := h.unique hq' hq hlisted' hlisted
    -- neither least nor greatest: there is one below and one above
    have hlo : ∃ lo ∈ frequencies policies, lo < q'.1 := by
      by_contra hn
      exact hleast ⟨hmem, fun k hk => not_lt.mp fun hlt => hn ⟨k, hk, hlt⟩⟩
    have hhi : ∃ hi ∈ frequencies policies, q'.1 < hi := by
      by_contra hn
      exact hgreatest ⟨hmem, fun k hk => not_lt.mp fun hlt => hn ⟨k, hk, hlt⟩⟩
    obtain ⟨lo, hlo, hlt⟩ := hlo
    obtain ⟨hi, hhi, hlt'⟩ := hhi
    exact ⟨lo, hlo, hi, hhi, hlt, hlt'⟩

/-- **Core tiers are a matter of the frequencies**: not of the order of the directory, complete, and separate where
    no CPU is listed twice. -/
theorem core_types_by_frequency (dir : Option (List PolicyDir)) :
    (∀ dir', (policiesOf dir).Perm (policiesOf dir') → detectCoreTypes dir' = detectCoreTypes dir) ∧
    (∀ cpu < cpuSetsize, (∃ y, ((detectCoreTypes dir).tier y).isSet cpu = true) ↔
      ∃ q ∈ policiesOf dir, q.1 ≠ 0 ∧ cpu ∈ q.2) ∧
    (Unshared (policiesOf dir) →
      Tiered (frequencies (policiesOf dir)) (policiesOf dir) (detectCoreTypes dir)) :=
  ⟨fun _ h => detect_perm h, fun _ hcpu => detect_complete hcpu, detect_tiered⟩

/-- The entry of a policy with these two files. -/
def policyDir (name freq cpus : String) : PolicyDir :=
  { fileName := some name.toList, cpuinfoMaxFreq := some freq.toList, relatedCpus := some cpus.toList }

/-- Three frequencies, one of them of two policies, and the directory read from behind. -/
theorem core_types_by_frequency_phone :
    let dir := [policyDir "policy0" "1800000\n" "0 1\n", policyDir "policy4" "2400000\n" "4\n",
      policyDir "policy7" "3000000\n" "7\n", policyDir "policy2" "1800000\n" "2 3\n"]
    detectCoreTypes (some dir.reverse) = detectCoreTypes (some dir) ∧
      (∃ y, ((detectCoreTypes (some dir)).tier y).isSet 3 = true) ∧
      Tiered (frequencies (policiesOf (some dir))) (policiesOf (some dir)) (detectCoreTypes (some dir)) := by
  intro dir
  obtain ⟨hperm, hcomplete, htiered⟩ := core_types_by_frequency (some dir)
  have hlisted : ∃ q ∈ policiesOf (some dir), q.1 ≠ 0 ∧ 3 ∈ q.2 := by decide
  refine ⟨hperm (some dir.reverse) ?_, (hcomplete 3 (by decide)).mpr hlisted, htiered (by decide)⟩
  unfold policiesOf
  rw [Option.getD_some, Option.getD_some]
  exact dir.reverse_perm.symm.filterMap readPolicy

/-- A policy that lists no CPU does not count, whatever its frequency: the e tier holds the CPUs of the next one. -/
theorem core_types_offline_policy :
    let dir := some [policyDir "policy0" "1800000\n" "\n", policyDir "policy4" "2400000\n" "0 1\n"]
    Unshared (policiesOf dir) ∧
      ¬ Tiered {f | f ≠ 0 ∧ ∃ q ∈ policiesOf dir, q.1 = f} (policiesOf dir) (detectCoreTypes dir) := by
  intro dir
  have hpolicies : policiesOf dir = [(1800000, []), (2400000, [0, 1])] := by decide
  refine ⟨by decide, fun h => ?_⟩
  rw [hpolicies] at h
  have hleast :
      IsLeast {f | f ≠ 0 ∧ ∃ q ∈ [((1800000 : Nat), ([] : List Nat)), (2400000, [0, 1])], q.1 = f} 1800000 := by
    constructor
    · exact ⟨by decide, _, List.mem_cons_self, rfl⟩
    · rintro f ⟨_, q, hq, rfl⟩
      simp only [List.mem_cons, List.not_mem_nil, or_false] at hq
      rcases hq with rfl | rfl <;> decide
  have hset : (detectCoreTypes dir).e.isSet 0 = true := by decide
  obtain ⟨q, hq, hfreq, hcpu⟩ := (h.lowest 1800000 hleast 0 (by decide)).mp hset
  simp only [List.mem_cons, List.not_mem_nil, or_false] at hq
  rcases hq with rfl | rfl
  · exact absurd hcpu List.not_mem_nil
  · exact absurd hfreq (by decide)

end AppOptR
