import AppOptR.Config.Load
import AppOptR.Cpuset.Ranges
import AppOptR.Web.RuleApi

/-!
# `Web.RulesJson` — the rules as the page shows them, and saves them back

`rules_json` of `web.rs` groups the loaded rules by package and gives each the text of its CPU set: a tier's name
where the set is the tier, else the range string (`spec_name`). `rule_api` reads such a text back (`SavesBack`). It
gets the same set from a tier's name always, from a range string as long as that has 63 bytes or fewer and every
member is present (`Representable`).
-/

namespace AppOptR

open Text Json

variable {topo : CpuTopology} {cpus : CpuSet}

/-! ## What is shown -/

/-- `spec_name`: the name of a tier where the set is one, else its ranges. -/
def specName (cpus : CpuSet) (topo : CpuTopology) : Str :=
  if cpus.count > 0 then
    if cpus = topo.eCore then "e-core".toList
    else if cpus = topo.pCore then "p-core".toList
    else if cpus = topo.hpCore then "hp-core".toList
    else if cpus = topo.presentCpus then "all-core".toList
    else cpus.toRangeString
  else cpus.toRangeString

/-- A rule as it is shown: its thread and its CPU set's text. -/
structure RuleItem where
  thread : Str
  spec : Str
  deriving DecidableEq

/-- The rules of a package, as the page shows them. -/
structure RuleGroup where
  pkg : Str
  items : List RuleItem
  deriving DecidableEq

/-- `groups[gi]["items"].push(..)` where `gi` is the index of the package's group, opened when there is none. -/
def pushItem (pkg : Str) (item : RuleItem) : List RuleGroup → List RuleGroup
  | [] => [{ pkg, items := [item] }]
  | g :: groups =>
    if g.pkg = pkg then { g with items := g.items ++ [item] } :: groups else g :: pushItem pkg item groups

/-- The groups, in the order in which the packages come up. -/
def ruleGroups (cfg : AppConfig) : List RuleGroup :=
  cfg.rules.foldl (fun groups r => pushItem r.pkg ⟨r.thread, specName r.cpus cfg.topo⟩ groups) []

def groupValue (g : RuleGroup) : Value :=
  .object
    [("pkg".toList, .string g.pkg),
      ("items".toList, .array (g.items.map fun item =>
        .object [("thread".toList, .string item.thread), ("spec".toList, .string item.spec)]))]

/-- `rules_json`. -/
def rulesJson (cfg : Option AppConfig) : Value :=
  .object [("rules".toList, .array (cfg.elim [] fun cfg => (ruleGroups cfg).map groupValue))]

/-- The items shown under a package. -/
def itemsOf (pkg : Str) (groups : List RuleGroup) : List RuleItem :=
  ((groups.find? fun g => g.pkg = pkg).map (·.items)).getD []

theorem itemsOf_pushItem (pkg q : Str) (item : RuleItem) (groups : List RuleGroup) :
    itemsOf q (pushItem pkg item groups) = itemsOf q groups ++ if pkg = q then [item] else [] := by
  unfold itemsOf
  induction groups with
  | nil => by_cases h : pkg = q <;> simp [pushItem, h]
  | cons g groups ih =>
    unfold pushItem
    by_cases hg : g.pkg = pkg
    · rw [if_pos hg]
      by_cases hq : pkg = q
      · subst hq
        simp [hg]
      · have hgq : ¬ g.pkg = q := fun he => hq (hg ▸ he)
        simp [hgq, hq]
    · rw [if_neg hg]
      by_cases hgq : g.pkg = q
      · have hq : ¬ pkg = q := fun he => hg (hgq.trans he.symm)
        simp [hgq, hq]
      · simpa [hgq] using ih

/-- **Every rule is shown under its package**, in file order. -/
theorem itemsOf_ruleGroups (cfg : AppConfig) (q : Str) :
    itemsOf q (ruleGroups cfg)
      = (cfg.rules.filter fun r => r.pkg = q).map fun r => ⟨r.thread, specName r.cpus cfg.topo⟩ := by
  have hrun : ∀ (rules : List AffinityRule) (groups : List RuleGroup),
      itemsOf q (rules.foldl (fun groups r => pushItem r.pkg ⟨r.thread, specName r.cpus cfg.topo⟩ groups) groups)
        = itemsOf q groups ++ (rules.filter fun r => r.pkg = q).map fun r => ⟨r.thread, specName r.cpus cfg.topo⟩ := by
    intro rules
    induction rules with
    | nil => intro groups; simp
    | cons r rules ih =>
      intro groups
      rw [List.foldl_cons, ih, itemsOf_pushItem]
      by_cases hr : r.pkg = q <;> simp [hr]
  exact hrun cfg.rules []

/-! ## What is saved -/

/-- The checks `rule_api` makes of a CPU spec. -/
def specAccepted (topo : CpuTopology) (cpus : Str) : Bool :=
  !(cpus.isEmpty || 64 ≤ byteLen cpus || !specLike cpus || (parseCpuSpec cpus topo).count == 0)

/-- They are the ones a spec that `rule_api` passes on has met. -/
theorem ruleApiArgs_specAccepted {body : Option Value} {pkg thread spec : Str}
    (h : ruleApiArgs body (some topo) = .ok (pkg, thread, spec)) : specAccepted topo spec = true := by
  unfold ruleApiArgs at h
  split at h
  · cases h
  split at h
  · dsimp only at h
    split at h
    · cases h
    split at h
    · cases h
    split at h
    · cases h
    next hspec =>
    simp only [Except.ok.injEq, Prod.mk.injEq] at h
    obtain ⟨rfl, rfl, rfl⟩ := h
    unfold specAccepted
    rw [Bool.not_eq_true'] at *
    exact Bool.eq_false_iff.mpr hspec
  · cases h

/-- The text of the set is accepted, and read as the set. -/
def SavesBack (topo : CpuTopology) (cpus : CpuSet) : Prop :=
  specAccepted topo (specName cpus topo) = true ∧ parseCpuSpec (specName cpus topo) topo = cpus

/-- The set is a tier, or its members are present and the bounds of its runs, with a separator each, take no more
    than 64 bytes. -/
def Representable (topo : CpuTopology) (cpus : CpuSet) : Prop :=
  cpus ∈ [topo.eCore, topo.pCore, topo.hpCore, topo.presentCpus] ∨
    (∀ i, cpus.isSet i = true → topo.presentCpus.isSet i = true) ∧ rangeWidth cpus ≤ 64

theorem specAccepted_iff {s : Str} : specAccepted topo s = true ↔
    s ≠ [] ∧ byteLen s < 64 ∧ specLike s = true ∧ (parseCpuSpec s topo).count ≠ 0 := by
  simp only [specAccepted, Bool.not_eq_true', Bool.or_eq_false_iff, List.isEmpty_eq_false_iff,
    decide_eq_false_iff_not, Nat.not_le, Bool.not_eq_false', beq_eq_false_iff_ne, and_assoc]

/-- A tier's name is saved back as the tier. -/
theorem tier_savesBack {name : Str}
    (hname : name ∈ ["e-core".toList, "p-core".toList, "hp-core".toList, "all-core".toList])
    (hcount : cpus.count ≠ 0) (htier : tierOf topo name = some cpus) :
    specAccepted topo name = true ∧ parseCpuSpec name topo = cpus := by
  have hshape : name ≠ [] ∧ byteLen name < 64 ∧ specLike name = true ∧ trim name = name ∧ ',' ∉ name := by
    clear htier
    revert name
    decide
  obtain ⟨hne, hlen, hlike, htrim, hcomma⟩ := hshape
  have hread : parseCpuSpec name topo = cpus := by
    unfold parseCpuSpec
    rw [if_neg (by simpa using hne), List.splitOn_eq_singleton hcomma, List.foldl_cons, List.foldl_nil,
      parseCpuSpecPart_eq (by rwa [htrim]), htrim, htier, Option.getD_some, CpuSet.new_or]
  refine ⟨specAccepted_iff.mpr ⟨hne, hlen, hlike, ?_⟩, hread⟩
  rwa [hread]

/-- A range string is saved back as the set when it fits and the members are present. -/
theorem rangeString_savesBack (hcount : cpus.count ≠ 0) :
    (specAccepted topo cpus.toRangeString = true ∧ parseCpuSpec cpus.toRangeString topo = cpus) ↔
      (∀ i, cpus.isSet i = true → topo.presentCpus.isSet i = true) ∧ rangeWidth cpus ≤ 64 := by
  have hlen := byteLen_rangeString hcount
  have hread := parseCpuSpec_rangeString hcount topo
  have hlike : specLike cpus.toRangeString = true := by
    rw [toRangeString_eq]
    exact specLike_printRuns (runs_ne_nil hcount)
  have hne : cpus.toRangeString ≠ [] := by
    intro he
    rw [he] at hlike
    exact absurd hlike (by decide)
  constructor
  · rintro ⟨hok, hsame⟩
    obtain ⟨-, hshort, -, -⟩ := specAccepted_iff.mp hok
    refine ⟨fun i hi => ?_, by omega⟩
    rw [← hsame] at hi
    exact ((hread i).mp hi).1
  · rintro ⟨hpresent, hwidth⟩
    have hsame : parseCpuSpec cpus.toRangeString topo = cpus := by
      apply CpuSet.ext_isSet
      intro i
      rw [Bool.eq_iff_iff, hread i]
      exact ⟨fun h => h.2, fun h => ⟨hpresent i h, h⟩⟩
    refine ⟨specAccepted_iff.mpr ⟨hne, by omega, hlike, ?_⟩, hsame⟩
    rwa [hsame]

/-- **When the text of a set is saved back**: exactly when the set is representable. -/
theorem savesBack_iff (hcount : cpus.count ≠ 0) : SavesBack topo cpus ↔ Representable topo cpus := by
  have htier : ∀ {name : Str}, name ∈ ["e-core".toList, "p-core".toList, "hp-core".toList, "all-core".toList] →
      tierOf topo name = some cpus → cpus ∈ [topo.eCore, topo.pCore, topo.hpCore, topo.presentCpus] →
      (specAccepted topo name = true ∧ parseCpuSpec name topo = cpus ↔ Representable topo cpus) :=
    fun hname ht hmem => ⟨fun _ => .inl hmem, fun _ => tier_savesBack hname hcount ht⟩
  unfold SavesBack specName
  rw [if_pos (Nat.pos_of_ne_zero hcount)]
  by_cases he : cpus = topo.eCore
  · rw [if_pos he]
    exact htier (by simp) (by rw [he]; rfl) (by simp [he])
  rw [if_neg he]
  by_cases hp : cpus = topo.pCore
  · rw [if_pos hp]
    exact htier (by simp) (by rw [hp]; rfl) (by simp [hp])
  rw [if_neg hp]
  by_cases hh : cpus = topo.hpCore
  · rw [if_pos hh]
    exact htier (by simp) (by rw [hh]; rfl) (by simp [hh])
  rw [if_neg hh]
  by_cases hall : cpus = topo.presentCpus
  · rw [if_pos hall]
    exact htier (by simp) (by rw [hall]; rfl) (by simp [hall])
  rw [if_neg hall, rangeString_savesBack hcount]
  unfold Representable
  simp only [List.mem_cons, he, hp, hh, hall, List.not_mem_nil, or_self, false_or]

/-- **What the page shows of a rule is saved back** exactly when its CPU set is representable. -/
theorem shown_spec_saves (createCpusetDir : Nat → Str → Bool) (topo : CpuTopology)
    (appPackageNames threadRulePackages : Finset Str) (content : Str) (rule : AffinityRule)
    (h : rule ∈ (configOf createCpusetDir topo appPackageNames threadRulePackages content).rules) :
    SavesBack topo rule.cpus ↔ Representable topo rule.cpus :=
  savesBack_iff (loadLines_cpus createCpusetDir topo h)

/-- A tier of the topology, given as numbers. -/
theorem shown_spec_saves_tier :
    ∃ rule ∈ (configOf (fun _ _ => true) quadTopology ∅ ∅ "com.a=0,1\n".toList).rules,
      (SavesBack quadTopology rule.cpus ↔ Representable quadTopology rule.cpus) ∧
        Representable quadTopology rule.cpus ∧ specName rule.cpus quadTopology = "e-core".toList := by
  have hrules : (configOf (fun _ _ => true) quadTopology ∅ ∅ "com.a=0,1\n".toList).rules
      = [⟨"com.a".toList, [], [], "0-1".toList, quadTopology.eCore⟩] := by decide +kernel
  have hmem : (⟨"com.a".toList, [], [], "0-1".toList, quadTopology.eCore⟩ : AffinityRule)
      ∈ (configOf (fun _ _ => true) quadTopology ∅ ∅ "com.a=0,1\n".toList).rules := by
    rw [hrules]
    exact List.mem_singleton.mpr rfl
  exact ⟨_, hmem, shown_spec_saves _ _ _ _ _ _ hmem, .inl (List.mem_cons_self ..), by decide +kernel⟩

/-- Sixty-four cores in two tiers. -/
def wideTopology : CpuTopology where
  presentCpus := parseCpuRanges "0-63".toList none
  presentStr := "0-63".toList
  memsStr := "0".toList
  cpusetEnabled := false
  eCore := parseCpuRanges "0-31".toList none
  pCore := CpuSet.new
  hpCore := parseCpuRanges "32-63".toList none

/-- A rule on every other core: the file is read, what is shown of it is refused. -/
theorem shown_spec_too_long :
    ∃ rule ∈ (configOf (fun _ _ => true) wideTopology ∅ ∅
        "com.a=0,2,4,6,8,10,12,14,16,18,20,22,24,26,28,30,32,34,36,38,40,42,44,46,48\n".toList).rules,
      ¬ SavesBack wideTopology rule.cpus := by
  have hrule : ((configOf (fun _ _ => true) wideTopology ∅ ∅
      "com.a=0,2,4,6,8,10,12,14,16,18,20,22,24,26,28,30,32,34,36,38,40,42,44,46,48\n".toList).rules.map
        fun rule => specAccepted wideTopology (specName rule.cpus wideTopology)) = [false] := by decide +kernel
  obtain ⟨rule, hmem, hrefused⟩ := List.mem_map.mp (hrule ▸ List.mem_singleton.mpr rfl)
  refine ⟨rule, hmem, fun h => ?_⟩
  rw [h.1] at hrefused
  cases hrefused

end AppOptR
