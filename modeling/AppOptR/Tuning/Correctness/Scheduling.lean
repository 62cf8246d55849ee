import AppOptR.Tuning.Correctness.CloneExact
import AppOptR.Tuning.Correctness.Confinement

/-!
# `Tuning.Correctness.Scheduling` — what the scheduler is told about a thread

The rules of a package are ordered, a wildcard first and the exceptions after it, and `effective_thread_tune`
merges those that match a thread. The merge is the last value set for each field (`effectiveThreadTune_eq`), and
the scheduler is told just that, within the kernel's bounds, both when a task is first seen and when its rules
are applied again (`scheduler_calls_exact`).
-/

namespace AppOptR

open Text Json

variable {env : TuneEnv} {config : TuningConfig} {app : AppTuneRule} {tid pid : Int} {pkg comm : Str}

/-! ## Merging the rules of a thread -/

/-- The rules of an app that match a thread. -/
def matchingTunes (env : TuneEnv) (app : AppTuneRule) (comm : Str) : List ThreadTuneRule :=
  app.threads.filter fun rule => patternMatches env rule.pattern comm

/-- The value of the last rule that sets the field. -/
def lastSet {α : Type} (field : ThreadTuneRule → Option α) (rules : List ThreadTuneRule) : Option α :=
  (rules.filterMap field).getLast?

theorem lastSet_concat {α : Type} (field : ThreadTuneRule → Option α) (rules : List ThreadTuneRule)
    (rule : ThreadTuneRule) : lastSet field (rules ++ [rule]) = (field rule).or (lastSet field rules) := by
  unfold lastSet
  rw [List.filterMap_append]
  cases h : field rule <;> simp [h]

theorem lastSet_mem {α : Type} {field : ThreadTuneRule → Option α} {rules : List ThreadTuneRule} {a : α}
    (h : lastSet field rules = some a) : ∃ rule ∈ rules, field rule = some a :=
  List.mem_filterMap.mp (List.mem_of_getLast? h)

/-- **A later rule overrides, field by field**: the merge is the last value set for each field. -/
theorem effectiveThreadTune_eq (env : TuneEnv) (app : AppTuneRule) (comm : Str) :
    effectiveThreadTune env app comm
      = if matchingTunes env app comm = [] then none
        else some ⟨lastSet (·.uclampMin) (matchingTunes env app comm),
          lastSet (·.uclampMax) (matchingTunes env app comm), lastSet (·.nice) (matchingTunes env app comm)⟩ := by
  have hfold : ∀ rules : List ThreadTuneRule,
      rules.foldl (mergeRule env comm) ({}, false)
        = (⟨lastSet (·.uclampMin) (rules.filter fun r => patternMatches env r.pattern comm),
            lastSet (·.uclampMax) (rules.filter fun r => patternMatches env r.pattern comm),
            lastSet (·.nice) (rules.filter fun r => patternMatches env r.pattern comm)⟩,
          !(rules.filter fun r => patternMatches env r.pattern comm).isEmpty) := by
    intro rules
    induction rules using List.reverseRecOn with
    | nil => rfl
    | append_singleton rules rule ih =>
      rw [List.foldl_append, List.foldl_cons, List.foldl_nil, ih, List.filter_append]
      by_cases hm : patternMatches env rule.pattern comm = true
      · have hor : ∀ {α : Type} (a b : Option α), (if a.isSome then a else b) = a.or b := by
          intro α a b
          cases a <;> rfl
        have hone : [rule].filter (fun r => patternMatches env r.pattern comm) = [rule] := by simp [hm]
        rw [hone, lastSet_concat, lastSet_concat, lastSet_concat]
        simp [mergeRule, hm, hor]
      · simp [mergeRule, hm]
  unfold effectiveThreadTune
  rw [hfold]
  unfold matchingTunes
  by_cases hnil : (app.threads.filter fun r => patternMatches env r.pattern comm) = []
  · simp [hnil]
  · simp [hnil]

/-! ## The scheduler's view -/

def TuneCall.sched : TuneCall → Bool
  | .setAttr _ _ | .setPriority _ _ => true
  | _ => false

/-- The scheduler calls for merged values: the clamp unless it is unset, crossed or cannot be read first, and
    the nice value. -/
def schedCalls (env : TuneEnv) (tid : Int) (tune : EffectiveThreadTune) : List TuneCall :=
  (if clampCrossed tune || (tune.uclampMin.isNone && tune.uclampMax.isNone) || !env.archKnown then []
    else match env.getAttr tid with
      | .ok attr => [.setAttr tid (clampAttr tune.uclampMin tune.uclampMax attr)]
      | .error _ => []) ++
  tune.nice.toList.map fun nice => .setPriority tid nice.toInt

theorem orWarn_sched (r : List TuneCall × Option Str) (key message : Str → Str) :
    (orWarn r key message).filter TuneCall.sched = r.1.filter TuneCall.sched := by
  unfold orWarn
  split
  · rfl
  · rw [List.filter_append]
    simp [TuneCall.sched]

/-- The clamp half of `apply_thread_tune`. -/
theorem setUclamp_sched (tune : EffectiveThreadTune) (crossed : List TuneCall) (key message : Str → Str)
    (hcrossed : crossed.filter TuneCall.sched = []) :
    (if clampCrossed tune = true then crossed
      else if (tune.uclampMin.isSome || tune.uclampMax.isSome) = true then
        orWarn (setUclamp env tid tune.uclampMin tune.uclampMax) key message
      else []).filter TuneCall.sched
      = if clampCrossed tune || (tune.uclampMin.isNone && tune.uclampMax.isNone) || !env.archKnown then []
        else match env.getAttr tid with
          | .ok attr => [.setAttr tid (clampAttr tune.uclampMin tune.uclampMax attr)]
          | .error _ => [] := by
  by_cases hcross : clampCrossed tune = true
  · simp [hcross, hcrossed]
  by_cases hset : (tune.uclampMin.isSome || tune.uclampMax.isSome) = true
  · have hunset : (tune.uclampMin.isNone && tune.uclampMax.isNone) = false := by
      cases hmin : tune.uclampMin <;> cases hmax : tune.uclampMax <;> simp_all
    rw [if_neg hcross, if_pos hset, orWarn_sched]
    unfold setUclamp
    cases harch : env.archKnown
    · simp
    · cases hattr : env.getAttr tid <;> simp [hcross, hunset, TuneCall.sched]
  · have hunset : (tune.uclampMin.isNone && tune.uclampMax.isNone) = true := by
      cases hmin : tune.uclampMin <;> cases hmax : tune.uclampMax <;> simp_all
    rw [if_neg hcross, if_neg hset]
    simp [hunset]

theorem applyThreadTune_sched (tune : EffectiveThreadTune) :
    (applyThreadTune env tid pkg comm tune).filter TuneCall.sched = schedCalls env tid tune := by
  unfold applyThreadTune schedCalls
  rw [List.filter_append]
  refine congrArg₂ (· ++ ·) ?_ ?_
  · exact setUclamp_sched tune _ _ _ rfl
  · cases tune.nice with
    | none => rfl
    | some nice =>
      dsimp only
      rw [orWarn_sched]
      rfl

theorem tuneThread_sched (env : TuneEnv) (app : AppTuneRule) (tid : Int) (pkg comm : Str) :
    (tuneThread env app tid pkg comm).filter TuneCall.sched
      = schedCalls env tid ⟨lastSet (·.uclampMin) (matchingTunes env app comm),
          lastSet (·.uclampMax) (matchingTunes env app comm), lastSet (·.nice) (matchingTunes env app comm)⟩ := by
  unfold tuneThread
  rw [effectiveThreadTune_eq]
  by_cases hnone : matchingTunes env app comm = []
  · rw [if_pos hnone, hnone]
    simp [schedCalls, lastSet]
  · rw [if_neg hnone]
    exact applyThreadTune_sched _

/-- A memory group has no say in the scheduler. -/
theorem applyMemoryGroup_sched {group : MemoryGroup} :
    (applyMemoryGroup env pid pkg group).filter TuneCall.sched = [] := by
  obtain ⟨dir, hwrites⟩ := applyMemoryGroup_writes env group pid pkg
  rw [List.filter_eq_nil_iff]
  intro call hcall
  rcases hwrites call hcall with ⟨key, message, rfl⟩ | ⟨_, hwrite⟩
  · simp [TuneCall.sched]
  · cases call <;> simp_all [GroupWrite, TuneCall.sched]

/-! ## Bounds -/

/-- What the profile asks for a thread: for each field the last value a matching rule of its package sets. -/
def wantedTune (env : TuneEnv) (config : TuningConfig) (pkg comm : Str) : EffectiveThreadTune :=
  let rules := (config.apps.filter (·.pkg = pkg)).flatMap fun app => matchingTunes env app comm
  ⟨lastSet (·.uclampMin) rules, lastSet (·.uclampMax) rules, lastSet (·.nice) rules⟩

/-- A scheduler call that changes the thread at hand, by values the kernel takes; the attributes the profile
    does not set are those the kernel has just returned. -/
def Bounded (env : TuneEnv) (tid : Int) (tune : EffectiveThreadTune) : TuneCall → Prop
  | .setPriority t nice => t = tid ∧ -20 ≤ nice ∧ nice ≤ 19
  | .setAttr t attr => t = tid ∧ (∀ min ∈ tune.uclampMin, ∀ max ∈ tune.uclampMax, min ≤ max) ∧
      ∃ read, env.getAttr tid = .ok read ∧
        attr = { read with
          size := attr.size, schedFlags := attr.schedFlags
          schedUtilMin := attr.schedUtilMin, schedUtilMax := attr.schedUtilMax } ∧
        (attr.schedUtilMin = read.schedUtilMin ∨ attr.schedUtilMin.toNat ≤ 1024) ∧
        (attr.schedUtilMax = read.schedUtilMax ∨ attr.schedUtilMax.toNat ≤ 1024)
  | _ => False

/-- In a valid configuration the entries of a package are the one that is found. -/
theorem filter_pkg {apps : List AppTuneRule} (hpkgs : (apps.map (·.pkg)).Nodup) (h : app ∈ apps) :
    apps.filter (·.pkg = app.pkg) = [app] := by
  induction apps with
  | nil => cases h
  | cons first rest ih =>
    rw [List.map_cons, List.nodup_cons] at hpkgs
    rcases List.mem_cons.mp h with rfl | hrest
    · have hnone : rest.filter (·.pkg = app.pkg) = [] := by
        rw [List.filter_eq_nil_iff]
        intro other hother heq
        exact hpkgs.1 (List.mem_map.mpr ⟨other, hother, by simpa using heq⟩)
      simp [hnone]
    · have hne : first.pkg ≠ app.pkg := fun heq => hpkgs.1 (heq ▸ List.mem_map_of_mem hrest)
      rw [List.filter_cons_of_neg (by simpa using hne)]
      exact ih hpkgs.2 hrest

theorem wantedTune_of_find (hpkgs : (config.apps.map (·.pkg)).Nodup) (h : appOf config pkg = some app) :
    wantedTune env config pkg comm = ⟨lastSet (·.uclampMin) (matchingTunes env app comm),
      lastSet (·.uclampMax) (matchingTunes env app comm), lastSet (·.nice) (matchingTunes env app comm)⟩ := by
  obtain ⟨hmem, rfl⟩ := appOf_mem h
  simp [wantedTune, filter_pkg hpkgs hmem]

theorem wantedTune_none (h : appOf config pkg = none) : schedCalls env tid (wantedTune env config pkg comm) = [] := by
  have hnone : config.apps.filter (·.pkg = pkg) = [] := by
    rw [List.filter_eq_nil_iff]
    intro app happ
    simpa using List.find?_eq_none.mp h app happ
  simp [wantedTune, hnone, lastSet, schedCalls]

theorem wantedTune_mem {α : Type} {field : ThreadTuneRule → Option α} {a : α}
    (h : lastSet field ((config.apps.filter (·.pkg = pkg)).flatMap fun app => matchingTunes env app comm) = some a) :
    ∃ app ∈ config.apps, ∃ rule ∈ app.threads, field rule = some a := by
  obtain ⟨rule, hrule, hfield⟩ := lastSet_mem h
  obtain ⟨app, happ, hmatch⟩ := List.mem_flatMap.mp hrule
  exact ⟨app, (List.mem_filter.mp happ).1, rule, (List.mem_filter.mp hmatch).1, hfield⟩

/-- The attributes that `set_uclamp` changes. -/
theorem clampAttr_bounded {min max : Option UInt16} (hmin : ∀ n ∈ min, n.toNat ≤ 1024)
    (hmax : ∀ n ∈ max, n.toNat ≤ 1024) (read : SchedAttr) :
    clampAttr min max read = { read with
        size := (clampAttr min max read).size, schedFlags := (clampAttr min max read).schedFlags
        schedUtilMin := (clampAttr min max read).schedUtilMin, schedUtilMax := (clampAttr min max read).schedUtilMax } ∧
      ((clampAttr min max read).schedUtilMin = read.schedUtilMin ∨ (clampAttr min max read).schedUtilMin.toNat ≤ 1024) ∧
      ((clampAttr min max read).schedUtilMax = read.schedUtilMax ∨
        (clampAttr min max read).schedUtilMax.toNat ≤ 1024) := by
  cases min <;> cases max <;> simp_all [clampAttr]

/-- The values that a valid profile wants are within the kernel's bounds. -/
theorem schedCalls_bounded (hvalid : config.Valid) :
    ∀ call ∈ schedCalls env tid (wantedTune env config pkg comm),
      Bounded env tid (wantedTune env config pkg comm) call := by
  have hrule : ∀ {α : Type} {field : ThreadTuneRule → Option α} {a : α},
      lastSet field ((config.apps.filter (·.pkg = pkg)).flatMap fun app => matchingTunes env app comm) = some a →
      ∃ rule : ThreadTuneRule, rule.Valid ∧ field rule = some a := by
    intro α field a h
    obtain ⟨app, happ, rule, hmem, hfield⟩ := wantedTune_mem h
    exact ⟨rule, (hvalid.apps app happ).threads rule hmem, hfield⟩
  have hmin : ∀ n ∈ (wantedTune env config pkg comm).uclampMin, n.toNat ≤ 1024 := by
    intro n hn
    obtain ⟨rule, hok, hfield⟩ := hrule hn
    exact hok.uclampMin n hfield
  have hmax : ∀ n ∈ (wantedTune env config pkg comm).uclampMax, n.toNat ≤ 1024 := by
    intro n hn
    obtain ⟨rule, hok, hfield⟩ := hrule hn
    exact hok.uclampMax n hfield
  have hnice : ∀ n ∈ (wantedTune env config pkg comm).nice, -20 ≤ n.toInt ∧ n.toInt ≤ 19 := by
    intro n hn
    obtain ⟨rule, hok, hfield⟩ := hrule hn
    exact hok.nice n hfield
  generalize wantedTune env config pkg comm = tune at hmin hmax hnice
  intro call hcall
  rcases List.mem_append.mp hcall with hcall | hcall
  · split at hcall
    · cases hcall
    next hsent =>
    cases hread : env.getAttr tid with
    | error e =>
      rw [hread] at hcall
      cases hcall
    | ok read =>
      rw [hread] at hcall
      obtain rfl := List.mem_singleton.mp hcall
      refine ⟨rfl, ?_, read, hread, clampAttr_bounded hmin hmax read⟩
      intro low hlow high hhigh
      have hcross : clampCrossed tune = false := by simp_all
      rw [Option.mem_def] at hlow hhigh
      simpa [clampCrossed, hlow, hhigh] using hcross
  · obtain ⟨nice, hmem, rfl⟩ := List.mem_map.mp hcall
    exact ⟨rfl, hnice nice (Option.mem_toList.mp hmem)⟩

/-- **The scheduler is told what the profile says**, and nothing else: for a profile that has been read, the
    scheduler calls of `apply_task` and those of `reapply_thread` are one clamp and one nice value at most, from
    the last matching rule that sets each field, for the thread at hand and within the kernel's bounds; clamps
    that contradict each other are not sent. -/
theorem scheduler_calls_exact (env : TuneEnv) (value : Value) (config : TuningConfig)
    (h : configFromValue value = .ok config) (tid pid : Int) (pkg comm : Str) :
    (applyTaskCalls env config tid pid pkg comm).filter TuneCall.sched
        = schedCalls env tid (wantedTune env config pkg comm) ∧
      (reapplyThread env config tid pkg comm).filter TuneCall.sched
        = schedCalls env tid (wantedTune env config pkg comm) ∧
      ∀ call ∈ schedCalls env tid (wantedTune env config pkg comm),
        Bounded env tid (wantedTune env config pkg comm) call := by
  have hvalid := configFromValue_valid h
  refine ⟨?_, ?_, schedCalls_bounded hvalid⟩
  · unfold applyTaskCalls
    cases hfind : config.apps.find? fun app => app.pkg = pkg with
    | none => exact (wantedTune_none hfind).symm
    | some app =>
      dsimp only
      rw [List.filter_append, tuneThread_sched, wantedTune_of_find hvalid.packages hfind]
      refine List.append_left_eq_self.mpr ?_
      split
      · split
        · rfl
        · split
          · exact applyMemoryGroup_sched
          · rfl
      · rfl
  · unfold reapplyThread
    cases hfind : config.apps.find? fun app => app.pkg = pkg with
    | none => exact (wantedTune_none hfind).symm
    | some app => rw [wantedTune_of_find hvalid.packages hfind, ← tuneThread_sched]

/-- A wildcard, and an exception for one thread. -/
def twoRuleConfig : TuningConfig where
  memoryGroups := []
  apps := [⟨"com.a".toList, none,
    [⟨"*".toList, some 100, some 600, some 5⟩, ⟨"Render".toList, some 300, none, some (-10)⟩]⟩]

/-- A system where every call succeeds and the only wildcard is the star. -/
def quietEnv : TuneEnv where
  status := fun _ => none
  taskTids := fun _ => none
  rootIsDir := fun _ => false
  canonicalize := fun _ => none
  isDir := fun _ => false
  fileExists := fun _ _ => false
  openControl := fun _ _ => none
  writeControl := fun _ _ _ => none
  archKnown := true
  getAttr := fun _ => .ok { size := 56, schedNice := 3 }
  setAttr := fun _ _ => none
  setPriority := fun _ _ => none
  fnmatch := fun pattern comm => pattern = "*".toList || pattern = comm

/-- The exception overrides the lower clamp and the nice value; the upper clamp stays that of the wildcard. -/
theorem scheduler_calls_exact_override :
    (applyTaskCalls quietEnv twoRuleConfig 7 5 "com.a".toList "Render".toList).filter TuneCall.sched
      = [.setAttr 7 { size := 56, schedFlags := 0x60, schedNice := 3, schedUtilMin := 300, schedUtilMax := 600 },
          .setPriority 7 (-10)] := by
  have hread : configFromValue (configValue twoRuleConfig) = .ok twoRuleConfig := by decide +kernel
  rw [(scheduler_calls_exact quietEnv _ twoRuleConfig hread 7 5 "com.a".toList "Render".toList).1]
  decide +kernel

end AppOptR
