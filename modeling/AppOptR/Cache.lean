import AppOptR.ProcFs
import AppOptR.RuleMatch
import AppOptR.Tuning.Config

/-!
# `Cache` — the tasks both modes keep

`ProcCache` of `cache.rs`, with `affinity_set` of `apply_affinity.rs`. What the system answers at a moment
is a `Sys`; every step takes its own, so nothing is assumed to stay as it was. Writes whose outcome the
source drops (the cpuset's `tasks` file, the tuning of one thread) leave no trace in the model.
-/

namespace AppOptR

open Text

/-- `raw_os_error()`, as far as it is looked at. -/
inductive Errno where
  | esrch
  | eperm
  | other
  deriving DecidableEq, Repr

/-- The answers of the system calls at one moment; `none` from a call that may fail means success. -/
structure Sys where
  createCpusetDir : Str → Bool
  getAffinity : Int → Option CpuSet
  setAffinity : Int → CpuSet → Option Errno
  kill : Int → Option Errno

/-- A system on which every call succeeds and no thread has its affinity yet. -/
def Sys.calm : Sys where
  createCpusetDir _ := true
  getAffinity _ := none
  setAffinity _ _ := none
  kill _ := none

/-- `TaskEntry`: what the daemon has given to a thread; without CPUs the thread is only tuned. -/
structure TaskEntry where
  pid : Int
  pkg : Str
  comm : Str
  cpus : Option CpuSet
  cpusetDir : Str
  isThreadRule : Bool
  deriving DecidableEq

/-- `ProcCache`: the threads that are looked after, by id. -/
structure ProcCache where
  tasks : Finmap fun _ : Int => TaskEntry

namespace ProcCache

def new : ProcCache := ⟨∅⟩

def clear (_ : ProcCache) : ProcCache := ⟨∅⟩

/-- `task_del`. -/
def taskDel (cache : ProcCache) (tid : Int) : ProcCache := ⟨cache.tasks.erase tid⟩

def insert (cache : ProcCache) (tid : Int) (e : TaskEntry) : ProcCache := ⟨cache.tasks.insert tid e⟩

@[simp] theorem lookup_new (tid : Int) : ProcCache.new.tasks.lookup tid = none := Finmap.lookup_empty tid

@[simp] theorem lookup_clear (cache : ProcCache) (tid : Int) : cache.clear.tasks.lookup tid = none :=
  Finmap.lookup_empty tid

theorem lookup_taskDel (cache : ProcCache) (tid t : Int) :
    (cache.taskDel tid).tasks.lookup t = if t = tid then none else cache.tasks.lookup t := by
  by_cases h : t = tid
  · rw [if_pos h, h]
    exact Finmap.lookup_erase tid cache.tasks
  · rw [if_neg h]
    exact Finmap.lookup_erase_ne h

theorem lookup_insert (cache : ProcCache) (tid t : Int) (e : TaskEntry) :
    (cache.insert tid e).tasks.lookup t = if t = tid then some e else cache.tasks.lookup t := by
  by_cases h : t = tid
  · rw [if_pos h, h]
    exact Finmap.lookup_insert cache.tasks
  · rw [if_neg h]
    exact Finmap.lookup_insert_of_ne cache.tasks h

/-- `pkg_lookup_comm`: a thread with a name of its own belongs to the package of its main thread. -/
def pkgLookupComm (readCmdline : Int → Option Str) (cache : ProcCache) (pid : Int) (comm : Str)
    (cfg : AppConfig) : Option Str :=
  (commToPkg readCmdline pid comm cfg).or ((cache.tasks.lookup pid).map (·.pkg))

end ProcCache

/-- `affinity_set`; true means that the thread is gone. -/
def affinitySet (sys : Sys) (tid : Int) (cpus : CpuSet) : Bool :=
  if (sys.getAffinity tid).any fun curr => curr = cpus then false
  else sys.setAffinity tid cpus = some .esrch

/-- Every entry satisfies `P`. -/
def ProcCache.All (P : TaskEntry → Prop) (cache : ProcCache) : Prop :=
  ∀ tid e, cache.tasks.lookup tid = some e → P e

theorem ProcCache.all_clear (P : TaskEntry → Prop) (cache : ProcCache) : cache.clear.All P := by
  intro tid e he
  rw [lookup_clear] at he
  cases he

theorem ProcCache.All.taskDel {P : TaskEntry → Prop} {cache : ProcCache} (h : cache.All P) (tid : Int) :
    (cache.taskDel tid).All P := by
  intro t e he
  rw [lookup_taskDel] at he
  split at he
  · cases he
  · exact h t e he

theorem ProcCache.All.insert {P : TaskEntry → Prop} {cache : ProcCache} (h : cache.All P) {tid : Int}
    {e : TaskEntry} (he : P e) : (cache.insert tid e).All P := by
  intro t e' he'
  rw [lookup_insert] at he'
  split at he'
  · cases he'
    exact he
  · exact h t e' he'

/-! ## `task_apply` -/

section
variable {σ : Type} (fnmatch : Str → Str → Bool) (tuning : TuningConfig) (cfg : AppConfig)

/-- The name `task_apply` matches and keeps: none unless the package has thread rules. -/
def threadName (pkg comm : Str) : Str := if pkg ∈ cfg.hasThreadRules then comm else []

/-- The entry `task_apply` makes for a call. -/
def taskEntry (pid : Int) (pkg comm : Str) (cpus : Option CpuSet) (cpusetDir : Str) (isThreadRule : Bool) :
    TaskEntry :=
  { pid, pkg, comm := threadName cfg pkg comm, cpus, cpusetDir, isThreadRule }

/-- `task_apply`. `applyFn` is the caller's closure with the state it captures; it is called once at
    most. -/
def taskApply (sys : Sys) (applyFn : Int → CpuSet → Str → σ → Bool × σ) (tid pid : Int) (pkg comm : Str)
    (cache : ProcCache) (s : σ) : Bool × ProcCache × σ :=
  let entry := taskEntry cfg pid pkg comm
  let apply (result : AffinityResult) : Bool × ProcCache × σ :=
    let (dead, s) := applyFn tid result.cpus result.cpusetDir s
    if dead then (false, cache.taskDel tid, s)
    else (true, cache.insert tid (entry (some result.cpus) result.cpusetDir result.isThreadRule), s)
  match threadAffinity fnmatch sys.createCpusetDir pkg (threadName cfg pkg comm) cfg with
  | none =>
    if applyTask tuning pkg then (true, cache.insert tid (entry none [] false), s) else (false, cache, s)
  | some result =>
    match cache.tasks.lookup tid with
    | some old =>
      -- a package rule does not replace a thread rule that matched before
      if !result.isThreadRule && old.isThreadRule then
        (true, cache.insert tid (entry old.cpus old.cpusetDir old.isThreadRule), s)
      else apply result
    | none => apply result

/-- `task_apply` has something to do for a thread of `pkg` called `comm`. -/
def Tracks (pkg comm : Str) : Prop :=
  (threadAffinity fnmatch (fun _ => true) pkg (threadName cfg pkg comm) cfg).isSome ∨ applyTask tuning pkg

instance (pkg comm : Str) : Decidable (Tracks fnmatch tuning cfg pkg comm) :=
  inferInstanceAs (Decidable (_ ∨ _))

/-- A package rule keeps the thread rule that the thread's entry was made by. -/
def Retains (sys : Sys) (tid : Int) (pkg comm : Str) (cache : ProcCache) (old : TaskEntry) : Prop :=
  cache.tasks.lookup tid = some old ∧ old.isThreadRule = true ∧
    ∃ r, threadAffinity fnmatch sys.createCpusetDir pkg (threadName cfg pkg comm) cfg = some r ∧
      r.isThreadRule = false

/-- The entry that `task_apply` writes: for the package and the name of the call, and with CPUs from the
    rules, from the entry it retains, or with none. -/
inductive Wrote (sys : Sys) (tid pid : Int) (pkg comm : Str) (cache : ProcCache) : TaskEntry → Prop
  | fresh {r : AffinityResult}
      (hr : threadAffinity fnmatch sys.createCpusetDir pkg (threadName cfg pkg comm) cfg = some r) :
      Wrote sys tid pid pkg comm cache
        (taskEntry cfg pid pkg comm (some r.cpus) r.cpusetDir r.isThreadRule)
  | retained {old : TaskEntry} (h : Retains fnmatch cfg sys tid pkg comm cache old) :
      Wrote sys tid pid pkg comm cache
        (taskEntry cfg pid pkg comm old.cpus old.cpusetDir old.isThreadRule)
  | tuned (hr : threadAffinity fnmatch sys.createCpusetDir pkg (threadName cfg pkg comm) cfg = none)
      (ht : applyTask tuning pkg = true) :
      Wrote sys tid pid pkg comm cache (taskEntry cfg pid pkg comm none [] false)

/-- Whether there is anything to do does not depend on the cpuset directories. -/
theorem tracks_iff (sys : Sys) (pkg comm : Str) :
    Tracks fnmatch tuning cfg pkg comm ↔
      (threadAffinity fnmatch sys.createCpusetDir pkg (threadName cfg pkg comm) cfg).isSome ∨
        applyTask tuning pkg := by
  have henv := congrArg Option.isSome
    (threadAffinity_env fnmatch (fun _ => true) sys.createCpusetDir pkg (threadName cfg pkg comm) cfg)
  rw [Option.isSome_map, Option.isSome_map] at henv
  rw [Tracks, henv]

/-- A configuration that `load_config` builds while `tuning` is in memory. -/
def LoadedWith : Prop :=
  ∃ createCpusetDir topo content,
    cfg = configOf createCpusetDir topo (appPackageNames tuning) (threadRulePackages tuning) content

variable {fnmatch tuning cfg} {sys : Sys} {tid pid : Int} {pkg comm : Str} {cache : ProcCache}

/-- There is something to do for every thread of every configured package. -/
theorem LoadedWith.tracks (h : LoadedWith tuning cfg) (hpkg : pkg ∈ cfg.pkgs) (comm : Str) :
    Tracks fnmatch tuning cfg pkg comm := by
  obtain ⟨createCpusetDir, topo, content, rfl⟩ := h
  rcases Finset.mem_union.mp hpkg with hrules | hprofile
  · left
    obtain ⟨rule, hrule, hpkg⟩ := List.mem_map.mp (List.mem_toFinset.mp hrules)
    refine threadAffinity_isSome _ _ _ hrule hpkg (loadLines_cpus createCpusetDir topo hrule) ?_
    -- a thread rule would have put the package among those with thread rules
    intro hno r hr hrpkg
    by_contra hthread
    apply hno
    refine Finset.mem_union_left _ (List.mem_toFinset.mpr (List.mem_map.mpr ⟨r, ?_, hrpkg⟩))
    exact List.mem_filter.mpr ⟨hr, by simpa using hthread⟩
  · exact Or.inr (applyTask_iff.mpr hprofile)

theorem Wrote.pkg_eq {e : TaskEntry} (h : Wrote fnmatch tuning cfg sys tid pid pkg comm cache e) :
    e.pkg = pkg := by
  cases h <;> rfl

theorem Wrote.pid_eq {e : TaskEntry} (h : Wrote fnmatch tuning cfg sys tid pid pkg comm cache e) :
    e.pid = pid := by
  cases h <;> rfl

theorem Wrote.tracks {e : TaskEntry} (h : Wrote fnmatch tuning cfg sys tid pid pkg comm cache e) :
    Tracks fnmatch tuning cfg pkg comm := by
  rw [tracks_iff fnmatch tuning cfg sys]
  cases h with
  | fresh hr => exact Or.inl (by rw [hr]; rfl)
  | retained h =>
    obtain ⟨_, _, r, hr, _⟩ := h
    exact Or.inl (by rw [hr]; rfl)
  | tuned _ ht => exact Or.inr ht

/-- **What `task_apply` can do**: leave the cache, drop the thread that turned out dead, or write its
    entry. -/
theorem taskApply_cases {applyFn : Int → CpuSet → Str → σ → Bool × σ} {s : σ}
    {out : Bool × ProcCache × σ}
    (h : taskApply fnmatch tuning cfg sys applyFn tid pid pkg comm cache s = out) :
    (¬ Tracks fnmatch tuning cfg pkg comm ∧ out = (false, cache, s)) ∨
    (∃ cpus dir, (applyFn tid cpus dir s).1 = true ∧
      out = (false, cache.taskDel tid, (applyFn tid cpus dir s).2)) ∨
    ∃ e s', Wrote fnmatch tuning cfg sys tid pid pkg comm cache e ∧
      (s' = s ∨ ∃ cpus dir, (applyFn tid cpus dir s).1 = false ∧ s' = (applyFn tid cpus dir s).2) ∧
      out = (true, cache.insert tid e, s') := by
  subst h
  unfold taskApply
  dsimp only
  split
  · next hr =>
    -- no rule matches: only the tuning can make the thread tracked
    split
    · next ht => exact Or.inr (Or.inr ⟨_, s, .tuned hr ht, Or.inl rfl, rfl⟩)
    · next ht =>
      refine Or.inl ⟨?_, rfl⟩
      rw [tracks_iff fnmatch tuning cfg sys, hr]
      simpa using ht
  · next r hr =>
    -- the call of the closure, met in two branches
    have called : ∀ out : Bool × ProcCache × σ,
        out = (if (applyFn tid r.cpus r.cpusetDir s).1 then
            (false, cache.taskDel tid, (applyFn tid r.cpus r.cpusetDir s).2)
          else (true, cache.insert tid (taskEntry cfg pid pkg comm (some r.cpus) r.cpusetDir r.isThreadRule),
            (applyFn tid r.cpus r.cpusetDir s).2)) →
        (∃ cpus dir, (applyFn tid cpus dir s).1 = true ∧
          out = (false, cache.taskDel tid, (applyFn tid cpus dir s).2)) ∨
        ∃ e s', Wrote fnmatch tuning cfg sys tid pid pkg comm cache e ∧
          (s' = s ∨ ∃ cpus dir, (applyFn tid cpus dir s).1 = false ∧ s' = (applyFn tid cpus dir s).2) ∧
          out = (true, cache.insert tid e, s') := by
      rintro out rfl
      by_cases hdead : (applyFn tid r.cpus r.cpusetDir s).1 = true
      · exact Or.inl ⟨_, _, hdead, if_pos hdead⟩
      · exact Or.inr ⟨_, _, .fresh hr, Or.inr ⟨_, _, by simpa using hdead, rfl⟩, if_neg hdead⟩
    split
    · next old hold =>
      split
      · next hret =>
        -- a package rule does not replace an entry that a thread rule wrote
        have hb : r.isThreadRule = false ∧ old.isThreadRule = true := by simpa using hret
        exact Or.inr (Or.inr ⟨_, s, .retained ⟨hold, hb.2, r, hr, hb.1⟩, Or.inl rfl, rfl⟩)
      · exact Or.inr (called _ rfl)
    · exact Or.inr (called _ rfl)

/-! ## `affinity_sync` -/

/-- Whether `affinity_sync` takes the thread for dead. -/
def syncDead (sys : Sys) (tid : Int) (e : TaskEntry) : Bool :=
  match e.cpus with
  | some cpus => affinitySet sys tid cpus
  | none => !(sys.kill tid = none || sys.kill tid = some .eperm)

instance : LeftCommutative fun (tid : Int) (tasks : Finmap fun _ : Int => TaskEntry) => tasks.erase tid :=
  ⟨fun _ _ _ => Finmap.erase_erase⟩

/-- `affinity_sync`: the threads found dead, and the cache without them. The map is gone through in no
    particular order; the answers of the system are by thread. -/
def ProcCache.affinitySync (sys : Sys) (cache : ProcCache) : Finset Int × ProcCache :=
  let deadTids := cache.tasks.keys.filter fun tid => (cache.tasks.lookup tid).any (syncDead sys tid)
  (deadTids, ⟨deadTids.val.foldr (fun tid tasks => tasks.erase tid) cache.tasks⟩)

theorem lookup_foldr_erase (tids : Multiset Int) (tasks : Finmap fun _ : Int => TaskEntry) (t : Int) :
    (tids.foldr (fun tid tasks => tasks.erase tid) tasks).lookup t
      = if t ∈ tids then none else tasks.lookup t := by
  induction tids using Multiset.induction_on with
  | empty => rfl
  | cons tid tids ih =>
    rw [Multiset.foldr_cons]
    by_cases h : t = tid
    · rw [h, Finmap.lookup_erase, if_pos (Multiset.mem_cons_self _ _)]
    · rw [Finmap.lookup_erase_ne h, ih]
      simp [h]

/-- The correction pass only drops entries, those of the threads it reports. -/
theorem lookup_affinitySync (sys : Sys) (cache : ProcCache) (t : Int) :
    (cache.affinitySync sys).2.tasks.lookup t
      = if t ∈ (cache.affinitySync sys).1 then none else cache.tasks.lookup t :=
  lookup_foldr_erase _ _ _

theorem ProcCache.All.affinitySync {P : TaskEntry → Prop} {cache : ProcCache} (h : cache.All P) (sys : Sys) :
    (cache.affinitySync sys).2.All P := by
  intro t e he
  rw [lookup_affinitySync] at he
  split at he
  · cases he
  · exact h t e he

end
end AppOptR
