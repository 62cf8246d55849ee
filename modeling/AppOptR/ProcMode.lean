import AppOptR.ProcWalk
import AppOptR.Lib.Mealy

/-!
# `ProcMode` — polling `/proc`

`proc_mode.rs`: one call of `cache_sync` looks at the process count, and scans when it has grown, when a
tracked process is gone, or when a full scan is due. What the call sees of the system is a `SyncInput`.
-/

namespace AppOptR

open Text

/-- `ProcScanState`: the cache of `/proc` mode, and what the last scan has left for the next. -/
structure ProcScanState where
  cache : ProcCache
  lastProcCount : Nat
  scanAllProc : Bool
  trackedPids : Finset Int
  lastProcTotal : Nat
  forceAffinity : Bool

/-- `ProcScanState::new`: nothing is known, so the first scan looks at everything. -/
def ProcScanState.new : ProcScanState where
  cache := .new
  lastProcCount := 0
  scanAllProc := true
  trackedPids := ∅
  lastProcTotal := 0
  forceAffinity := false

/-- `/proc` at one moment: a process has one directory, and a thread is in one process. -/
structure ProcTable where
  dirs : List ProcDir
  pids_nodup : (dirs.map (·.pid)).Nodup
  tids_apart : ∀ d ∈ dirs, ∀ d' ∈ dirs, d.pid ≠ d'.pid →
    ∀ t ∈ d.tasks.getD [], ∀ t' ∈ d'.tasks.getD [], t.tid ≠ t'.tid

/-- What one call sees: the `procs` of `sysinfo` unless it fails, what `kill(pid, 0)` answers, and `/proc`
    unless it cannot be opened. -/
structure SyncInput where
  procs : Option UInt16
  kill : Int → Option Errno
  table : Option ProcTable

section
variable (fnmatch : Str → Str → Bool) (tuning : TuningConfig) (cfg : AppConfig)

/-- The closure of `proc_tasks`: the affinity is left to the next `affinity_sync`. -/
def noApply (_ : Int) (_ : CpuSet) (_ : Str) (s : Unit) : Bool × Unit := (false, s)

/-- The call of `task_apply` in `proc_tasks`. -/
def fillTask (cache : ProcCache) (c : TaskCall) : ProcCache :=
  (taskApply fnmatch tuning cfg c.sys noApply c.tid c.pid c.pkg c.comm cache ()).2.1

/-- `proc_tasks`, without the flag it returns: `proc_scan` drops that. -/
def procTasks (dir : ProcDir) (pkg : Str) (hasThreadRules : Bool) (cache : ProcCache) : ProcCache :=
  match dir.tasks with
  | none => cache
  | some tids =>
    tids.foldl
      (fun cache t => fillTask fnmatch tuning cfg cache
        { tid := t.tid, pid := dir.pid, pkg, comm := t.name hasThreadRules, sys := t.sys })
      cache

/-- `proc_scan`. -/
def procScan (input : SyncInput) (state : ProcScanState) : ProcScanState :=
  let walk := procWalk cfg (fun pid => state.scanAllProc || decide (pid ∈ state.trackedPids))
    (procTasks fnmatch tuning cfg) (input.table.map (·.dirs)) state.cache.clear
  { state with
    cache := walk.state
    scanAllProc := decide (state.lastProcTotal < walk.total)
    lastProcTotal := walk.total }

/-- The process ids of a cache's entries. -/
def ProcCache.pids (cache : ProcCache) : Finset Int := (cache.tasks.entries.map fun e => e.2.pid).toFinset

/-- Whether `cache_sync` goes on to a scan. -/
def needReload (input : SyncInput) (state : ProcScanState) : Bool :=
  state.scanAllProc
    || (match input.procs with
        | none => true
        | some current => decide (state.lastProcCount < current.toNat))
    || decide (∃ pid ∈ state.trackedPids, input.kill pid ≠ none)

/-- `cache_sync`. -/
def cacheSync (input : SyncInput) (state : ProcScanState) : ProcScanState :=
  let counted := { state with lastProcCount := (input.procs.map UInt16.toNat).getD state.lastProcCount }
  if needReload input state then
    let scanned := procScan fnmatch tuning cfg input counted
    { scanned with trackedPids := scanned.cache.pids, forceAffinity := true }
  else counted

/-- `cache_sync` call after call. -/
def syncStep (state : ProcScanState) (input : SyncInput) : ProcScanState × List Unit :=
  (cacheSync fnmatch tuning cfg input state, [])

end

/-! ## What a scan leaves in the cache -/

section
variable {fnmatch : Str → Str → Bool} {tuning : TuningConfig} {cfg : AppConfig}

theorem procTasks_calls (fnmatch : Str → Str → Bool) (tuning : TuningConfig) (cfg : AppConfig) (dir : ProcDir)
    (pkg : Str) (has : Bool) (cache : ProcCache) :
    procTasks fnmatch tuning cfg dir pkg has cache
      = (dir.calls pkg has).foldl (fillTask fnmatch tuning cfg) cache := by
  unfold procTasks ProcDir.calls
  cases dir.tasks with
  | none => rfl
  | some tids => rw [Option.getD_some, List.foldl_map]

/-- One call adds the entry of its thread, when there is something to do, and changes no other. -/
theorem fillTask_spec (cache : ProcCache) (c : TaskCall) :
    (¬ Tracks fnmatch tuning cfg c.pkg c.comm ∧ fillTask fnmatch tuning cfg cache c = cache) ∨
    (Tracks fnmatch tuning cfg c.pkg c.comm ∧ ∃ e, e.pid = c.pid ∧
      fillTask fnmatch tuning cfg cache c = cache.insert c.tid e) := by
  unfold fillTask
  have hcases := taskApply_cases (h := rfl (a := taskApply fnmatch tuning cfg c.sys noApply c.tid c.pid
    c.pkg c.comm cache ()))
  rcases hcases with ⟨hno, h⟩ | ⟨_, _, hdead, _⟩ | ⟨e, s', he, _, h⟩
  · exact Or.inl ⟨hno, by rw [h]⟩
  · exact absurd hdead (by simp [noApply])
  · exact Or.inr ⟨he.tracks, e, he.pid_eq, by rw [h]⟩

/-- The run lemma: what is in the cache after some calls was there before or is of a call's thread, under
    the call's process. -/
theorem fillTasks_entry {calls : List TaskCall} {cache : ProcCache} {tid : Int} {e : TaskEntry}
    (h : (calls.foldl (fillTask fnmatch tuning cfg) cache).tasks.lookup tid = some e) :
    cache.tasks.lookup tid = some e ∨ ∃ c ∈ calls, c.tid = tid ∧ c.pid = e.pid := by
  induction calls generalizing cache with
  | nil => exact Or.inl h
  | cons c calls ih =>
    rcases ih h with hold | ⟨c', hc', hct⟩
    · rcases fillTask_spec cache c with ⟨_, hstep⟩ | ⟨_, e', he', hstep⟩
      · exact Or.inl (by rwa [hstep] at hold)
      · rw [hstep, ProcCache.lookup_insert] at hold
        split at hold
        · next heq =>
          cases hold
          exact Or.inr ⟨c, List.mem_cons_self .., heq.symm, he'.symm⟩
        · exact Or.inl hold
    · exact Or.inr ⟨c', List.mem_cons_of_mem _ hc', hct⟩

theorem fillTasks_keep {calls : List TaskCall} {cache : ProcCache} {tid : Int} (h : tid ∈ cache.tasks) :
    tid ∈ (calls.foldl (fillTask fnmatch tuning cfg) cache).tasks := by
  induction calls generalizing cache with
  | nil => exact h
  | cons c calls ih =>
    apply ih
    rcases fillTask_spec cache c with ⟨_, hstep⟩ | ⟨_, e', _, hstep⟩
    · rwa [hstep]
    · rw [hstep]
      exact Finmap.mem_insert.mpr (Or.inr h)

/-- Every call with something to do leaves its thread in the cache, and no later call takes it out. -/
theorem fillTasks_mem {calls : List TaskCall} {cache : ProcCache} {c : TaskCall} (hc : c ∈ calls)
    (ht : Tracks fnmatch tuning cfg c.pkg c.comm) :
    c.tid ∈ (calls.foldl (fillTask fnmatch tuning cfg) cache).tasks := by
  induction calls generalizing cache with
  | nil => cases hc
  | cons c' calls ih =>
    rcases List.mem_cons.mp hc with rfl | hc
    · have hadded : c.tid ∈ (fillTask fnmatch tuning cfg cache c).tasks := by
        rcases fillTask_spec cache c with ⟨hno, _⟩ | ⟨_, e', _, hstep⟩
        · exact absurd ht hno
        · rw [hstep]
          exact Finmap.mem_insert.mpr (Or.inl rfl)
      rw [List.foldl_cons]
      exact fillTasks_keep hadded
    · exact ih hc

theorem mem_pids {cache : ProcCache} {pid : Int} :
    pid ∈ cache.pids ↔ ∃ tid e, cache.tasks.lookup tid = some e ∧ e.pid = pid := by
  unfold ProcCache.pids
  rw [Multiset.mem_toFinset, Multiset.mem_map]
  constructor
  · rintro ⟨⟨tid, e⟩, hmem, hpid⟩
    exact ⟨tid, e, Finmap.lookup_eq_some_iff.mpr hmem, hpid⟩
  · rintro ⟨tid, e, hl, hpid⟩
    exact ⟨⟨tid, e⟩, Finmap.lookup_eq_some_iff.mp hl, hpid⟩

end
end AppOptR
