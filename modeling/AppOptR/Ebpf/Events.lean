import AppOptR.Ebpf.Whitelist
import AppOptR.ProcWalk
import AppOptR.Lib.Mealy

/-!
# `Ebpf.Events` — the daemon's side of the event mode

`event_dispatch`, `event_apply`, `affinity_check` and `full_scan` of `ebpf_mode.rs`, over the cache and
`APPLIED_MAP`. Nothing reads the masks that map holds, so it is the set of its keys; an insertion succeeds
and evicts nothing.
-/

namespace AppOptR

open Text

/-- `event_type`, the four values the kernel side sends. -/
inductive EventType where
  | fork
  | exec
  | rename
  | exit
  deriving DecidableEq, Repr

/-- `EbpfProcEvent`. -/
structure EbpfProcEvent where
  pid : Int
  tid : Int
  comm : Comm
  eventType : EventType
  deriving DecidableEq

/-- What the daemon keeps in event mode, with the keys of the kernel's `APPLIED_MAP`. -/
structure EbpfState where
  cache : ProcCache
  applied : Finset Int

/-- `applied_set`. -/
def appliedSet (tid : Int) (applied : Finset Int) : Finset Int := insert tid applied

/-- `applied_del`. -/
def appliedDel (tid : Int) (applied : Finset Int) : Finset Int := applied.erase tid

/-- `affinity_apply`. -/
def affinityApply (sys : Sys) (tid : Int) (cpus : CpuSet) (_cpusetDir : Str) (applied : Finset Int) :
    Bool × Finset Int :=
  let dead := affinitySet sys tid cpus
  (dead, if dead then applied else appliedSet tid applied)

section
variable (fnmatch : Str → Str → Bool) (tuning : TuningConfig) (cfg : AppConfig)

/-- A call of `task_apply` in event mode, with the marker that follows it. -/
def applyTracked (c : TaskCall) (state : EbpfState) : Bool × EbpfState :=
  let (tracked, cache, applied) := taskApply fnmatch tuning cfg c.sys (affinityApply c.sys) c.tid c.pid
    c.pkg c.comm state.cache state.applied
  (tracked, { cache, applied := if tracked then appliedSet c.tid applied else applied })

/-- The call `event_apply` makes, when the event's process has a package. -/
def eventCall (sys : Sys) (cmdline : Int → Option (List UInt8)) (tid pid : Int) (comm : Str)
    (cache : ProcCache) : Option TaskCall :=
  (cache.pkgLookupComm (fun pid => readCmdline (cmdline pid)) pid comm cfg).map fun pkg =>
    { tid, pid, pkg, comm, sys }

/-- `event_apply`; a process that belongs to no package is left alone. -/
def eventApply (sys : Sys) (cmdline : Int → Option (List UInt8)) (tid pid : Int) (comm : Str)
    (state : EbpfState) : Bool × EbpfState :=
  match eventCall cfg sys cmdline tid pid comm state.cache with
  | none => (false, state)
  | some call => applyTracked fnmatch tuning cfg call state

/-- What `EXIT`, and an `EXEC` that leaves the packages, do. -/
def EbpfState.drop (tid : Int) (state : EbpfState) : EbpfState :=
  { cache := state.cache.taskDel tid, applied := appliedDel tid state.applied }

/-- `event_dispatch`. -/
def eventDispatch (sys : Sys) (cmdline : Int → Option (List UInt8)) (event : EbpfProcEvent)
    (state : EbpfState) : EbpfState :=
  let comm := commStr event.comm
  match event.eventType with
  | .exit => state.drop event.tid
  | .exec =>
    let (tracked, state) := eventApply fnmatch tuning cfg sys cmdline event.tid event.pid comm state
    if tracked then state else state.drop event.tid
  -- the child inherits affinity and cpuset, and is handled at its rename
  | .fork => state
  | .rename => (eventApply fnmatch tuning cfg sys cmdline event.tid event.pid comm state).2

/-- `affinity_check`. -/
def affinityCheck (sys : Sys) (state : EbpfState) : EbpfState :=
  let (deadTids, cache) := state.cache.affinitySync sys
  { cache, applied := state.applied \ deadTids }

/-- The closure `full_scan` gives to `proc_walk`. -/
def scanTasks (dir : ProcDir) (pkg : Str) (hasThreadRules : Bool) (state : EbpfState) : EbpfState :=
  match dir.tasks with
  | none => state
  | some tids =>
    tids.foldl
      (fun state t => (applyTracked fnmatch tuning cfg
        { tid := t.tid, pid := dir.pid, pkg, comm := t.name hasThreadRules, sys := t.sys } state).2)
      state

/-- `full_scan`. -/
def fullScan (entries : Option (List ProcDir)) (state : EbpfState) : EbpfState :=
  (procWalk cfg (fun _ => true) (scanTasks fnmatch tuning cfg) entries
    { cache := state.cache.clear, applied := ∅ }).state

/-- The calls of `full_scan` one by one. -/
def scanStep (state : EbpfState) (c : TaskCall) : EbpfState × List Unit :=
  ((applyTracked fnmatch tuning cfg c state).2, [])

/-- What the daemon does between full scans. -/
inductive EbpfAct where
  | event (sys : Sys) (cmdline : Int → Option (List UInt8)) (event : EbpfProcEvent)
  | check (sys : Sys)

/-- One of these steps. -/
def ebpfStep (state : EbpfState) : EbpfAct → EbpfState × List Unit
  | .event sys cmdline event => (eventDispatch fnmatch tuning cfg sys cmdline event state, [])
  | .check sys => (affinityCheck sys state, [])

end

section
variable {fnmatch : Str → Str → Bool} {tuning : TuningConfig} {cfg : AppConfig}

/-- The calls of a full scan. -/
def fullScanCalls (cfg : AppConfig) (entries : Option (List ProcDir)) : List TaskCall :=
  walkCalls cfg (fun _ => true) (entries.getD [])

theorem fullScanCalls_pkg {entries : Option (List ProcDir)} {c : TaskCall}
    (hc : c ∈ fullScanCalls cfg entries) : c.pkg ∈ cfg.pkgs := by
  obtain ⟨dir, _, _, pkg, htarget, hcall⟩ := mem_walkCalls.mp hc
  rw [(mem_calls hcall).2.1]
  exact target_mem htarget

theorem scanTasks_calls (fnmatch : Str → Str → Bool) (tuning : TuningConfig) (cfg : AppConfig)
    (dir : ProcDir) (pkg : Str) (has : Bool) (state : EbpfState) :
    scanTasks fnmatch tuning cfg dir pkg has state
      = (dir.calls pkg has).foldl (fun s c => (scanStep fnmatch tuning cfg s c).1) state := by
  unfold scanTasks ProcDir.calls
  cases dir.tasks with
  | none => rfl
  | some tids =>
    rw [Option.getD_some, List.foldl_map]
    rfl

/-- **A full scan is its calls**, from nothing. -/
theorem fullScan_eq (entries : Option (List ProcDir)) (state : EbpfState) :
    fullScan fnmatch tuning cfg entries state
      = Mealy.final (scanStep fnmatch tuning cfg) { cache := state.cache.clear, applied := ∅ }
          (fullScanCalls cfg entries) := by
  cases entries with
  | none => rfl
  | some dirs =>
    exact (procWalk_spec cfg (fun _ => true) (scanTasks_calls fnmatch tuning cfg) dirs _).2

/-! ## What one step can do -/

/-- A call leaves the cache, drops a thread the system calls dead, or writes its thread's entry. -/
theorem applyTracked_cases (fnmatch : Str → Str → Bool) (tuning : TuningConfig) (cfg : AppConfig)
    (c : TaskCall) (state : EbpfState) :
    (¬ Tracks fnmatch tuning cfg c.pkg c.comm ∧
      applyTracked fnmatch tuning cfg c state = (false, state)) ∨
    (∃ cpus, c.sys.setAffinity c.tid cpus = some .esrch ∧
      applyTracked fnmatch tuning cfg c state
        = (false, { cache := state.cache.taskDel c.tid, applied := state.applied })) ∨
    ∃ e, Wrote fnmatch tuning cfg c.sys c.tid c.pid c.pkg c.comm state.cache e ∧
      applyTracked fnmatch tuning cfg c state
        = (true, { cache := state.cache.insert c.tid e, applied := appliedSet c.tid state.applied }) := by
  unfold applyTracked
  rcases taskApply_cases (h := rfl (a := taskApply fnmatch tuning cfg c.sys (affinityApply c.sys) c.tid
      c.pid c.pkg c.comm state.cache state.applied))
    with ⟨hno, h⟩ | ⟨cpus, dir, hdead, h⟩ | ⟨e, applied, hwrote, happlied, h⟩
  · rw [h]
    exact Or.inl ⟨hno, rfl⟩
  · have hesrch : affinitySet c.sys c.tid cpus = true := hdead
    rw [h]
    refine Or.inr (Or.inl ⟨cpus, ?_, ?_⟩)
    · unfold affinitySet at hesrch
      split at hesrch
      · cases hesrch
      · simpa using hesrch
    · simp [affinityApply, hesrch]
  · rw [h]
    refine Or.inr (Or.inr ⟨e, hwrote, ?_⟩)
    -- the closure's marker, when there was one, is set again
    have hmark : appliedSet c.tid applied = appliedSet c.tid state.applied := by
      rcases happlied with rfl | ⟨cpus, dir, halive, rfl⟩
      · rfl
      · have hset : affinitySet c.sys c.tid cpus = false := halive
        simp [affinityApply, hset, appliedSet]
    simp [hmark]

/-- The package of a call is a configured one, or that of an entry of the cache. -/
theorem eventCall_pkg {sys : Sys} {cmdline : Int → Option (List UInt8)} {tid pid : Int} {comm : Str}
    {cache : ProcCache} {c : TaskCall} (h : eventCall cfg sys cmdline tid pid comm cache = some c) :
    c.tid = tid ∧ c.sys = sys ∧ (c.pkg ∈ cfg.pkgs ∨ ∃ e, cache.tasks.lookup pid = some e ∧ e.pkg = c.pkg) := by
  obtain ⟨pkg, hpkg, rfl⟩ := Option.map_eq_some_iff.mp h
  refine ⟨rfl, rfl, ?_⟩
  unfold ProcCache.pkgLookupComm at hpkg
  rcases Option.or_eq_some_iff.mp hpkg with hcomm | ⟨_, hmain⟩
  · left
    unfold commToPkg at hcomm
    split at hcomm
    · next hmem =>
      cases hcomm
      exact hmem
    · split at hcomm
      · simpa using (Option.filter_eq_some_iff.mp hcomm).2
      · cases hcomm
  · right
    obtain ⟨e, he, hpkg⟩ := Option.map_eq_some_iff.mp hmain
    exact ⟨e, he, hpkg⟩

/-- Where every entry is of a configured package, so is every call. -/
theorem eventCall_known {sys : Sys} {cmdline : Int → Option (List UInt8)} {tid pid : Int} {comm : Str}
    {cache : ProcCache} {c : TaskCall} (hknown : cache.All fun e => e.pkg ∈ cfg.pkgs)
    (h : eventCall cfg sys cmdline tid pid comm cache = some c) : c.pkg ∈ cfg.pkgs := by
  rcases (eventCall_pkg h).2.2 with hmem | ⟨main, hmain, hpkg⟩
  · exact hmem
  · rw [← hpkg]
    exact hknown _ main hmain

/-- What holds of every entry, and of what a call writes, holds after the call. -/
theorem applyTracked_all {P : TaskEntry → Prop} {state : EbpfState} {c : TaskCall}
    (hall : state.cache.All P)
    (hwrite : ∀ e, Wrote fnmatch tuning cfg c.sys c.tid c.pid c.pkg c.comm state.cache e → P e) :
    (applyTracked fnmatch tuning cfg c state).2.cache.All P := by
  rcases applyTracked_cases fnmatch tuning cfg c state with ⟨_, h⟩ | ⟨_, _, h⟩ | ⟨e, hwrote, h⟩
  · rw [h]
    exact hall
  · rw [h]
    exact hall.taskDel c.tid
  · rw [h]
    exact hall.insert (hwrite e hwrote)

/-- After a full scan, every entry is of a configured package. -/
theorem fullScan_known (entries : Option (List ProcDir)) (state : EbpfState) :
    (fullScan fnmatch tuning cfg entries state).cache.All fun e => e.pkg ∈ cfg.pkgs := by
  rw [fullScan_eq]
  refine Mealy.invariant (I := fun s : EbpfState => s.cache.All fun e => e.pkg ∈ cfg.pkgs)
    (fun s c hknown hpkg => applyTracked_all hknown fun e hwrote => ?_)
    (Mealy.along_of_forall fun c hc => fullScanCalls_pkg hc) (ProcCache.all_clear _ state.cache)
  rw [hwrote.pkg_eq]
  exact hpkg

/-- The same for an event: its kind says whether there is a call at all. -/
theorem eventDispatch_all {P : TaskEntry → Prop} {state : EbpfState} {sys : Sys}
    {cmdline : Int → Option (List UInt8)} {event : EbpfProcEvent} (hall : state.cache.All P)
    (hwrite : event.eventType = .exec ∨ event.eventType = .rename →
      ∀ c, eventCall cfg sys cmdline event.tid event.pid (commStr event.comm) state.cache = some c →
        ∀ e, Wrote fnmatch tuning cfg c.sys c.tid c.pid c.pkg c.comm state.cache e → P e) :
    (eventDispatch fnmatch tuning cfg sys cmdline event state).cache.All P := by
  have happly : event.eventType = .exec ∨ event.eventType = .rename →
      (eventApply fnmatch tuning cfg sys cmdline event.tid event.pid (commStr event.comm)
        state).2.cache.All P := by
    intro hkind
    unfold eventApply
    cases hcall : eventCall cfg sys cmdline event.tid event.pid (commStr event.comm) state.cache with
    | none => exact hall
    | some c => exact applyTracked_all hall (hwrite hkind c hcall)
  unfold eventDispatch
  cases hkind : event.eventType with
  | exit => exact hall.taskDel event.tid
  | fork => exact hall
  | rename => exact happly (Or.inr hkind)
  | exec =>
    dsimp only
    split
    · exact happly (Or.inl hkind)
    · exact (happly (Or.inl hkind)).taskDel event.tid

/-- After an event, every entry is of a configured package if every one was before. -/
theorem eventDispatch_known {state : EbpfState} {sys : Sys} {cmdline : Int → Option (List UInt8)}
    {event : EbpfProcEvent} (hknown : state.cache.All fun e => e.pkg ∈ cfg.pkgs) :
    (eventDispatch fnmatch tuning cfg sys cmdline event state).cache.All fun e => e.pkg ∈ cfg.pkgs := by
  apply eventDispatch_all hknown
  intro _ c hcall e hwrote
  rw [hwrote.pkg_eq]
  exact eventCall_known hknown hcall

end
end AppOptR
