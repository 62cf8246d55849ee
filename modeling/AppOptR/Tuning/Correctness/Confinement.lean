import AppOptR.Tuning.Apply

/-!
# `Tuning.Correctness.Confinement` — what the daemon, running as root, writes and to whom

A profile comes from a file and from the web, and its paths may hold the name of the package. Whatever it
says, a write of `apply_task` goes to one of ten control files, in a directory at or below a cgroup root, and
moves no task but those of the process at hand, and every scheduler call is for the task at hand
(`task_calls_confined`).
-/

namespace AppOptR

open Text Json

variable {env : TuneEnv} {config : TuningConfig} {group : MemoryGroup} {app : AppTuneRule} {tid pid : Int}
  {pkg comm path : Str} {dir : CgroupDir} {call : TuneCall} {calls : List TuneCall}

/-! ## Calls of one kind -/

/-- Every call of a list that is not a warning meets `P`. -/
def OnCalls (P : TuneCall → Prop) (calls : List TuneCall) : Prop := ∀ call ∈ calls, (∃ k m, call = .warn k m) ∨ P call

theorem OnCalls.nil (P : TuneCall → Prop) : OnCalls P [] := by simp [OnCalls]

theorem OnCalls.append {P : TuneCall → Prop} {cs ds : List TuneCall} (hc : OnCalls P cs) (hd : OnCalls P ds) :
    OnCalls P (cs ++ ds) := fun call h => (List.mem_append.mp h).elim (hc call) (hd call)

theorem OnCalls.warn (P : TuneCall → Prop) (key message : Str) : OnCalls P [.warn key message] :=
  fun _ h => .inl ⟨key, message, List.mem_singleton.mp h⟩

theorem OnCalls.single {P : TuneCall → Prop} (h : P call) : OnCalls P [call] :=
  fun _ hm => .inr (List.mem_singleton.mp hm ▸ h)

theorem OnCalls.flatMap {α : Type} {P : TuneCall → Prop} {l : List α} {f : α → List TuneCall}
    (h : ∀ a ∈ l, OnCalls P (f a)) : OnCalls P (l.flatMap f) := by
  intro call hm
  obtain ⟨a, ha, hc⟩ := List.mem_flatMap.mp hm
  exact h a ha call hc

theorem OnCalls.mono {P Q : TuneCall → Prop} (h : OnCalls P calls) (hpq : ∀ call, P call → Q call) : OnCalls Q calls :=
  fun call hm => (h call hm).imp_right (hpq call)

theorem OnCalls.orWarn {P : TuneCall → Prop} {r : List TuneCall × Option Str} (h : OnCalls P r.1)
    (key message : Str → Str) : OnCalls P (orWarn r key message) := by
  unfold AppOptR.orWarn
  split
  · exact h
  · exact h.append (.warn P _ _)

/-! ## Where a group may be -/

/-- The roots that `cgroup_roots` looks for. -/
def rootNames : List Str := ["/dev/memcg".toList, "/sys/fs/cgroup/memory".toList, "/sys/fs/cgroup".toList]

/-- The files that a group's settings and its tasks are written to. -/
def controlFiles : List Str :=
  ["memory.swappiness".toList, "memory.min".toList, "memory.low".toList, "memory.soft_limit_in_bytes".toList,
    "memory.high".toList, "memory.max".toList, "memory.limit_in_bytes".toList, "memory.oom.group".toList,
    "cgroup.procs".toList, "tasks".toList]

/-- A directory at or below a cgroup root, links resolved on both sides. -/
def UnderRoot (env : TuneEnv) (dir : CgroupDir) : Prop :=
  env.isDir dir = true ∧ ∃ name ∈ rootNames, env.rootIsDir name = true ∧
    ∃ root, env.canonicalize name = some root ∧ root <+: dir

theorem canonicalCgroupDir_under (h : canonicalCgroupDir env path (cgroupRoots env) = some dir) :
    UnderRoot env dir ∧ env.canonicalize path = some dir := by
  unfold canonicalCgroupDir at h
  obtain ⟨candidate, hcan, h⟩ := Option.bind_eq_some_iff.mp h
  split at h
  · cases h
  next hdir =>
  obtain ⟨root, hroot, h⟩ := List.exists_of_findSome?_eq_some h
  split at h
  · next hprefix =>
    obtain rfl := Option.some.inj h
    obtain ⟨name, hname, hcanon⟩ := List.mem_filterMap.mp hroot
    obtain ⟨hmem, hisdir⟩ := List.mem_filter.mp hname
    exact ⟨⟨by simpa using hdir, name, hmem, hisdir, root, hcanon, List.isPrefixOf_iff_prefix.mp hprefix⟩, hcan⟩
  · cases h

/-- **A group that is found lies under a root**, whatever its template and the package's name expand to. -/
theorem resolveGroupPath_under (env : TuneEnv) (group : MemoryGroup) (pid : Int) (pkg : Str) (P : TuneCall → Prop) :
    OnCalls P (resolveGroupPath env group pid pkg).1 ∧
      ∀ dir, (resolveGroupPath env group pid pkg).2 = some dir → UnderRoot env dir := by
  have hexpand : OnCalls P (expandGroupPath env group.path pid pkg).1 := by
    unfold expandGroupPath
    dsimp only
    split
    · split
      · exact .nil P
      · exact .warn P _ _
    · exact .nil P
  unfold resolveGroupPath
  split
  · next h =>
    rw [h] at hexpand
    exact ⟨hexpand, by simp⟩
  next calls path h =>
  rw [h] at hexpand
  dsimp only at hexpand ⊢
  split
  · exact ⟨hexpand.append (.warn P _ _), by simp⟩
  split
  · exact ⟨hexpand.append (.warn P _ _), by simp⟩
  split
  · next hfind =>
    refine ⟨hexpand, fun dir' hd => ?_⟩
    obtain rfl := Option.some.inj hd
    obtain ⟨candidate, _, hc⟩ := List.exists_of_findSome?_eq_some hfind
    exact (canonicalCgroupDir_under hc).1
  · exact ⟨hexpand.append (.warn P _ _), by simp⟩

/-! ## What is written there -/

/-- A control write into `dir` that moves nothing but `pid` and its threads. -/
def GroupWrite (env : TuneEnv) (dir : CgroupDir) (pid : Int) : TuneCall → Prop
  | .control d file value =>
    d = dir ∧ file ∈ controlFiles ∧ env.fileExists dir file = true ∧
      (file = "cgroup.procs".toList → value = intText pid) ∧
      (file = "tasks".toList → ∃ t ∈ (env.taskTids pid).getD [], value = intText t)
  | _ => False

theorem writeFirstAvailable_writes {name value : Str} {names : List Str} (hnames : ∀ n ∈ names,
    n ∈ controlFiles ∧ n ≠ "cgroup.procs".toList ∧ n ≠ "tasks".toList) :
    OnCalls (GroupWrite env dir pid) (writeFirstAvailable env dir name names value) := by
  unfold writeFirstAvailable
  split
  · exact .warn _ _ _
  next file hfile =>
  obtain ⟨hmem, hprocs, htasks⟩ := hnames file (List.mem_of_find?_eq_some hfile)
  have hexists : env.fileExists dir file = true := List.find?_some hfile
  refine OnCalls.orWarn (.single ?_) _ _
  exact ⟨rfl, hmem, hexists, fun h => absurd h hprocs, fun h => absurd h htasks⟩

theorem moveProcessToGroup_writes {name : Str} :
    OnCalls (GroupWrite env dir pid) (moveProcessToGroup env pid dir name) := by
  unfold moveProcessToGroup
  split
  · next hexists =>
    refine OnCalls.orWarn (.single ?_) _ _
    exact ⟨rfl, by decide, hexists, fun _ => rfl, fun h => absurd h (by decide)⟩
  split
  · exact .warn _ _ _
  next htasks =>
  refine OnCalls.flatMap fun t ht => ?_
  refine OnCalls.orWarn (.single ?_) _ _
  exact ⟨rfl, by decide, by simpa using htasks, fun h => absurd h (by decide), fun _ => ⟨t, ht, rfl⟩⟩

/-- The settings of a group name files of the list, and never the two that move tasks. -/
theorem groupControls_files : ∀ c ∈ groupControls group, ∀ n ∈ c.1,
    n ∈ controlFiles ∧ n ≠ "cgroup.procs".toList ∧ n ≠ "tasks".toList := by
  have hset : ∀ {α : Type} (o : Option α) (names : List Str) (f : α → Str),
      (∀ n ∈ names, n ∈ controlFiles ∧ n ≠ "cgroup.procs".toList ∧ n ≠ "tasks".toList) →
      ∀ c ∈ o.toList.map (fun a => (names, f a)), ∀ n ∈ c.1,
        n ∈ controlFiles ∧ n ≠ "cgroup.procs".toList ∧ n ≠ "tasks".toList := by
    intro α o names f hnames c hc
    obtain ⟨a, _, rfl⟩ := List.mem_map.mp hc
    exact hnames
  intro c hc
  simp only [groupControls, List.mem_append] at hc
  rcases hc with ((((hc | hc) | hc) | hc) | hc) | hc
  all_goals exact hset _ _ _ (by decide) c hc

/-- **The calls of a memory group**: all of them writes into one directory under a root. -/
theorem applyMemoryGroup_writes (env : TuneEnv) (group : MemoryGroup) (pid : Int) (pkg : Str) :
    ∃ dir, OnCalls (fun c => UnderRoot env dir ∧ GroupWrite env dir pid c) (applyMemoryGroup env pid pkg group) := by
  unfold applyMemoryGroup
  split
  · next h =>
    refine ⟨[], ?_⟩
    have := (resolveGroupPath_under env group pid pkg
      fun c => UnderRoot env [] ∧ GroupWrite env [] pid c).1
    rwa [h] at this
  · next calls dir h =>
    obtain ⟨hcalls, hdir⟩ := resolveGroupPath_under env group pid pkg
      fun c => UnderRoot env dir ∧ GroupWrite env dir pid c
    rw [h] at hcalls hdir
    have hunder := hdir dir rfl
    refine ⟨dir, (hcalls.append (.flatMap fun c hc => ?_)).append ?_⟩
    · exact (writeFirstAvailable_writes (groupControls_files c hc)).mono fun _ hw => ⟨hunder, hw⟩
    · exact moveProcessToGroup_writes.mono fun _ hw => ⟨hunder, hw⟩

/-! ## Scheduler calls -/

/-- A scheduler call on one thread. -/
def OnThread (tid : Int) : TuneCall → Prop
  | .setAttr t _ => t = tid
  | .setPriority t _ => t = tid
  | _ => False

theorem setUclamp_thread (min max : Option UInt16) : OnCalls (OnThread tid) (setUclamp env tid min max).1 := by
  unfold setUclamp
  split
  · exact .nil _
  split
  · exact .nil _
  · exact .single rfl

theorem applyThreadTune_thread (tune : EffectiveThreadTune) :
    OnCalls (OnThread tid) (applyThreadTune env tid pkg comm tune) := by
  refine OnCalls.append ?_ ?_
  · split
    · exact .warn _ _ _
    split
    · exact (setUclamp_thread _ _).orWarn _ _
    · exact .nil _
  · split
    · exact .nil _
    · next nice _ =>
      have h : OnThread tid (.setPriority tid nice.toInt) := rfl
      exact OnCalls.orWarn (r := ([TuneCall.setPriority tid nice.toInt], _)) (.single h) _ _

theorem tuneThread_thread : OnCalls (OnThread tid) (tuneThread env app tid pkg comm) := by
  unfold tuneThread
  split
  · exact applyThreadTune_thread _
  · exact .nil _

/-- What a task may be done: its process put into the group its package has, by writes below a cgroup root, or
    a scheduler call on the thread itself. -/
inductive Permitted (env : TuneEnv) (config : TuningConfig) (tid pid : Int) (pkg : Str) (dir : CgroupDir) :
    TuneCall → Prop
  | group {app : AppTuneRule} {group : MemoryGroup} {call : TuneCall} (main : tid = pid) (happ : app ∈ config.apps)
      (hpkg : app.pkg = pkg) (hgroup : group ∈ config.memoryGroups) (hname : app.memoryGroup = some group.name)
      (under : UnderRoot env dir) (write : GroupWrite env dir pid call) : Permitted env config tid pid pkg dir call
  | thread {app : AppTuneRule} {call : TuneCall} (happ : app ∈ config.apps) (hpkg : app.pkg = pkg)
      (hcall : OnThread tid call) : Permitted env config tid pid pkg dir call

/-- **Confinement.** Whatever the profile and the system answer, what `apply_task` does for a task is permitted:
    all its writes are to control files in one directory at or below a cgroup root, they move the process at
    hand and no other, only its main thread causes any, and the scheduler is called for the task alone; and
    `reapply_thread` writes no file. -/
theorem task_calls_confined (env : TuneEnv) (config : TuningConfig) (tid pid : Int) (pkg comm : Str) :
    (∃ dir, OnCalls (Permitted env config tid pid pkg dir) (applyTaskCalls env config tid pid pkg comm)) ∧
      OnCalls (OnThread tid) (reapplyThread env config tid pkg comm) := by
  unfold applyTaskCalls reapplyThread
  cases hfind : config.apps.find? fun app => app.pkg = pkg with
  | none => exact ⟨⟨[], .nil _⟩, .nil _⟩
  | some app =>
    have happ : app ∈ config.apps := List.mem_of_find?_eq_some hfind
    have hpkg : app.pkg = pkg := by simpa using List.find?_some hfind
    refine ⟨?_, tuneThread_thread⟩
    have hthread : ∀ dir, OnCalls (Permitted env config tid pid pkg dir) (tuneThread env app tid pkg comm) :=
      fun dir => tuneThread_thread.mono fun _ hc => .thread happ hpkg hc
    dsimp only
    split
    · next hmain =>
      split
      · exact ⟨[], (OnCalls.nil _).append (hthread [])⟩
      · next name hname =>
        split
        · next group hgroup =>
          obtain ⟨dir, hwrites⟩ := applyMemoryGroup_writes env group pid pkg
          refine ⟨dir, (hwrites.mono fun c hc => ?_).append (hthread dir)⟩
          have hgname : group.name = name := by simpa using List.find?_some hgroup
          exact .group hmain happ hpkg (List.mem_of_find?_eq_some hgroup) (by rw [hname, hgname]) hc.1 hc.2
        · exact ⟨[], (OnCalls.warn _ _ _).append (hthread [])⟩
    · exact ⟨[], (OnCalls.nil _).append (hthread [])⟩

end AppOptR
