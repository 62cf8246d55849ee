import AppOptR.ProcMode

/-!
# `ProcMode.Correctness.Discovery` — when a new process is found

A call of `cache_sync` that sees the process count grow scans, but the scan looks at every process only
when `scan_all_proc` is set, and that flag follows the total of the *previous scan*: a process that
appears after the number of processes fell is looked at by no scan until the total passes its old value.
`newcomer_found_iff` says exactly which new processes are found by the second call that sees them.
-/

namespace AppOptR

open Text

/-- The threads of a process. -/
def ProcDir.tids (dir : ProcDir) : Finset Int := ((dir.tasks.getD []).map (·.tid)).toFinset

theorem ProcDir.mem_tids {dir : ProcDir} {tid : Int} :
    tid ∈ dir.tids ↔ ∃ t ∈ dir.tasks.getD [], t.tid = tid := by
  rw [ProcDir.tids, List.mem_toFinset, List.mem_map]

section
variable (fnmatch : Str → Str → Bool) (tuning : TuningConfig) (cfg : AppConfig)

/-- A directory of a configured package, each thread of which `task_apply` tracks. -/
structure TargetDir (pid : Int) (tids : Finset Int) (dir : ProcDir) : Prop where
  pid_eq : dir.pid = pid
  tids_eq : dir.tids = tids
  tracked : ∃ pkg, dir.target cfg = some pkg ∧
    ∀ t ∈ dir.tasks.getD [], Tracks fnmatch tuning cfg pkg (t.name (decide (pkg ∈ cfg.hasThreadRules)))

/-- A process comes up: it is absent at one call and there, with the same threads, at the next two, and
    the process count has grown when it is first there. -/
structure Launch (i₀ i₁ i₂ : SyncInput) (pid : Int) (tids : Finset Int) : Prop where
  absent : ∀ t, i₀.table = some t → ∀ dir ∈ t.dirs, dir.pid ≠ pid
  first : ∃ t, i₁.table = some t ∧ ∃ dir ∈ t.dirs, TargetDir fnmatch tuning cfg pid tids dir
  second : ∃ t, i₂.table = some t ∧ ∃ dir ∈ t.dirs, TargetDir fnmatch tuning cfg pid tids dir
  threads : tids.Nonempty
  grows : ∃ a b, i₀.procs = some a ∧ i₁.procs = some b ∧ a < b

/-- The scan of this state looks at `pid`. -/
def Looks (state : ProcScanState) (pid : Int) : Prop := state.scanAllProc = true ∨ pid ∈ state.trackedPids

end

section
variable {fnmatch : Str → Str → Bool} {tuning : TuningConfig} {cfg : AppConfig} {input : SyncInput}
  {state : ProcScanState} {table : ProcTable} {pid : Int} {tids : Finset Int}

/-- The calls of a scan. -/
def scanCalls (cfg : AppConfig) (state : ProcScanState) (table : ProcTable) : List TaskCall :=
  walkCalls cfg (fun pid => state.scanAllProc || decide (pid ∈ state.trackedPids)) table.dirs

theorem procScan_spec (fnmatch : Str → Str → Bool) (tuning : TuningConfig) (cfg : AppConfig)
    (state : ProcScanState) (htable : input.table = some table) :
    (procScan fnmatch tuning cfg input state).cache
      = (scanCalls cfg state table).foldl (fillTask fnmatch tuning cfg) state.cache.clear ∧
    (procScan fnmatch tuning cfg input state).lastProcTotal = table.dirs.length ∧
    (procScan fnmatch tuning cfg input state).scanAllProc
      = decide (state.lastProcTotal < table.dirs.length) := by
  obtain ⟨htotal, hstate⟩ := procWalk_spec cfg
    (fun pid => state.scanAllProc || decide (pid ∈ state.trackedPids))
    (procTasks_calls fnmatch tuning cfg) table.dirs state.cache.clear
  unfold procScan
  rw [htable, Option.map_some]
  exact ⟨hstate, htotal, congrArg (fun n => decide (state.lastProcTotal < n)) htotal⟩

/-- A call of a scan that is for one of `dir`'s threads is for `dir`'s process, and the scan looks at
    it. -/
theorem scanCalls_thread {dir : ProcDir} (hdir : dir ∈ table.dirs) {c : TaskCall}
    (hc : c ∈ scanCalls cfg state table) (htid : c.tid ∈ dir.tids) :
    c.pid = dir.pid ∧ Looks state dir.pid := by
  obtain ⟨dir', hdir', hfil, pkg, _, hcall⟩ := mem_walkCalls.mp hc
  obtain ⟨hpid, _, t', ht', htid', _⟩ := mem_calls hcall
  obtain ⟨t, ht, hteq⟩ := ProcDir.mem_tids.mp htid
  have hsame : dir'.pid = dir.pid := by
    by_contra hne
    exact table.tids_apart dir' hdir' dir hdir hne t' ht' t ht (htid'.symm.trans hteq.symm)
  refine ⟨hpid.trans hsame, ?_⟩
  rw [← hsame]
  simpa [Looks] using hfil

/-- A scan that looks at the process finds its threads, and lists its id. -/
theorem scan_found {dir : ProcDir} (state : ProcScanState) (htable : input.table = some table) (hdir : dir ∈ table.dirs)
    (ht : TargetDir fnmatch tuning cfg pid tids dir) (hlook : Looks state pid) :
    (∀ tid ∈ tids, tid ∈ (procScan fnmatch tuning cfg input state).cache.tasks) ∧
    (tids.Nonempty → pid ∈ (procScan fnmatch tuning cfg input state).cache.pids) := by
  obtain ⟨hcache, _, _⟩ := procScan_spec fnmatch tuning cfg state htable
  obtain ⟨pkg, hpkg, htracks⟩ := ht.tracked
  have hkeys : ∀ tid ∈ tids, tid ∈ (procScan fnmatch tuning cfg input state).cache.tasks := by
    intro tid htid
    rw [← ht.tids_eq] at htid
    obtain ⟨t, hmem, rfl⟩ := ProcDir.mem_tids.mp htid
    have hcall : (⟨t.tid, dir.pid, pkg, t.name (decide (pkg ∈ cfg.hasThreadRules)), t.sys⟩ : TaskCall)
        ∈ scanCalls cfg state table := by
      refine mem_walkCalls.mpr ⟨dir, hdir, ?_, pkg, hpkg, List.mem_map.mpr ⟨t, hmem, rfl⟩⟩
      rw [ht.pid_eq]
      simpa [Looks] using hlook
    rw [hcache]
    exact fillTasks_mem hcall (htracks t hmem)
  refine ⟨hkeys, ?_⟩
  rintro ⟨tid, htid⟩
  obtain ⟨e, he⟩ := Finmap.mem_iff.mp (hkeys tid htid)
  rw [hcache] at he
  rcases fillTasks_entry he with hold | ⟨c, hc, hctid, hcpid⟩
  · rw [ProcCache.lookup_clear] at hold
    cases hold
  · have hin : c.tid ∈ dir.tids := by rwa [hctid, ht.tids_eq]
    obtain ⟨hpid, _⟩ := scanCalls_thread hdir hc hin
    rw [hcache]
    exact mem_pids.mpr ⟨tid, e, he, by rw [← hcpid, hpid, ht.pid_eq]⟩

/-- A scan that does not look at the process finds none of its threads, and does not list its id. -/
theorem scan_missed {dir : ProcDir} (state : ProcScanState) (htable : input.table = some table)
    (hdir : dir ∈ table.dirs) (ht : TargetDir fnmatch tuning cfg pid tids dir) (hlook : ¬ Looks state pid) :
    (∀ tid ∈ tids, tid ∉ (procScan fnmatch tuning cfg input state).cache.tasks) ∧
    pid ∉ (procScan fnmatch tuning cfg input state).cache.pids := by
  obtain ⟨hcache, _, _⟩ := procScan_spec fnmatch tuning cfg state htable
  rw [hcache]
  constructor
  · intro tid htid hmem
    obtain ⟨e, he⟩ := Finmap.mem_iff.mp hmem
    rcases fillTasks_entry he with hold | ⟨c, hc, hctid, _⟩
    · rw [ProcCache.lookup_clear] at hold
      cases hold
    · have hin : c.tid ∈ dir.tids := by rwa [hctid, ht.tids_eq]
      obtain ⟨_, hseen⟩ := scanCalls_thread hdir hc hin
      rw [ht.pid_eq] at hseen
      exact hlook hseen
  · intro hpid
    obtain ⟨tid, e, he, hepid⟩ := mem_pids.mp hpid
    rcases fillTasks_entry he with hold | ⟨c, hc, _, hcpid⟩
    · rw [ProcCache.lookup_clear] at hold
      cases hold
    · obtain ⟨dir', _, hfil, _, _, hcall⟩ := mem_walkCalls.mp hc
      have hsame : dir'.pid = pid := by rw [← (mem_calls hcall).1, hcpid, hepid]
      rw [hsame] at hfil
      exact hlook (by simpa [Looks] using hfil)

/-! ## Two calls -/

/-- A call that scans. -/
theorem cacheSync_scan (fnmatch : Str → Str → Bool) (tuning : TuningConfig) (cfg : AppConfig)
    (h : needReload input state = true) :
    ∃ n, (cacheSync fnmatch tuning cfg input state).cache
        = (procScan fnmatch tuning cfg input { state with lastProcCount := n }).cache ∧
      (cacheSync fnmatch tuning cfg input state).scanAllProc
        = (procScan fnmatch tuning cfg input { state with lastProcCount := n }).scanAllProc ∧
      (cacheSync fnmatch tuning cfg input state).trackedPids
        = (procScan fnmatch tuning cfg input { state with lastProcCount := n }).cache.pids := by
  refine ⟨(input.procs.map UInt16.toNat).getD state.lastProcCount, ?_⟩
  unfold cacheSync
  rw [if_pos h]
  exact ⟨rfl, rfl, rfl⟩

theorem cacheSync_idle (h : needReload input state = false) :
    (cacheSync fnmatch tuning cfg input state).cache = state.cache := by
  unfold cacheSync
  rw [h]
  rfl

/-- A call after which `sysinfo` reports more than the call before it scans. -/
theorem needReload_of_grows {i₀ i₁ : SyncInput} {a b : UInt16} (h₀ : i₀.procs = some a)
    (h₁ : i₁.procs = some b) (hab : a < b) :
    needReload i₁ (cacheSync fnmatch tuning cfg i₀ state) = true := by
  have hcount : (cacheSync fnmatch tuning cfg i₀ state).lastProcCount = a.toNat := by
    unfold cacheSync
    rw [h₀]
    dsimp only
    split <;> rfl
  have hlt : a.toNat < b.toNat := hab
  simp [needReload, hcount, h₁, hlt]

/-- The call that first sees the process looks at it, or makes the next call look at everything. -/
def Due (s₀ : ProcScanState) (i₁ : SyncInput) (pid : Int) : Prop :=
  s₀.scanAllProc = true ∨ pid ∈ s₀.trackedPids ∨
    ∃ t, i₁.table = some t ∧ s₀.lastProcTotal < t.dirs.length

/-- What the first of the two calls does: it scans, and sets the flag when the total has passed that of
    the scan before. -/
theorem first_call {i₀ i₁ i₂ : SyncInput} (h : Launch fnmatch tuning cfg i₀ i₁ i₂ pid tids)
    {s₀ s₁ : ProcScanState} (hs₀ : s₀ = cacheSync fnmatch tuning cfg i₀ state)
    (hs₁ : s₁ = cacheSync fnmatch tuning cfg i₁ s₀) :
    (s₁.scanAllProc = true ↔ ∃ t, i₁.table = some t ∧ s₀.lastProcTotal < t.dirs.length) ∧
    (Looks s₀ pid → (∀ tid ∈ tids, tid ∈ s₁.cache.tasks) ∧ pid ∈ s₁.trackedPids) ∧
    (¬ Looks s₀ pid → (∀ tid ∈ tids, tid ∉ s₁.cache.tasks) ∧ pid ∉ s₁.trackedPids) := by
  obtain ⟨t₁, htable₁, dir₁, hdir₁, htarget₁⟩ := h.first
  obtain ⟨a, b, h₀, h₁, hab⟩ := h.grows
  have hreload : needReload i₁ s₀ = true := by rw [hs₀]; exact needReload_of_grows h₀ h₁ hab
  obtain ⟨n, hcache, hscan, htracked⟩ := cacheSync_scan fnmatch tuning cfg hreload
  rw [← hs₁] at hcache hscan htracked
  obtain ⟨_, _, hflag⟩ := procScan_spec fnmatch tuning cfg { s₀ with lastProcCount := n } htable₁
  refine ⟨?_, fun hlook => ?_, fun hlook => ?_⟩
  · rw [hscan, hflag, htable₁]
    simp
  · obtain ⟨hkeys, hpids⟩ := scan_found { s₀ with lastProcCount := n } htable₁ hdir₁ htarget₁
      hlook
    rw [hcache, htracked]
    exact ⟨hkeys, hpids h.threads⟩
  · rw [hcache, htracked]
    exact scan_missed { s₀ with lastProcCount := n } htable₁ hdir₁ htarget₁ hlook

theorem found_of_due (state : ProcScanState) {i₀ i₁ i₂ : SyncInput} (h : Launch fnmatch tuning cfg i₀ i₁ i₂ pid tids)
    (hdue : Due (cacheSync fnmatch tuning cfg i₀ state) i₁ pid) :
    ∀ tid ∈ tids, tid ∈ (cacheSync fnmatch tuning cfg i₂ (cacheSync fnmatch tuning cfg i₁
      (cacheSync fnmatch tuning cfg i₀ state))).cache.tasks := by
  obtain ⟨t₂, htable₂, dir₂, hdir₂, htarget₂⟩ := h.second
  generalize hs₀ : cacheSync fnmatch tuning cfg i₀ state = s₀ at hdue ⊢
  generalize hs₁ : cacheSync fnmatch tuning cfg i₁ s₀ = s₁
  obtain ⟨hflag, hlooked, _⟩ := first_call h hs₀.symm hs₁.symm
  have hrescan : needReload i₂ s₁ = true → Looks s₁ pid →
      ∀ tid ∈ tids, tid ∈ (cacheSync fnmatch tuning cfg i₂ s₁).cache.tasks := by
    intro hreload hlook
    obtain ⟨m, hcache, _, _⟩ := cacheSync_scan fnmatch tuning cfg hreload
    rw [hcache]
    exact (scan_found { s₁ with lastProcCount := m } htable₂ hdir₂ htarget₂ hlook).1
  by_cases hlook : Looks s₀ pid
  · obtain ⟨hkeys, hpid⟩ := hlooked hlook
    by_cases hreload : needReload i₂ s₁ = true
    · exact hrescan hreload (Or.inr hpid)
    · rw [cacheSync_idle (by simpa using hreload)]
      exact hkeys
  · have hall : s₁.scanAllProc = true := by
      rcases hdue with hall | hin | hgrown
      · exact absurd (Or.inl hall) hlook
      · exact absurd (Or.inr hin) hlook
      · exact hflag.mpr hgrown
    exact hrescan (by simp [needReload, hall]) (Or.inl hall)

theorem missed_of_not_due (state : ProcScanState) {i₀ i₁ i₂ : SyncInput}
    (h : Launch fnmatch tuning cfg i₀ i₁ i₂ pid tids) (hdue : ¬ Due (cacheSync fnmatch tuning cfg i₀ state) i₁ pid) :
    ∀ tid ∈ tids, tid ∉ (cacheSync fnmatch tuning cfg i₂ (cacheSync fnmatch tuning cfg i₁
      (cacheSync fnmatch tuning cfg i₀ state))).cache.tasks := by
  obtain ⟨t₂, htable₂, dir₂, hdir₂, htarget₂⟩ := h.second
  generalize hs₀ : cacheSync fnmatch tuning cfg i₀ state = s₀ at hdue ⊢
  generalize hs₁ : cacheSync fnmatch tuning cfg i₁ s₀ = s₁
  obtain ⟨hflag, _, hpassed⟩ := first_call h hs₀.symm hs₁.symm
  have hlook₀ : ¬ Looks s₀ pid := by
    rintro (hall | hin)
    · exact hdue (Or.inl hall)
    · exact hdue (Or.inr (Or.inl hin))
  obtain ⟨hnokeys, hnopid⟩ := hpassed hlook₀
  -- the second call has not been told to look at everything, nor at this process
  have hlook₁ : ¬ Looks s₁ pid := by
    rintro (hall | hin)
    · exact hdue (Or.inr (Or.inr (hflag.mp hall)))
    · exact hnopid hin
  by_cases hreload : needReload i₂ s₁ = true
  · obtain ⟨m, hcache, _, _⟩ := cacheSync_scan fnmatch tuning cfg hreload
    rw [hcache]
    exact (scan_missed { s₁ with lastProcCount := m } htable₂ hdir₂ htarget₂ hlook₁).1
  · rw [cacheSync_idle (by simpa using hreload)]
    exact hnokeys

/-- **Which new processes are found.** Two calls after a process came up, with the process count growing,
    all its threads are cached if and only if the first of the two had a full scan due, or had the process
    id on its list, or counted more processes than the last scan before it. -/
theorem newcomer_found_iff {i₀ i₁ i₂ : SyncInput} (h : Launch fnmatch tuning cfg i₀ i₁ i₂ pid tids)
    (state : ProcScanState) :
    (∀ tid ∈ tids, tid ∈ (cacheSync fnmatch tuning cfg i₂ (cacheSync fnmatch tuning cfg i₁
        (cacheSync fnmatch tuning cfg i₀ state))).cache.tasks) ↔
      Due (cacheSync fnmatch tuning cfg i₀ state) i₁ pid := by
  constructor
  · intro hfound
    by_contra hdue
    obtain ⟨tid, htid⟩ := h.threads
    exact missed_of_not_due state h hdue tid htid (hfound tid htid)
  · exact found_of_due state h

end

/-! ## A process that comes up after others have gone -/

/-- A process of no configured package, gone before its name is read. -/
def bystander (pid : Int) : ProcDir where
  pid := pid
  cmdline := none
  comm := none
  tasks := none

/-- The main thread of `com.a`, alone. -/
def newcomer : ProcDir where
  pid := 7
  cmdline := some (utf8 "com.a".toList)
  comm := none
  tasks := some [{ tid := 7, comm := none, sys := .calm }]

def threeBystanders : ProcTable where
  dirs := [bystander 1, bystander 2, bystander 3]
  pids_nodup := by decide
  tids_apart := by simp [bystander]

def oneBystander : ProcTable where
  dirs := [bystander 1]
  pids_nodup := by decide
  tids_apart := by simp [bystander]

def withNewcomer : ProcTable where
  dirs := [bystander 1, newcomer]
  pids_nodup := by decide
  tids_apart := by simp [bystander, newcomer]

/-- A call on which every tracked process is alive. -/
def callWith (procs : UInt16) (table : ProcTable) : SyncInput where
  procs := some procs
  kill _ := none
  table := some table

theorem newcomer_launch :
    Launch (· == ·) {} oneRule (callWith 5 oneBystander) (callWith 6 withNewcomer)
      (callWith 6 withNewcomer) 7 {7} := by
  have hname : readCmdline (some (utf8 "com.a".toList)) = some "com.a".toList :=
    readCmdline_plain (by decide) (by decide) (by decide) (by decide) (by decide)
  have htarget : TargetDir (· == ·) {} oneRule 7 {7} newcomer := by
    refine ⟨rfl, by decide, "com.a".toList, ?_, ?_⟩
    · rw [ProcDir.target, ProcDir.name, newcomer, hname]
      decide +kernel
    · intro t ht
      obtain rfl : t = { tid := 7, comm := none, sys := .calm } := by simpa [newcomer] using ht
      exact Or.inl (by decide +kernel)
  have htable : ∃ t, (callWith 6 withNewcomer).table = some t ∧
      ∃ dir ∈ t.dirs, TargetDir (· == ·) {} oneRule 7 {7} dir :=
    ⟨withNewcomer, rfl, newcomer, by simp [withNewcomer], htarget⟩
  refine ⟨?_, htable, htable, by decide, 5, 6, rfl, rfl, by decide⟩
  rintro t ⟨⟩ dir hdir
  obtain rfl : dir = bystander 1 := by simpa [oneBystander] using hdir
  decide

/-- The process is found by the second call when the first one had a full scan due. -/
theorem newcomer_found_new :
    ((∀ tid ∈ ({7} : Finset Int), tid ∈ (cacheSync (· == ·) {} oneRule (callWith 6 withNewcomer)
      (cacheSync (· == ·) {} oneRule (callWith 6 withNewcomer) (cacheSync (· == ·) {} oneRule
        (callWith 5 oneBystander) .new))).cache.tasks) ↔
      Due (cacheSync (· == ·) {} oneRule (callWith 5 oneBystander) .new) (callWith 6 withNewcomer) 7) ∧
    Due (cacheSync (· == ·) {} oneRule (callWith 5 oneBystander) .new) (callWith 6 withNewcomer) 7 :=
  ⟨newcomer_found_iff newcomer_launch .new, .inl (by decide +kernel)⟩

/-- Three processes are scanned twice, two of them end, and `com.a` comes up: the total of the last scan
    is three, so the scan that the new process triggers looks only at tracked ones. -/
theorem newcomer_missed :
    Launch (· == ·) {} oneRule (callWith 5 oneBystander) (callWith 6 withNewcomer)
      (callWith 6 withNewcomer) 7 {7} ∧
    (7 : Int) ∉ (Mealy.final (syncStep (· == ·) {} oneRule) .new
      [callWith 9 threeBystanders, callWith 9 threeBystanders, callWith 5 oneBystander,
        callWith 6 withNewcomer, callWith 6 withNewcomer]).cache.tasks := by
  refine ⟨newcomer_launch, ?_⟩
  refine missed_of_not_due (Mealy.final (syncStep (· == ·) {} oneRule) .new
    [callWith 9 threeBystanders, callWith 9 threeBystanders]) newcomer_launch ?_ 7 (by decide)
  rintro (hall | hin | ⟨t, ⟨⟩, hlt⟩)
  · revert hall
    decide +kernel
  · revert hin
    decide +kernel
  · revert hlt
    decide +kernel

end AppOptR
