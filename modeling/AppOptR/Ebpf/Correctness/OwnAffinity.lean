import AppOptR.Ebpf.Events

/-!
# `Ebpf.Correctness.OwnAffinity` — a cached affinity belongs to the entry's package

Every entry is written by `task_apply`, which takes the CPUs from the rules of the call's package, except
where a package rule meets an entry that a thread rule made: then the old CPUs stay under the new call's
package. As long as that happens only within one package, every entry's CPUs come from the rules of its
own package (`own_affinity`); when a thread changes its package, they need not.
-/

namespace AppOptR

open Text

section
variable (fnmatch : Str → Str → Bool) (tuning : TuningConfig) (cfg : AppConfig)

/-- The CPUs of the entry, if it has any, are what the rules of its package give to some thread name. -/
def OwnCpus (e : TaskEntry) : Prop :=
  ∀ c, e.cpus = some c → ∃ n, ∀ createCpusetDir,
    (threadAffinity fnmatch createCpusetDir e.pkg n cfg).map (·.cpus) = some c

/-- Every entry is of a configured package, and has CPUs of that package. -/
def OwnAffinity (cache : ProcCache) : Prop := cache.All fun e => e.pkg ∈ cfg.pkgs ∧ OwnCpus fnmatch cfg e

/-- Where the call's package rule keeps a thread rule, it is one of the same package. -/
def KeepsOwn (cache : ProcCache) (c : TaskCall) : Prop :=
  ∀ old, Retains fnmatch cfg c.sys c.tid c.pkg c.comm cache old → old.pkg = c.pkg

/-- The call an event leads to, if any, keeps only rules of its own package. -/
def ActKeepsOwn (state : EbpfState) : EbpfAct → Prop
  | .event sys cmdline event =>
    event.eventType = .exec ∨ event.eventType = .rename →
      ∀ c, eventCall cfg sys cmdline event.tid event.pid (commStr event.comm) state.cache = some c →
        KeepsOwn fnmatch cfg state.cache c
  | .check _ => True

end

section
variable {fnmatch : Str → Str → Bool} {tuning : TuningConfig} {cfg : AppConfig}

/-- The CPUs of a result are those of its package, whatever becomes of the cpuset directory. -/
theorem cpus_of_result {createCpusetDir : Str → Bool} {pkg n : Str} {r : AffinityResult}
    (hr : threadAffinity fnmatch createCpusetDir pkg n cfg = some r) (createCpusetDir' : Str → Bool) :
    (threadAffinity fnmatch createCpusetDir' pkg n cfg).map (·.cpus) = some r.cpus := by
  have henv := threadAffinity_env fnmatch createCpusetDir createCpusetDir' pkg n cfg
  have hfst := congrArg (Option.map Prod.fst) henv
  rw [Option.map_map, Option.map_map, hr] at hfst
  exact hfst.symm

/-- **The step lemma**: an entry written under the guard has CPUs of its own package. -/
theorem Wrote.ownCpus {cache : ProcCache} {c : TaskCall} {e : TaskEntry}
    (h : Wrote fnmatch tuning cfg c.sys c.tid c.pid c.pkg c.comm cache e)
    (hown : OwnAffinity fnmatch cfg cache) (hkeep : KeepsOwn fnmatch cfg cache c) :
    OwnCpus fnmatch cfg e := by
  intro cpus hcpus
  cases h with
  | fresh hr =>
    obtain rfl : _ = cpus := Option.some.inj hcpus
    exact ⟨threadName cfg c.pkg c.comm, cpus_of_result hr⟩
  | retained hret =>
    -- the old entry's CPUs, under the package the guard says is also the old entry's
    obtain ⟨n, hn⟩ := (hown c.tid _ hret.1).2 cpus hcpus
    rw [hkeep _ hret] at hn
    exact ⟨n, hn⟩
  | tuned _ _ => cases hcpus

theorem Wrote.own {cache : ProcCache} {c : TaskCall} {e : TaskEntry}
    (h : Wrote fnmatch tuning cfg c.sys c.tid c.pid c.pkg c.comm cache e)
    (hown : OwnAffinity fnmatch cfg cache) (hpkg : c.pkg ∈ cfg.pkgs) (hkeep : KeepsOwn fnmatch cfg cache c) :
    e.pkg ∈ cfg.pkgs ∧ OwnCpus fnmatch cfg e :=
  ⟨by rw [h.pkg_eq]; exact hpkg, h.ownCpus hown hkeep⟩

/-- A full scan whose calls keep only rules of their own package. -/
theorem fullScan_own (entries : Option (List ProcDir)) (state : EbpfState)
    (hkeep : Mealy.Along (scanStep fnmatch tuning cfg) (fun s c => KeepsOwn fnmatch cfg s.cache c)
      { cache := state.cache.clear, applied := ∅ } (fullScanCalls cfg entries)) :
    OwnAffinity fnmatch cfg (fullScan fnmatch tuning cfg entries state).cache := by
  rw [fullScan_eq]
  have hstep : ∀ (s : EbpfState) (c : TaskCall), OwnAffinity fnmatch cfg s.cache →
      c.pkg ∈ cfg.pkgs ∧ KeepsOwn fnmatch cfg s.cache c →
      OwnAffinity fnmatch cfg (scanStep fnmatch tuning cfg s c).1.cache :=
    fun s c hown hc => applyTracked_all hown fun e he => he.own hown hc.1 hc.2
  refine Mealy.invariant (I := fun s : EbpfState => OwnAffinity fnmatch cfg s.cache) hstep
    ?_ (ProcCache.all_clear _ state.cache)
  exact Mealy.along_and (Mealy.along_of_forall fun c hc => fullScanCalls_pkg hc) hkeep

theorem ebpfStep_own (state : EbpfState) (act : EbpfAct) (hown : OwnAffinity fnmatch cfg state.cache)
    (hkeep : ActKeepsOwn fnmatch cfg state act) :
    OwnAffinity fnmatch cfg (ebpfStep fnmatch tuning cfg state act).1.cache := by
  cases act with
  | check sys => exact hown.affinitySync sys
  | event sys cmdline event =>
    apply eventDispatch_all hown
    intro hkind c hcall e hwrote
    have hpkg : c.pkg ∈ cfg.pkgs := eventCall_known (fun tid e he => (hown tid e he).1) hcall
    exact hwrote.own hown hpkg (hkeep hkind c hcall)

/-- **A cached affinity belongs to the entry's own package**, after a full scan and any events and
    corrections, in every run in which a package rule keeps a thread rule only within one package. -/
theorem own_affinity (entries : Option (List ProcDir)) (start : EbpfState) (acts : List EbpfAct)
    (hscan : Mealy.Along (scanStep fnmatch tuning cfg) (fun s c => KeepsOwn fnmatch cfg s.cache c)
      { cache := start.cache.clear, applied := ∅ } (fullScanCalls cfg entries))
    (hacts : Mealy.Along (ebpfStep fnmatch tuning cfg) (ActKeepsOwn fnmatch cfg)
      (fullScan fnmatch tuning cfg entries start) acts) :
    OwnAffinity fnmatch cfg
      (Mealy.final (ebpfStep fnmatch tuning cfg) (fullScan fnmatch tuning cfg entries start) acts).cache :=
  Mealy.invariant (I := fun s : EbpfState => OwnAffinity fnmatch cfg s.cache) ebpfStep_own hacts
    (fullScan_own entries start hscan)

end

/-! ## One package -/

section
variable {fnmatch : Str → Str → Bool} {cfg : AppConfig} {pkg : Str}

/-- Where only one package is configured, a rule cannot be kept from another. -/
theorem keepsOwn_of_one (hone : ∀ p ∈ cfg.pkgs, p = pkg) {cache : ProcCache}
    (hknown : cache.All fun e => e.pkg ∈ cfg.pkgs) {c : TaskCall} (hpkg : c.pkg ∈ cfg.pkgs) :
    KeepsOwn fnmatch cfg cache c := by
  intro old hret
  rw [hone _ (hknown c.tid old hret.1), hone _ hpkg]

theorem scan_keepsOwn (fnmatch : Str → Str → Bool) (tuning : TuningConfig) (hone : ∀ p ∈ cfg.pkgs, p = pkg)
    (entries : Option (List ProcDir)) (cache : ProcCache) :
    Mealy.Along (scanStep fnmatch tuning cfg) (fun s c => KeepsOwn fnmatch cfg s.cache c)
      { cache := cache.clear, applied := ∅ } (fullScanCalls cfg entries) := by
  refine Mealy.along_invariant (I := fun s : EbpfState => s.cache.All fun e => e.pkg ∈ cfg.pkgs)
    (H := fun c : TaskCall => c.pkg ∈ cfg.pkgs) (fun s c hknown hpkg => applyTracked_all hknown fun e hwrote => ?_)
    (fun s c hknown hpkg => keepsOwn_of_one hone hknown hpkg) (ProcCache.all_clear _ cache)
    (fun c hc => fullScanCalls_pkg hc)
  rw [hwrote.pkg_eq]
  exact hpkg

theorem acts_keepsOwn (fnmatch : Str → Str → Bool) (tuning : TuningConfig) (hone : ∀ p ∈ cfg.pkgs, p = pkg)
    (state : EbpfState) (hknown : state.cache.All fun e => e.pkg ∈ cfg.pkgs) (acts : List EbpfAct) :
    Mealy.Along (ebpfStep fnmatch tuning cfg) (ActKeepsOwn fnmatch cfg) state acts := by
  refine Mealy.along_invariant (H := fun _ => True) (I := fun s : EbpfState => s.cache.All fun e => e.pkg ∈ cfg.pkgs)
    (fun s act h _ => ?_) (fun s act h _ => ?_) hknown (fun _ _ => trivial)
  · cases act with
    | event sys cmdline event => exact eventDispatch_known h
    | check sys => exact h.affinitySync sys
  · cases act with
    | event sys cmdline event => exact fun _ c hcall => keepsOwn_of_one hone h (eventCall_known h hcall)
    | check sys => trivial

end

/-! ## A thread that keeps its rule -/

/-- A rule for all of `com.a`, and one for its render thread. -/
def renderRule : AppConfig :=
  configOf (fun _ _ => true) quadTopology ∅ ∅ "com.a=0 \x7b\n\tRender=1\n\x7d\n".toList

/-- A process of `com.a`: the main thread and the render thread. -/
def renderProcess : ProcDir where
  pid := 10
  cmdline := some (utf8 "com.a".toList)
  comm := none
  tasks := some [{ tid := 10, comm := some (utf8 "com.a".toList), sys := .calm },
    { tid := 11, comm := some (utf8 "Render".toList), sys := .calm }]

/-- The render thread says that it is now called `Pool`. -/
def poolEvent : EbpfAct :=
  .event .calm (fun _ => none) { pid := 10, tid := 11, comm := padTo 16 (utf8 "Pool".toList), eventType := .rename }

/-- A scan, then the render thread takes another name: the rule of the package keeps the one of the thread. -/
theorem own_affinity_kept :
    OwnAffinity (· == ·) renderRule (Mealy.final (ebpfStep (· == ·) {} renderRule)
        (fullScan (· == ·) {} renderRule (some [renderProcess]) { cache := .new, applied := ∅ })
        [poolEvent, .check .calm]).cache ∧
      (Mealy.final (ebpfStep (· == ·) {} renderRule)
        (fullScan (· == ·) {} renderRule (some [renderProcess]) { cache := .new, applied := ∅ })
        [poolEvent, .check .calm]).cache.tasks.lookup 11
          = some { pid := 10, pkg := "com.a".toList, comm := "Pool".toList, cpus := some (parseCpuRanges ['1'] none),
                   cpusetDir := ['1'], isThreadRule := true } := by
  have hpool : commStr (padTo 16 (utf8 "Pool".toList)) = "Pool".toList :=
    commStr_padTo (by decide) (by decide) (by decide)
  have hone : ∀ p ∈ renderRule.pkgs, p = "com.a".toList := by decide +kernel
  have hscan := scan_keepsOwn (· == ·) {} hone (some [renderProcess]) .new
  have hacts := acts_keepsOwn (· == ·) {} hone
    (fullScan (· == ·) {} renderRule (some [renderProcess]) { cache := .new, applied := ∅ }) (fullScan_known _ _)
    [poolEvent, .check .calm]
  refine ⟨own_affinity _ { cache := .new, applied := ∅ } _ hscan hacts, ?_⟩
  simp only [Mealy.final_cons, Mealy.final_nil, ebpfStep, poolEvent, eventDispatch, hpool]
  decide +kernel

/-! ## A thread that changes its package -/

/-- A rule for the main thread of `com.a`, and one for all of `com.b`. -/
def mainThreadRule : AppConfig :=
  configOf (fun _ _ => true) quadTopology ∅ ∅ "com.a \x7b\n\tcom.a=1\n\x7d\ncom.b=0\n".toList

/-- Thread 10, the main thread of its process, says that it is now called `name`. -/
def mainEvent (name : Str) (eventType : EventType) : EbpfAct :=
  .event .calm (fun _ => none) { pid := 10, tid := 10, comm := padTo 16 (utf8 name), eventType }

/-- The thread rule of `com.a` stays with the thread when it executes `com.b`. -/
theorem foreign_affinity :
    ¬ OwnAffinity (· == ·) mainThreadRule (Mealy.final (ebpfStep (· == ·) {} mainThreadRule)
      (fullScan (· == ·) {} mainThreadRule none { cache := .new, applied := ∅ })
      [mainEvent "com.a".toList .rename, mainEvent "com.b".toList .exec]).cache := by
  have hentry : (Mealy.final (ebpfStep (· == ·) {} mainThreadRule)
      (fullScan (· == ·) {} mainThreadRule none { cache := .new, applied := ∅ })
      [mainEvent "com.a".toList .rename, mainEvent "com.b".toList .exec]).cache.tasks.lookup 10
        = some { pid := 10, pkg := "com.b".toList, comm := [], cpus := some (parseCpuRanges ['1'] none),
                 cpusetDir := ['1'], isThreadRule := true } := by
    have hcomA : commStr (padTo 16 (utf8 "com.a".toList)) = "com.a".toList :=
      commStr_padTo (by decide) (by decide) (by decide)
    have hcomB : commStr (padTo 16 (utf8 "com.b".toList)) = "com.b".toList :=
      commStr_padTo (by decide) (by decide) (by decide)
    simp only [Mealy.final_cons, Mealy.final_nil, ebpfStep, mainEvent, eventDispatch, hcomA, hcomB]
    decide +kernel
  intro hown
  obtain ⟨n, hn⟩ := (hown 10 _ hentry).2 _ rfl
  have hrules : ∀ rule ∈ mainThreadRule.rules, rule.pkg = "com.b".toList → rule.thread = [] := by
    decide +kernel
  have hone : (threadAffinity (· == ·) (fun _ => true) "com.b".toList n mainThreadRule).map (·.cpus)
      = some (parseCpuRanges ['1'] none) := hn fun _ => true
  rw [threadAffinity_packageOnly _ _ hrules] at hone
  revert hone
  decide +kernel

end AppOptR
