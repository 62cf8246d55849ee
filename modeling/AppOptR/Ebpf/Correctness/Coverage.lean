import AppOptR.Ebpf.Kernel

/-!
# `Ebpf.Correctness.Coverage` — no renamed thread is lost between kernel and daemon

A thread whose fork passed the kernel's filter is to end up in the cache once it has renamed itself and
the daemon has caught up. `Covered` is the invariant: for such a thread the queued events, read in order,
leave it cached. Two kinds of steps break it. A thread whose fork passed by its *name* is given no
placeholder in `APPLIED_MAP`, and the kernel drops its rename; and the daemon drops the rename of a thread
whose process has no package at that moment. In every run without such steps nothing is lost
(`no_thread_lost`).
-/

namespace AppOptR

open Text

/-- Whether the thread is cached, by its entry. -/
def ProcCache.has (cache : ProcCache) (tid : Int) : Bool := (cache.tasks.lookup tid).isSome

theorem ProcCache.has_iff {cache : ProcCache} {tid : Int} : cache.has tid = true ↔ tid ∈ cache.tasks :=
  Finmap.lookup_isSome

/-- What one event is to make of a thread's entry. -/
def mark (tid : Int) (cached : Bool) (event : EbpfProcEvent) : Bool :=
  if event.tid = tid then
    match event.eventType with
    | .rename => true
    | .fork => cached
    | .exec | .exit => false
  else cached

/-- Whether the thread is cached after all queued events. -/
def settles (tid : Int) (cached : Bool) (fifo : List EbpfProcEvent) : Bool := fifo.foldl (mark tid) cached

section
variable (cfg : AppConfig)

/-- The thread's fork passed the filter, and it has been renamed since. -/
def KThread.Due (t : KThread) : Prop := t.passed = true ∧ t.renamed = true

/-- Nothing has been forked yet, and the cache holds configured packages only, as a full scan leaves it. -/
structure Start (w : World) : Prop where
  known : w.daemon.cache.All fun e => e.pkg ∈ cfg.pkgs
  fresh : ∀ tid t, w.threads tid = some t → t.passed = false

/-- The invariant. -/
structure Covered (w : World) : Prop where
  known : w.daemon.cache.All fun e => e.pkg ∈ cfg.pkgs
  positive : ∀ tid t, w.threads tid = some t → t.passed = true → tid ≠ 0
  settled : ∀ tid t, w.threads tid = some t → t.Due → settles tid (w.daemon.cache.has tid) w.fifo = true

/-- The step loses no thread: at its first rename a thread whose fork passed is in `APPLIED_MAP` or takes a
    name on the whitelist, and when the daemon handles the rename of such a thread that is not cached, the
    thread's process has a package. (A main thread that has left the cache may be cached again, so that the
    threads of such a process are no exception.) -/
def Caught (w : World) : WorldAct → Prop
  | .rename tid comm => ∀ t, w.threads tid = some t → t.passed = true → t.renamed = false →
      tid ∈ w.daemon.applied ∨ whitelistMatched (commKeysBuild cfg.pkgs) comm = true
  | .dispatch sys cmdline => ∀ event, w.fifo.head? = some event → event.eventType = .rename →
      ∀ t, w.threads event.tid = some t → t.Due → event.tid ∉ w.daemon.cache.tasks →
        ∃ c, eventCall cfg sys cmdline event.tid event.pid (commStr event.comm) w.daemon.cache = some c
  | .fork .. => True
  | .exit _ => True

/-- Once every submitted event has been handled, each live thread whose fork passed and that has been
    renamed since is cached, if its process's main thread is, under a package with thread rules. -/
def NoThreadLost (w : World) : Prop :=
  w.fifo = [] → ∀ tid t, w.threads tid = some t → t.Due →
    (∃ e, w.daemon.cache.tasks.lookup t.tgid = some e ∧ e.pkg ∈ cfg.hasThreadRules) →
      tid ∈ w.daemon.cache.tasks

end

section
variable {fnmatch : Str → Str → Bool} {tuning : TuningConfig} {cfg : AppConfig} {w : World}

theorem settles_append {tid : Int} {cached : Bool} {fifo events : List EbpfProcEvent} :
    settles tid cached (fifo ++ events) = settles tid (settles tid cached fifo) events := List.foldl_append

/-- Events of other threads, and forks, change nothing. -/
theorem settles_other {tid : Int} {cached : Bool} {events : List EbpfProcEvent}
    (h : ∀ e ∈ events, e.tid ≠ tid ∨ e.eventType = .fork) : settles tid cached events = cached := by
  induction events with
  | nil => rfl
  | cons e events ih =>
    have hmark : mark tid cached e = cached := by
      unfold mark
      rcases h e (List.mem_cons_self ..) with hne | hfork
      · rw [if_neg hne]
      · rw [hfork, ite_self]
    show settles tid (mark tid cached e) events = cached
    rw [hmark]
    exact ih fun e' he' => h e' (List.mem_cons_of_mem _ he')

/-- A thread that is cached earlier is cached at the end at least as much. -/
theorem settles_mono {tid : Int} {cached cached' : Bool} (h : cached = true → cached' = true)
    {fifo : List EbpfProcEvent} (hs : settles tid cached fifo = true) : settles tid cached' fifo = true := by
  induction fifo generalizing cached cached' with
  | nil => exact h hs
  | cons e fifo ih =>
    refine @ih (mark tid cached e) (mark tid cached' e) ?_ hs
    unfold mark
    split
    · split
      · exact fun _ => rfl
      · exact h
      · exact fun h => h
      · exact fun h => h
    · exact h

/-! ## The daemon's step -/

theorem applyTracked_other {c : TaskCall} {state : EbpfState} {tid : Int} (h : tid ≠ c.tid) :
    (applyTracked fnmatch tuning cfg c state).2.cache.has tid = state.cache.has tid := by
  unfold ProcCache.has
  rcases applyTracked_cases fnmatch tuning cfg c state with ⟨_, hr⟩ | ⟨_, _, hr⟩ | ⟨e, _, hr⟩
  · rw [hr]
  · rw [hr, ProcCache.lookup_taskDel, if_neg h]
  · rw [hr, ProcCache.lookup_insert, if_neg h]

/-- A call for a live thread leaves its entry, and makes one when there is something to do. -/
theorem applyTracked_live {c : TaskCall} {state : EbpfState}
    (hlive : ∀ cpus, c.sys.setAffinity c.tid cpus ≠ some .esrch)
    (h : state.cache.has c.tid = true ∨ Tracks fnmatch tuning cfg c.pkg c.comm) :
    (applyTracked fnmatch tuning cfg c state).2.cache.has c.tid = true := by
  unfold ProcCache.has at *
  rcases applyTracked_cases fnmatch tuning cfg c state with ⟨hno, hr⟩ | ⟨cpus, hdead, _⟩ | ⟨e, _, hr⟩
  · rw [hr]
    rcases h with hhas | htracks
    · exact hhas
    · exact absurd htracks hno
  · exact absurd hdead (hlive cpus)
  · rw [hr, ProcCache.lookup_insert, if_pos rfl]
    rfl

theorem eventApply_other {sys : Sys} {cmdline : Int → Option (List UInt8)} {etid epid : Int} {comm : Str}
    {state : EbpfState} {tid : Int} (h : tid ≠ etid) :
    (eventApply fnmatch tuning cfg sys cmdline etid epid comm state).2.cache.has tid
      = state.cache.has tid := by
  unfold eventApply
  cases hcall : eventCall cfg sys cmdline etid epid comm state.cache with
  | none => rfl
  | some c => exact applyTracked_other (by rw [(eventCall_pkg hcall).1]; exact h)

theorem drop_other {state : EbpfState} {etid tid : Int} (h : tid ≠ etid) :
    (state.drop etid).cache.has tid = state.cache.has tid := by
  show ((state.cache.taskDel etid).tasks.lookup tid).isSome = _
  rw [ProcCache.lookup_taskDel, if_neg h]
  rfl

theorem eventDispatch_other {sys : Sys} {cmdline : Int → Option (List UInt8)} {event : EbpfProcEvent}
    {state : EbpfState} {tid : Int} (h : tid ≠ event.tid) :
    (eventDispatch fnmatch tuning cfg sys cmdline event state).cache.has tid = state.cache.has tid := by
  have happly : (eventApply fnmatch tuning cfg sys cmdline event.tid event.pid (commStr event.comm)
      state).2.cache.has tid = state.cache.has tid := eventApply_other h
  unfold eventDispatch
  cases event.eventType with
  | exit => exact drop_other h
  | fork => rfl
  | rename => exact happly
  | exec =>
    dsimp only
    split
    · exact happly
    · rw [drop_other h]
      exact happly

/-- **The daemon's step lemma**: what the event is to make of a live thread's entry, the daemon makes of
    it. -/
theorem eventDispatch_mark {sys : Sys} {cmdline : Int → Option (List UInt8)} {event : EbpfProcEvent}
    {state : EbpfState} {tid : Int} (hcfg : LoadedWith tuning cfg)
    (hknown : state.cache.All fun e => e.pkg ∈ cfg.pkgs)
    (hlive : ∀ cpus, sys.setAffinity tid cpus ≠ some .esrch)
    (hcaught : event.tid = tid → event.eventType = .rename → state.cache.has tid = false →
      ∃ c, eventCall cfg sys cmdline event.tid event.pid (commStr event.comm) state.cache = some c)
    (hmark : mark tid (state.cache.has tid) event = true) :
    (eventDispatch fnmatch tuning cfg sys cmdline event state).cache.has tid = true := by
  by_cases htid : event.tid = tid
  · rw [mark, if_pos htid] at hmark
    unfold eventDispatch
    cases hkind : event.eventType with
    | exit =>
      rw [hkind] at hmark
      cases hmark
    | exec =>
      rw [hkind] at hmark
      cases hmark
    | fork =>
      rw [hkind] at hmark
      exact hmark
    | rename =>
      dsimp only
      unfold eventApply
      cases hcall : eventCall cfg sys cmdline event.tid event.pid (commStr event.comm) state.cache with
      | none =>
        -- unresolved: the entry was there before
        by_contra hhas
        obtain ⟨c, hc⟩ := hcaught htid hkind (by simpa using hhas)
        rw [hcall] at hc
        cases hc
      | some c =>
        obtain ⟨hctid, hcsys, _⟩ := eventCall_pkg hcall
        have hmem : c.pkg ∈ cfg.pkgs := eventCall_known hknown hcall
        have hceq : c.tid = tid := hctid.trans htid
        have hlive' : ∀ cpus, c.sys.setAffinity c.tid cpus ≠ some .esrch := by
          rw [hceq, hcsys]
          exact hlive
        rw [← hceq]
        exact applyTracked_live hlive' (Or.inr (hcfg.tracks hmem c.comm))
  · rw [mark, if_neg htid] at hmark
    rw [eventDispatch_other (Ne.symm htid)]
    exact hmark

/-! ## The steps of the whole -/

theorem covered_of_start (h : Start cfg w) : Covered cfg w where
  known := h.known
  positive tid t ht hpassed := by
    rw [h.fresh tid t ht] at hpassed
    cases hpassed
  settled tid t ht hdue := by
    rw [KThread.Due, h.fresh tid t ht] at hdue
    cases hdue.1

/-- A run may begin with what a full scan leaves, whatever threads there are and whatever is queued. -/
theorem start_of_fullScan {entries : Option (List ProcDir)} {state : EbpfState}
    (hscan : w.daemon = fullScan fnmatch tuning cfg entries state)
    (hfresh : ∀ tid t, w.threads tid = some t → t.passed = false) : Start cfg w :=
  ⟨by rw [hscan]; exact fullScan_known entries state, hfresh⟩

/-- The events of a fork are forks. -/
theorem schedProcessFork_events {targetCommMap : Finset CommKey} {parent tgid child : Int} {comm : Comm}
    {applied : Finset Int} {e : EbpfProcEvent}
    (h : e ∈ (schedProcessFork targetCommMap parent tgid child comm applied).2) : e.eventType = .fork := by
  unfold schedProcessFork reportNamedEvent at h
  dsimp only at h
  split at h
  · cases h
  · obtain rfl := List.mem_singleton.mp h
    rfl

theorem schedProcessExit_events {tid tgid : Int} {applied : Finset Int} {e : EbpfProcEvent}
    (h : e ∈ (schedProcessExit tid tgid applied).2) : e.tid = tid := by
  unfold schedProcessExit at h
  split at h
  · cases h
  · obtain rfl := List.mem_singleton.mp h
    rfl

/-- A rename is submitted, unless the thread is neither marked nor given a name on the whitelist. -/
theorem taskRename_cases (targetCommMap : Finset CommKey) {tid : Int} (tgid : Int) (comm : Comm)
    (applied : Finset Int) (htid : tid ≠ 0) :
    (taskRename targetCommMap tid tgid comm applied
        = [{ pid := tgid, tid, comm, eventType := .rename }]) ∨
    (taskRename targetCommMap tid tgid comm applied = [] ∧
      ¬ (tid ∈ applied ∨ whitelistMatched targetCommMap comm = true)) := by
  unfold taskRename
  rw [if_neg htid]
  split
  · next h => exact Or.inr ⟨rfl, by simpa using h⟩
  · exact Or.inl rfl

theorem taskRename_events {targetCommMap : Finset CommKey} {tid tgid : Int} {comm : Comm}
    {applied : Finset Int} {e : EbpfProcEvent} (h : e ∈ taskRename targetCommMap tid tgid comm applied) :
    e.tid = tid := by
  unfold taskRename at h
  split at h
  · cases h
  split at h
  · cases h
  · obtain rfl := List.mem_singleton.mp h
    rfl

theorem covered_fork {parent child : Int} {newProcess : Bool} (h : Covered cfg w) (hpos : 0 < child) :
    Covered cfg (w.fork cfg parent child newProcess) := by
  unfold World.fork
  cases hparent : w.threads parent with
  | none => exact h
  | some p =>
    -- of all threads only the child is new
    have hthread : ∀ tid t, Function.update w.threads child
        (some (childThread cfg w p parent child newProcess)) tid = some t →
        (tid = child ∧ t.renamed = false) ∨ w.threads tid = some t := by
      intro tid t ht
      by_cases htid : tid = child
      · subst htid
        have hchild : childThread cfg w p parent tid newProcess = t := by simpa using ht
        exact Or.inl ⟨rfl, by rw [← hchild]; rfl⟩
      · exact Or.inr (by simpa [htid] using ht)
    refine ⟨h.known, fun tid t ht hpassed => ?_, fun tid t ht hdue => ?_⟩
    · rcases hthread tid t ht with ⟨htid, _⟩ | hold
      · rw [htid]
        exact ne_of_gt hpos
      · exact h.positive tid t hold hpassed
    · rcases hthread tid t ht with ⟨_, hfirst⟩ | hold
      · -- the child has not been renamed yet
        rw [KThread.Due, hfirst] at hdue
        cases hdue.2
      · have hsettled := h.settled tid t hold hdue
        show settles tid _ (w.fifo ++ _) = true
        rw [settles_append, settles_other fun e he => Or.inr (schedProcessFork_events he)]
        exact hsettled

theorem covered_rename {tid : Int} {comm : Comm} (h : Covered cfg w)
    (hcaught : Caught cfg w (.rename tid comm)) : Covered cfg (w.rename cfg tid comm) := by
  unfold World.rename
  cases hthread : w.threads tid with
  | none => exact h
  | some t₀ =>
    have hother : ∀ tid' t, tid' ≠ tid →
        Function.update w.threads tid (some { t₀ with comm, renamed := true }) tid' = some t →
        w.threads tid' = some t := fun tid' t htid ht => by simpa [htid] using ht
    -- the mark of the kernel outlives a rename
    have hself : ∀ t, Function.update w.threads tid (some { t₀ with comm, renamed := true }) tid = some t →
        t.passed = t₀.passed := by
      intro t ht
      obtain rfl : { t₀ with comm, renamed := true } = t := by simpa using ht
      rfl
    refine ⟨h.known, fun tid' t ht hpassed => ?_, fun tid' t ht hdue => ?_⟩
    · by_cases htid : tid' = tid
      · subst htid
        exact h.positive tid' t₀ hthread (by rw [← hself t ht]; exact hpassed)
      · exact h.positive tid' t (hother tid' t htid ht) hpassed
    · show settles tid' _ (w.fifo ++ _) = true
      rw [settles_append]
      by_cases htid : tid' = tid
      · subst htid
        have hpassed : t₀.passed = true := by rw [← hself t ht]; exact hdue.1
        rcases taskRename_cases (commKeysBuild cfg.pkgs) t₀.tgid comm w.daemon.applied
            (h.positive tid' t₀ hthread hpassed) with hsent | ⟨hdropped, hunseen⟩
        · rw [hsent]
          simp [settles, mark]
        · -- a rename the kernel drops is not the first one
          have hrenamed : t₀.renamed = true := by
            by_contra hfirst
            exact hunseen (hcaught t₀ hthread hpassed (by simpa using hfirst))
          rw [hdropped]
          exact h.settled tid' t₀ hthread ⟨hpassed, hrenamed⟩
      · have hsettled := h.settled tid' t (hother tid' t htid ht) hdue
        rw [settles_other fun e he => Or.inl (by rw [taskRename_events he]; exact Ne.symm htid)]
        exact hsettled

theorem covered_exit {tid : Int} (h : Covered cfg w) : Covered cfg (w.exit tid) := by
  unfold World.exit
  cases hthread : w.threads tid with
  | none => exact h
  | some t₀ =>
    have hother : ∀ tid' t, Function.update w.threads tid none tid' = some t →
        tid' ≠ tid ∧ w.threads tid' = some t := by
      intro tid' t ht
      by_cases htid : tid' = tid
      · simp [htid] at ht
      · exact ⟨htid, by simpa [htid] using ht⟩
    refine ⟨h.known, fun tid' t ht hpassed => ?_, fun tid' t ht hdue => ?_⟩
    · exact h.positive tid' t (hother tid' t ht).2 hpassed
    · obtain ⟨htid, hlive⟩ := hother tid' t ht
      have hsettled := h.settled tid' t hlive hdue
      show settles tid' _ (w.fifo ++ _) = true
      rw [settles_append,
        settles_other fun e he => Or.inl (by rw [schedProcessExit_events he]; exact Ne.symm htid)]
      exact hsettled

theorem covered_dispatch {sys : Sys} {cmdline : Int → Option (List UInt8)} (hcfg : LoadedWith tuning cfg)
    (h : Covered cfg w)
    (hdead : ∀ tid cpus, sys.setAffinity tid cpus = some .esrch → w.threads tid = none)
    (hcaught : Caught cfg w (.dispatch sys cmdline)) :
    Covered cfg (w.dispatch fnmatch tuning cfg sys cmdline) := by
  unfold World.dispatch
  cases hfifo : w.fifo with
  | nil => exact h
  | cons event fifo =>
    refine ⟨eventDispatch_known h.known, h.positive, fun tid t ht hdue => ?_⟩
    have hsettled := h.settled tid t ht hdue
    rw [hfifo] at hsettled
    have hlive : ∀ cpus, sys.setAffinity tid cpus ≠ some .esrch := by
      intro cpus hesrch
      have hgone : w.threads tid = none := hdead tid cpus hesrch
      rw [ht] at hgone
      cases hgone
    refine settles_mono (fun hmark => ?_) hsettled
    refine eventDispatch_mark hcfg h.known hlive (fun htid hkind hhas => ?_) hmark
    have hthread : w.threads event.tid = some t := by rw [htid]; exact ht
    refine hcaught event (by rw [hfifo]; rfl) hkind t hthread hdue ?_
    rw [htid, ← ProcCache.has_iff, hhas]
    simp

theorem dispatch_cons {sys : Sys} {cmdline : Int → Option (List UInt8)} {event : EbpfProcEvent}
    {fifo : List EbpfProcEvent} (h : w.fifo = event :: fifo) :
    w.dispatch fnmatch tuning cfg sys cmdline
      = { w with fifo, daemon := eventDispatch fnmatch tuning cfg sys cmdline event w.daemon } := by
  unfold World.dispatch
  rw [h]

/-- **The step lemma.** -/
theorem covered_step (hcfg : LoadedWith tuning cfg) (w : World) (act : WorldAct) (h : Covered cfg w)
    (hstep : Enabled w act ∧ Caught cfg w act) :
    Covered cfg (worldStep fnmatch tuning cfg w act).1 := by
  obtain ⟨henabled, hcaught⟩ := hstep
  cases act with
  | fork parent child newProcess => exact covered_fork h henabled.2.2
  | rename tid comm => exact covered_rename h hcaught
  | exit tid => exact covered_exit h
  | dispatch sys cmdline => exact covered_dispatch hcfg h henabled.2 hcaught

/-- **No thread is lost**, in any interleaving of kernel and daemon steps of which none loses one. -/
theorem no_thread_lost (hcfg : LoadedWith tuning cfg) (hstart : Start cfg w) (acts : List WorldAct)
    (hrun : Mealy.Along (worldStep fnmatch tuning cfg) (fun w act => Enabled w act ∧ Caught cfg w act) w
      acts) :
    NoThreadLost cfg (Mealy.final (worldStep fnmatch tuning cfg) w acts) := by
  have hcovered := Mealy.invariant (covered_step hcfg) hrun (covered_of_start hstart)
  intro hempty tid t ht hdue _
  have hsettled := hcovered.settled tid t ht hdue
  rw [hempty] at hsettled
  exact ProcCache.has_iff.mp hsettled

end

/-! ## A thread forked by name -/

/-- A rule for the threads of `com.a` that are called `T1`. -/
def workerRule : AppConfig :=
  configOf (fun _ _ => true) quadTopology ∅ ∅ "com.a \x7b\n\tT1=1\n\x7d\n".toList

theorem workerRule_loaded : LoadedWith {} workerRule := ⟨fun _ _ => true, quadTopology, _, rfl⟩

/-- A process of one thread, not yet named, and a daemon that knows of none. -/
def newProcess : World where
  threads := Function.update (fun _ => none) 100 (some { tgid := 100, comm := padTo 16 (utf8 "app".toList) })
  fifo := []
  daemon := { cache := .new, applied := ∅ }

theorem newProcess_start : Start workerRule newProcess where
  known tid e he := by
    rw [show newProcess.daemon.cache = .new from rfl, ProcCache.lookup_new] at he
    cases he
  fresh tid t ht := by
    by_cases htid : tid = 100
    · subst htid
      obtain rfl : _ = t := by simpa [newProcess] using ht
      rfl
    · simp [newProcess, htid] at ht

/-- The main thread takes the name of its package. -/
def nameMain : WorldAct := .rename 100 (padTo 16 (utf8 "com.a".toList))

/-- Its first thread is made, and named. -/
def forkWorker : List WorldAct := [.fork 100 101 false, .rename 101 (padTo 16 (utf8 "T1".toList))]

def handleNext : WorldAct := .dispatch .calm fun _ => none

/-- The daemon handles the name of the main thread before the thread is forked, and the rest after. -/
def caughtRun : List WorldAct := nameMain :: handleNext :: forkWorker ++ [handleNext, handleNext]

/-- The queue after the worker's rename: the fork, and the name. -/
theorem caughtRun_fifo :
    (Mealy.final (worldStep (· == ·) {} workerRule) newProcess (nameMain :: handleNext :: forkWorker)).fifo
      = [{ pid := 100, tid := 101, comm := padTo 16 (utf8 "com.a".toList), eventType := .fork },
         { pid := 100, tid := 101, comm := padTo 16 (utf8 "T1".toList), eventType := .rename }] := by
  decide +kernel

theorem caughtRun_along :
    Mealy.Along (worldStep (· == ·) {} workerRule) (fun w act => Enabled w act ∧ Caught workerRule w act) newProcess
      caughtRun := by
  have hcalm : ∀ w : World, ∀ tid cpus, Sys.calm.setAffinity tid cpus = some .esrch →
      w.threads tid = none := fun w tid cpus h => by cases h
  refine ⟨⟨?_, ?_⟩, ⟨⟨?_, hcalm _⟩, ?_⟩, ⟨⟨?_, ?_, by decide⟩, trivial⟩, ⟨?_, ?_⟩, ⟨⟨?_, hcalm _⟩, ?_⟩,
    ⟨⟨?_, hcalm _⟩, ?_⟩, trivial⟩
  · show (newProcess.threads 100).isSome = true
    decide
  · intro t ht hpassed
    rw [newProcess_start.fresh _ t ht] at hpassed
    cases hpassed
  · decide +kernel
  · -- the main thread was not forked in this run
    intro event hevent _ t ht hdue
    have hhead : (newProcess.rename workerRule 100 (padTo 16 (utf8 "com.a".toList))).fifo.head?
        = some { pid := 100, tid := 100, comm := padTo 16 (utf8 "com.a".toList), eventType := .rename } := by
      decide +kernel
    obtain rfl := Option.some.inj (hhead.symm.trans hevent)
    have hmain : (newProcess.rename workerRule 100 (padTo 16 (utf8 "com.a".toList))).threads 100
        = some { tgid := 100, comm := padTo 16 (utf8 "com.a".toList), renamed := true } := by decide +kernel
    obtain rfl := Option.some.inj (hmain.symm.trans ht)
    cases hdue.1
  · decide +kernel
  · decide +kernel
  · show Option.isSome _ = true
    decide +kernel
  · exact fun _ _ _ _ => .inl (by decide +kernel)
  · decide +kernel
  · intro event hevent hrename
    obtain rfl := Option.some.inj ((congrArg List.head? caughtRun_fifo).symm.trans hevent)
    cases hrename
  · decide +kernel
  · -- the main thread is cached by now
    intro event hevent _ _ _ _ _
    have hhead : (Mealy.final (worldStep (· == ·) {} workerRule) newProcess
        (nameMain :: handleNext :: forkWorker ++ [handleNext])).fifo.head?
        = some { pid := 100, tid := 101, comm := padTo 16 (utf8 "T1".toList), eventType := .rename } := by
      decide +kernel
    obtain rfl := Option.some.inj (hhead.symm.trans hevent)
    exact Option.isSome_iff_exists.mp (by decide +kernel)

/-- The run `caughtRun`: everything has been handled, and the worker is cached beside the main thread. -/
theorem no_thread_lost_caught :
    NoThreadLost workerRule (Mealy.final (worldStep (· == ·) {} workerRule) newProcess caughtRun) ∧
    (Mealy.final (worldStep (· == ·) {} workerRule) newProcess caughtRun).fifo = [] ∧
    ∀ tid ∈ [100, 101], (Mealy.final (worldStep (· == ·) {} workerRule) newProcess caughtRun).daemon.cache.has tid
      = true :=
  ⟨no_thread_lost workerRule_loaded newProcess_start _ caughtRun_along, by decide +kernel, by decide +kernel⟩

/-- What is queued when the daemon comes to it: the name of the main thread, and the fork. -/
theorem raced_fifo :
    (Mealy.final (worldStep (· == ·) {} workerRule) newProcess (nameMain :: forkWorker)).fifo
      = [{ pid := 100, tid := 100, comm := padTo 16 (utf8 "com.a".toList), eventType := .rename },
         { pid := 100, tid := 101, comm := padTo 16 (utf8 "com.a".toList), eventType := .fork }] := by
  decide +kernel

/-- The main thread is on the whitelist but not yet marked when it forks: the child passes by its name,
    gets no placeholder, and its rename is dropped. -/
theorem worker_lost :
    Start workerRule newProcess ∧
    Mealy.Along (worldStep (· == ·) {} workerRule) Enabled newProcess
      (nameMain :: forkWorker ++ [handleNext, handleNext]) ∧
    ¬ NoThreadLost workerRule (Mealy.final (worldStep (· == ·) {} workerRule) newProcess
      (nameMain :: forkWorker ++ [handleNext, handleNext])) := by
  have hcalm : ∀ w : World, ∀ tid cpus, Sys.calm.setAffinity tid cpus = some .esrch →
      w.threads tid = none := fun w tid cpus h => by cases h
  have hfifo := raced_fifo
  have hthread : (Mealy.final (worldStep (· == ·) {} workerRule) newProcess
      (nameMain :: forkWorker)).threads 101
      = some { tgid := 100, comm := padTo 16 (utf8 "T1".toList), passed := true, renamed := true } := by
    decide +kernel
  have hcache : (Mealy.final (worldStep (· == ·) {} workerRule) newProcess
      (nameMain :: forkWorker)).daemon.cache = .new := rfl
  -- each step is taken where it is enabled
  have hready : Mealy.Along (worldStep (· == ·) {} workerRule) Enabled newProcess
      (nameMain :: forkWorker) := by
    refine ⟨?_, ⟨?_, ?_, by decide⟩, ?_, trivial⟩
    · show (newProcess.threads 100).isSome = true
      decide
    · show ((newProcess.rename workerRule 100 _).threads 100).isSome = true
      decide +kernel
    · show (newProcess.rename workerRule 100 _).threads 101 = none
      decide +kernel
    · show (((newProcess.rename workerRule 100 _).fork workerRule 100 101 false).threads 101).isSome = true
      decide +kernel
  rw [Mealy.along_append, Mealy.final_append]
  generalize Mealy.final (worldStep (· == ·) {} workerRule) newProcess (nameMain :: forkWorker) = w at *
  refine ⟨newProcess_start, ⟨hready, ⟨by simp [hfifo], hcalm w⟩, ⟨?_, hcalm _⟩, trivial⟩, ?_⟩
  · show (w.dispatch (· == ·) {} workerRule .calm fun _ => none).fifo ≠ []
    rw [dispatch_cons hfifo]
    simp
  -- the daemon caches the main thread, and does nothing for the fork
  have hfinal : Mealy.final (worldStep (· == ·) {} workerRule) w [handleNext, handleNext]
      = { w with
          fifo := []
          daemon := eventDispatch (· == ·) {} workerRule .calm (fun _ => none)
            { pid := 100, tid := 100, comm := padTo 16 (utf8 "com.a".toList), eventType := .rename }
            w.daemon } := by
    show (w.dispatch (· == ·) {} workerRule .calm fun _ => none).dispatch (· == ·) {} workerRule .calm
      (fun _ => none) = _
    rw [dispatch_cons hfifo, dispatch_cons rfl]
    rfl
  have hknown : w.daemon.cache.All fun e => e.pkg ∈ workerRule.pkgs := by
    rw [hcache]
    exact newProcess_start.known
  have hmem : "com.a".toList ∈ workerRule.pkgs := by decide +kernel
  have hcall : ∃ c, eventCall workerRule .calm (fun _ => none) 100 100
      (commStr (padTo 16 (utf8 "com.a".toList))) w.daemon.cache = some c := by
    rw [commStr_padTo (by decide) (by decide) (by decide), eventCall, ProcCache.pkgLookupComm, commToPkg,
      if_pos hmem]
    exact ⟨_, rfl⟩
  rw [hfinal]
  intro hall
  have hmain : (eventDispatch (· == ·) {} workerRule .calm (fun _ => none)
      { pid := 100, tid := 100, comm := padTo 16 (utf8 "com.a".toList), eventType := .rename }
      w.daemon).cache.has 100 = true :=
    eventDispatch_mark workerRule_loaded hknown (fun cpus h => by cases h) (fun _ _ _ => hcall) rfl
  obtain ⟨e, he⟩ := Option.isSome_iff_exists.mp hmain
  have hpkg : e.pkg ∈ workerRule.hasThreadRules := by
    have hsame : workerRule.pkgs = workerRule.hasThreadRules := by decide +kernel
    rw [← hsame]
    exact eventDispatch_known hknown 100 e he
  have hworker := hall rfl 101 _ hthread ⟨rfl, rfl⟩ ⟨e, he, hpkg⟩
  rw [← ProcCache.has_iff, eventDispatch_other (by decide), hcache] at hworker
  cases hworker

end AppOptR
