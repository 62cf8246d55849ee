import AppOptR.Ebpf.Events
import AppOptR.ProcMode

/-!
# `MainLoop` — the loop of `main`

One iteration of the daemon's loop, in the phases of the source: take the update flag and the
configuration, give in to a forced `/proc` mode, retry eBPF, take over a new configuration, reload the
eBPF side when its map is too small, then work in one of the two modes. The other threads act between the
atomic accesses (`EnvAct`); what the loop asks of the system in one iteration is a `LoopInput`. The web
statistics and the restart of the loader thread do not touch this state.

The loop keeps a log of what matters to a configuration update. A fresh eBPF state that is never taken
into use does not count as dropped.
-/

namespace AppOptR

open Text

/-- `MODE_FORCE`. -/
inductive ModeForce where
  | auto
  | ebpf
  | proc
  deriving DecidableEq, Repr

/-- What other threads do to the shared variables. -/
inductive EnvAct where
  | storeConfig (cfg : AppConfig)
  | setUpdated
  | clearGaveUp

/-- The variables of `main`, and the statics it shares with the other threads. -/
structure MainState where
  currentConfig : Option AppConfig
  configUpdated : Bool
  gaveUp : Bool
  ebpf : Option EbpfState
  proc : Option ProcScanState

/-- What `recv_timeout`, and the `try_recv` loop after it, give. -/
inductive Received where
  | events (events : List (Sys × (Int → Option (List UInt8)) × EbpfProcEvent))
  | timeout
  | disconnected

/-- What one iteration meets. `ebpf_init` and the `comm_map_init` that follows are one outcome: `none` when
    the first fails, else whether the second asks for a reload. -/
structure LoopInput where
  beforeSwap : List EnvAct
  beforeRead : List EnvAct
  mode : ModeForce
  tuning : TuningConfig
  retryDue : Bool
  retryInit : Option Bool
  retryScan : Option (List ProcDir)
  overflow : Bool
  refreshScan : Option (List ProcDir)
  reinit : Option Bool
  reinitScan : Option (List ProcDir)
  received : Received
  checkDue : Bool
  checkSys : Sys
  sync : SyncInput

/-- The log. -/
inductive LoopEvent where
  | consumed
  | dropped
  | fullScan
  | cacheSync (scanAllProc : Bool)
  deriving DecidableEq, Repr

/-- An access of another thread to a shared variable. -/
def publish (s : MainState) : EnvAct → MainState
  | .storeConfig cfg => { s with currentConfig := some cfg }
  | .setUpdated => { s with configUpdated := true }
  | .clearGaveUp => { s with gaveUp := false }

/-- What `ebpf_init` hands out. -/
def EbpfState.fresh : EbpfState := { cache := .new, applied := ∅ }

/-- Falling back to `/proc` by the book: the state is told to look at everything. -/
def rearm (s : MainState) : MainState :=
  { s with
    ebpf := none
    proc := some { s.proc.getD .new with scanAllProc := true, lastProcCount := 0, forceAffinity := true } }

section
variable (fnmatch : Str → Str → Bool)

/-- The update flag is taken first, then the configuration is read. -/
def takeUpdate (i : LoopInput) (s : MainState) : MainState × Bool :=
  let s := i.beforeSwap.foldl publish s
  (i.beforeRead.foldl publish { s with configUpdated := false }, s.configUpdated)

/-- `mode == 2 && ebpf_state.is_some()`. -/
def forceProc (i : LoopInput) (s : MainState) : MainState × List LoopEvent :=
  if i.mode = .proc ∧ s.ebpf.isSome then (rearm s, [.dropped]) else (s, [])

/-- The retry while there is no eBPF state. -/
def retryEbpf (i : LoopInput) (cfg : AppConfig) (s : MainState) : MainState × List LoopEvent :=
  if i.mode ≠ .proc ∧ s.ebpf.isNone ∧ (i.mode = .ebpf ∨ s.gaveUp = false) ∧ i.retryDue = true then
    match i.retryInit with
    | some false =>
      ({ s with ebpf := some (fullScan fnmatch i.tuning cfg i.retryScan .fresh) }, [.fullScan])
    | _ => if i.mode = .auto then ({ s with gaveUp := true }, []) else (s, [])
  else (s, [])

/-- Whether the eBPF side has to be reloaded for a new configuration. -/
def needsReload (i : LoopInput) (configChanged : Bool) (s : MainState) : Bool :=
  s.ebpf.isSome && configChanged && i.overflow

/-- The eBPF side takes over a new configuration that fits. -/
def refresh (i : LoopInput) (cfg : AppConfig) (configChanged : Bool) (s : MainState) :
    MainState × List LoopEvent :=
  match s.ebpf with
  | none => (s, [])
  | some es =>
    if configChanged && !i.overflow then
      ({ s with ebpf := some (fullScan fnmatch i.tuning cfg i.refreshScan es) }, [.fullScan])
    else (s, [])

/-- The `need_reload` branch. -/
def reload (i : LoopInput) (cfg : AppConfig) (s : MainState) : MainState × List LoopEvent :=
  match i.reinit with
  | some false =>
    ({ s with ebpf := some (fullScan fnmatch i.tuning cfg i.reinitScan .fresh) }, [.dropped, .fullScan])
  | _ => ({ s with ebpf := none }, [.dropped])

/-- The eBPF half of the work; true when the channel is gone. -/
def workEbpf (i : LoopInput) (cfg : AppConfig) (es : EbpfState) : EbpfState × Bool :=
  let (es, ebpfDead) :=
    match i.received with
    | .events events =>
      (events.foldl (fun es e => eventDispatch fnmatch i.tuning cfg e.1 e.2.1 e.2.2 es) es, false)
    | .timeout => (es, false)
    | .disconnected => (es, true)
  (if i.checkDue then affinityCheck i.checkSys es else es, ebpfDead)

/-- The `/proc` half: the state as `cache_sync` is entered with it. -/
def enterProc (configChanged : Bool) (s : MainState) : ProcScanState :=
  let cache := s.proc.getD .new
  if configChanged then { cache with scanAllProc := true, lastProcCount := 0 } else cache

/-- The `/proc` half from `cache_sync` on; a forced pass over the affinities is due once. -/
def workProc (i : LoopInput) (cfg : AppConfig) (cache : ProcScanState) : ProcScanState :=
  let cache := cacheSync fnmatch i.tuning cfg i.sync cache
  if i.checkDue || cache.forceAffinity then
    { cache with cache := (cache.cache.affinitySync i.checkSys).2, forceAffinity := false }
  else cache

/-- The work of an iteration. A channel that is gone throws the eBPF state away. -/
def work (i : LoopInput) (cfg : AppConfig) (configChanged : Bool) (s : MainState) :
    MainState × List LoopEvent :=
  match s.ebpf with
  | some es =>
    let (es, ebpfDead) := workEbpf fnmatch i cfg es
    if ebpfDead then (rearm { s with ebpf := some es }, [.dropped]) else ({ s with ebpf := some es }, [])
  | none =>
    let cache := enterProc configChanged s
    ({ s with proc := some (workProc fnmatch i cfg cache) }, [.cacheSync cache.scanAllProc])

/-- The iteration after the configuration has been read. -/
def loopBody (i : LoopInput) (cfg : AppConfig) (configChanged : Bool) (s : MainState) :
    MainState × List LoopEvent :=
  let (s, forced) := forceProc i s
  let (s, retried) := retryEbpf fnmatch i cfg s
  let (s, done) :=
    if needsReload i configChanged s then reload fnmatch i cfg s
    else
      let (s, refreshed) := refresh fnmatch i cfg configChanged s
      let (s, worked) := work fnmatch i cfg configChanged s
      (s, refreshed ++ worked)
  (s, forced ++ retried ++ done)

/-- One iteration. -/
def loopStep (s : MainState) (i : LoopInput) : MainState × List LoopEvent :=
  let (s, configChanged) := takeUpdate i s
  let consumed := if configChanged then [LoopEvent.consumed] else []
  match s.currentConfig with
  | none => (s, consumed)
  | some cfg =>
    let (s, log) := loopBody fnmatch i cfg configChanged s
    (s, consumed ++ log)

/-- The state the loop is entered with: the first configuration is published, and `ebpf_init` has been
    tried unless `/proc` is forced. -/
def mainStart (cfg : AppConfig) (mode : ModeForce) (initOk : Bool) : MainState where
  currentConfig := some cfg
  configUpdated := true
  gaveUp := decide (mode = .auto) && !initOk
  ebpf := if mode ≠ .proc ∧ initOk then some .fresh else none
  proc := none

end
end AppOptR
