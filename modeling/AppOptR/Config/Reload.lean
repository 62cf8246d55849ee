import AppOptR.Config.Load
import AppOptR.Tuning.Store

/-!
# `Config.Reload` — two threads that reload the configuration

`config_reload` as the loader thread and a web request that sets the tuning configuration run it. One
reload reads the rules file, then the tuning snapshot twice, stores the new configuration and sets the
update flag; these are the atomic steps (`reloadStep`), and the steps of the two threads interleave
(`ReloadAct`). Web requests that change anything hold `WEB_MUTATION_LOCK`, so one of them runs at a time.
-/

namespace AppOptR

open Text

structure RulesFile where
  mtime : Int
  content : Str

/-- What both threads access. -/
structure Shared where
  file : RulesFile
  tuning : TuningStore
  current : AppConfig
  updated : Bool

/-- How far a reload has come, with what it has read. -/
inductive ReloadPhase where
  | idle
  | begun (topo : CpuTopology)
  | read (topo : CpuTopology) (content : Str)
  | named (topo : CpuTopology) (content : Str) (names : Finset Str)
  | tuned (topo : CpuTopology) (content : Str) (names threads : Finset Str)
  | stored

/-- What the system answers to one step of a reload. -/
structure ReloadEnv where
  readOk : Bool
  createCpusetDir : Nat → Str → Bool

/-- The next atomic step of a reload that keeps its file time in `lastMtime`. -/
def reloadStep (env : ReloadEnv) (shared : Shared) (phase : ReloadPhase) (lastMtime : Int) :
    Shared × ReloadPhase × Int :=
  match phase with
  | .idle => (shared, .idle, lastMtime)
  | .begun topo =>
    if !env.readOk then (shared, .idle, lastMtime)
    else if lastMtime = shared.file.mtime ∧ lastMtime ≠ -1 then (shared, .idle, lastMtime)
    else (shared, .read topo shared.file.content, shared.file.mtime)
  | .read topo content => (shared, .named topo content (appPackageNames shared.tuning.config), lastMtime)
  | .named topo content names =>
    (shared, .tuned topo content names (threadRulePackages shared.tuning.config), lastMtime)
  | .tuned topo content names threads =>
    ({ shared with current := configOf env.createCpusetDir topo names threads content }, .stored, lastMtime)
  | .stored => ({ shared with updated := true }, .idle, lastMtime)

/-- A web request that sets the tuning configuration, from the moment it holds the lock. -/
inductive WebPhase where
  | holding
  | reloading (phase : ReloadPhase) (mtime : Int)

/-- The shared variables, the loader thread, and the web thread that holds the lock, if one does. -/
structure ReloadWorld where
  shared : Shared
  forceReload : Bool
  inotifyPending : Bool
  loader : ReloadPhase
  lastMtime : Int
  web : Option WebPhase

/-- One atomic step of either thread, or of the world around them. -/
inductive ReloadAct where
  | editFile (file : RulesFile) (notify : Bool)
  | setForceReload
  | loaderForce
  | loaderInotify
  | loaderPoll
  | loaderStep (env : ReloadEnv)
  | webBegin
  | webSave (config : TuningConfig) (io : WriteIo)
  | webStep (env : ReloadEnv)

/-- `config_loader` starts a reload. -/
def ReloadWorld.begin (w : ReloadWorld) (lastMtime : Int) : ReloadWorld :=
  { w with loader := .begun w.shared.current.topo, lastMtime }

/-- The next step of the loader's reload. -/
def ReloadWorld.loaderStep (w : ReloadWorld) (env : ReloadEnv) : ReloadWorld :=
  let (shared, phase, lastMtime) := reloadStep env w.shared w.loader w.lastMtime
  { w with shared, loader := phase, lastMtime }

/-- `replace_and_save`, and the `config_reload_now` that begins when it has succeeded. -/
def ReloadWorld.webSave (path : Str) (w : ReloadWorld) (config : TuningConfig) (io : WriteIo) : ReloadWorld :=
  match w.web with
  | some .holding =>
    match replaceAndSave path io config w.shared.tuning with
    | (.ok (), tuning) =>
      { w with
        shared := { w.shared with tuning }
        web := some (.reloading (.begun w.shared.current.topo) (-1)) }
    | (.error _, tuning) => { w with shared := { w.shared with tuning }, web := none }
  | _ => w

/-- The next step of the web request's reload; the lock goes with the end of it. -/
def ReloadWorld.webStep (w : ReloadWorld) (env : ReloadEnv) : ReloadWorld :=
  match w.web with
  | some (.reloading phase mtime) =>
    let (shared, phase, mtime) := reloadStep env w.shared phase mtime
    match phase with
    | .idle => { w with shared, web := none }
    | _ => { w with shared, web := some (.reloading phase mtime) }
  | _ => w

/-- One step of the loader, of a web thread, or of whoever edits the rules file. -/
def reloadWorldStep (path : Str) (w : ReloadWorld) : ReloadAct → ReloadWorld × List Unit
  | .editFile file notify =>
    ({ w with shared := { w.shared with file }, inotifyPending := w.inotifyPending || notify }, [])
  | .setForceReload => ({ w with forceReload := true }, [])
  | .loaderForce =>
    match w.loader, w.forceReload with
    | .idle, true => ({ w.begin (-1) with forceReload := false }, [])
    | _, _ => (w, [])
  | .loaderInotify =>
    match w.loader, w.inotifyPending with
    | .idle, true => ({ w.begin (-1) with inotifyPending := false }, [])
    | _, _ => (w, [])
  | .loaderPoll =>
    match w.loader with
    | .idle => (w.begin w.lastMtime, [])
    | _ => (w, [])
  | .loaderStep env => (w.loaderStep env, [])
  | .webBegin => (if w.web.isNone then { w with web := some .holding } else w, [])
  | .webSave config io => (w.webSave path config io, [])
  | .webStep env => (w.webStep env, [])

/-- Before the threads start, `main` loads the tuning configuration, then the first configuration. -/
def reloadStart (createCpusetDir : Nat → Str → Bool) (topo : CpuTopology) (file : RulesFile)
    (tuning : TuningStore) : ReloadWorld where
  shared :=
    { file, tuning, updated := true
      current := configOf createCpusetDir topo (appPackageNames tuning.config)
        (threadRulePackages tuning.config) file.content }
  forceReload := false
  inotifyPending := false
  loader := .idle
  lastMtime := -1
  web := none

end AppOptR
