import AppOptR.Ebpf.Events

/-!
# `Ebpf.Kernel` — the kernel handlers, and both sides together

The tracepoint programs of `appopt-ebpf`, which filter by `APPLIED_MAP` and `TARGET_COMM_MAP`, and the
system they make up with the daemon: live threads, the events submitted and not yet handled, and the
daemon's state. The ring buffer drops nothing, and the tracepoint offsets have been injected. A thread
renames itself: `task_rename` takes the current task for the renamed one.
-/

namespace AppOptR

open Text

/-- `EventMeta`. -/
structure EventMeta where
  pid : Int
  tid : Int
  comm : Comm
  parentTid : Int
  parentTgid : Int

/-- `fork_parse`: the event is about the child. -/
def forkParse (parentTid parentTgid childPid : Int) (childComm : Comm) : EventMeta where
  pid := parentTgid
  tid := childPid
  comm := childComm
  parentTid := parentTid
  parentTgid := parentTgid

section
variable (targetCommMap : Finset CommKey)

/-- The filter of `report_named_event`: a `FORK` passes by its parent, an `EXEC` by itself, either by its
    name. -/
def reportPasses (eventType : EventType) (info : EventMeta) (applied : Finset Int) : Bool :=
  decide ((if eventType = .fork then info.parentTid else info.tid) ∈ applied)
    || whitelistMatched targetCommMap info.comm

/-- `report_named_event`: `APPLIED_MAP` and the events submitted. -/
def reportNamedEvent (eventType : EventType) (info : EventMeta) (applied : Finset Int) :
    Finset Int × List EbpfProcEvent :=
  let isTracked := decide ((if eventType = .fork then info.parentTid else info.tid) ∈ applied)
  if !reportPasses targetCommMap eventType info applied then (applied, [])
  else
    (if eventType = .fork ∧ isTracked then insert info.tid applied else applied,
      [{ pid := info.pid, tid := info.tid, comm := info.comm, eventType }])

/-- `sched_process_fork`. -/
def schedProcessFork (parentTid parentTgid childPid : Int) (childComm : Comm) (applied : Finset Int) :
    Finset Int × List EbpfProcEvent :=
  reportNamedEvent targetCommMap .fork (forkParse parentTid parentTgid childPid childComm) applied

/-- `task_rename`. -/
def taskRename (tid tgid : Int) (newComm : Comm) (applied : Finset Int) : List EbpfProcEvent :=
  if tid = 0 then []
  else if decide (tid ∉ applied) && !whitelistMatched targetCommMap newComm then []
  else [{ pid := tgid, tid, comm := newComm, eventType := .rename }]

/-- `sched_process_exit`. -/
def schedProcessExit (tid tgid : Int) (applied : Finset Int) : Finset Int × List EbpfProcEvent :=
  if tid ∉ applied then (applied, [])
  else (applied.erase tid, [{ pid := tgid, tid, comm := padTo 16 [], eventType := .exit }])

end

/-- A live thread, with its history: whether its fork passed the filter, and whether it has been renamed
    since. -/
structure KThread where
  tgid : Int
  comm : Comm
  passed : Bool := false
  renamed : Bool := false
  deriving DecidableEq

/-- Both sides: the live threads, the events on their way, and the daemon with `APPLIED_MAP`. -/
structure World where
  threads : Int → Option KThread
  fifo : List EbpfProcEvent
  daemon : EbpfState

/-- One atomic step. -/
inductive WorldAct where
  | fork (parent child : Int) (newProcess : Bool)
  | rename (tid : Int) (comm : Comm)
  | exit (tid : Int)
  | dispatch (sys : Sys) (cmdline : Int → Option (List UInt8))

section
variable (fnmatch : Str → Str → Bool) (tuning : TuningConfig) (cfg : AppConfig)

/-- The new thread of a fork. It has its parent's name, and is in its parent's process unless the fork
    makes a new one. -/
def childThread (w : World) (parent : KThread) (parentTid child : Int) (newProcess : Bool) : KThread where
  tgid := if newProcess then child else parent.tgid
  comm := parent.comm
  passed := reportPasses (commKeysBuild cfg.pkgs) .fork
    (forkParse parentTid parent.tgid child parent.comm) w.daemon.applied

def World.fork (w : World) (parent child : Int) (newProcess : Bool) : World :=
  match w.threads parent with
  | none => w
  | some p =>
    let (applied, events) := schedProcessFork (commKeysBuild cfg.pkgs) parent p.tgid child p.comm
      w.daemon.applied
    { threads := Function.update w.threads child (some (childThread cfg w p parent child newProcess))
      fifo := w.fifo ++ events
      daemon := { w.daemon with applied } }

def World.rename (w : World) (tid : Int) (comm : Comm) : World :=
  match w.threads tid with
  | none => w
  | some t =>
    { w with
      threads := Function.update w.threads tid (some { t with comm, renamed := true })
      fifo := w.fifo ++ taskRename (commKeysBuild cfg.pkgs) tid t.tgid comm w.daemon.applied }

def World.exit (w : World) (tid : Int) : World :=
  match w.threads tid with
  | none => w
  | some t =>
    let (applied, events) := schedProcessExit tid t.tgid w.daemon.applied
    { threads := Function.update w.threads tid none
      fifo := w.fifo ++ events
      daemon := { w.daemon with applied } }

/-- The daemon takes the next event. -/
def World.dispatch (w : World) (sys : Sys) (cmdline : Int → Option (List UInt8)) : World :=
  match w.fifo with
  | [] => w
  | event :: fifo =>
    { w with fifo, daemon := eventDispatch fnmatch tuning cfg sys cmdline event w.daemon }

def worldStep (w : World) : WorldAct → World × List Unit
  | .fork parent child newProcess => (w.fork cfg parent child newProcess, [])
  | .rename tid comm => (w.rename cfg tid comm, [])
  | .exit tid => (w.exit tid, [])
  | .dispatch sys cmdline => (w.dispatch fnmatch tuning cfg sys cmdline, [])

/-- What the system guarantees of a step: a forked thread has a new positive id, and only a thread that has
    ended is reported as ended by `sched_setaffinity`. -/
def Enabled (w : World) : WorldAct → Prop
  | .fork parent child _ => (w.threads parent).isSome ∧ w.threads child = none ∧ 0 < child
  | .rename tid _ => (w.threads tid).isSome
  | .exit tid => (w.threads tid).isSome
  | .dispatch sys _ => w.fifo ≠ [] ∧ ∀ tid cpus, sys.setAffinity tid cpus = some .esrch → w.threads tid = none

end
end AppOptR
