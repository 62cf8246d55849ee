import AppOptR.Config.Load

/-!
# `Config.Watch` — the loader thread and the file it watches

`config_loader`, `inotify_handle`, `inotify_rewatch`, `disable_inotify` and `config_reload` of `config.rs`, one
system call or access to a static at a time (`loaderStep`), among what may happen to the file meanwhile: it is
opened, written and closed by any program, its name is given to another inode or to none, and the web page
chooses another file. The watch follows an inode, the rules a name; `inotify_rewatch` brings the two together
again.

The loader is the only writer of the configuration here, and the tuning names that `load_config` reads stay as
they are. The reload that a web edit makes itself, as a second writer, and the saves of the tuning file are in
`Config.Reload`.
-/

namespace AppOptR

open Text

/-! ## Events -/

/-- `inotify_event`. -/
structure InotifyEvent where
  wd : UInt32
  mask : UInt32
  cookie : UInt32
  name : List UInt8
  fits : name.length < 2 ^ 32

def inCloseWrite : UInt32 := 0x8
def inDeleteSelf : UInt32 := 0x400
def inMoveSelf : UInt32 := 0x800
def inIgnored : UInt32 := 0x8000

/-- The four bytes of a field, and the field of four bytes. -/
def wordBytes (n : Nat) : List UInt8 :=
  [.ofNat n, .ofNat (n / 256), .ofNat (n / 65536), .ofNat (n / 16777216)]

def bytesWord (bytes : List UInt8) : Nat :=
  bytes.foldr (fun b n => b.toNat + 256 * n) 0

/-- The event as `read` returns it. -/
def InotifyEvent.bytes (event : InotifyEvent) : List UInt8 :=
  wordBytes event.wd.toNat ++ wordBytes event.mask.toNat ++ wordBytes event.cookie.toNat ++
    wordBytes event.name.length ++ event.name

/-- The walk over the buffer: the masks of the events in it. -/
def eventMasks : Nat → List UInt8 → List UInt32
  | 0, _ => []
  | fuel + 1, buf =>
    if buf.length < 16 then []
    else
      .ofNat (bytesWord ((buf.drop 4).take 4)) ::
        eventMasks fuel (buf.drop (16 + bytesWord ((buf.drop 12).take 4)))

/-- The file has changed, or the watch has lost it. -/
def reloads (mask : UInt32) : Bool := mask &&& (inCloseWrite ||| inDeleteSelf ||| inMoveSelf) != 0

/-- The watch has to be set anew: the file it is on has gone. -/
def rewatches (mask : UInt32) : Bool := reloads mask && mask &&& (inDeleteSelf ||| inMoveSelf) != 0

/-! ## The files -/

/-- What an inode holds; there is no text where the bytes are not UTF-8. -/
structure FileVersion where
  mtime : Int
  content : Option Str
  deriving DecidableEq

/-- The files by name and inode, who has them open for writing, and the inotify instance. The watched inode
    that has lost its name is to be told of by an event, at once or when the last reader lets go of it. -/
structure FileWorld where
  dir : Str → Option Nat
  inodes : Nat → FileVersion
  writers : List Nat
  watched : Option Nat
  owed : Bool
  queue : List InotifyEvent

/-- What the name stands for now. -/
def FileWorld.file (files : FileWorld) (path : Str) : Option FileVersion := (files.dir path).map files.inodes

/-- An event for the watch, at the end of the queue. -/
def FileWorld.push (files : FileWorld) (mask : UInt32) : FileWorld :=
  { files with queue := files.queue ++ [⟨1, mask, 0, [], by simp⟩] }

/-- `inotify_rm_watch`. -/
def FileWorld.rmWatch (files : FileWorld) : FileWorld :=
  { (if files.watched.isSome then files.push inIgnored else files) with watched := none, owed := false }

/-- `CString::new`, then `inotify_add_watch`. -/
def FileWorld.addWatch (files : FileWorld) (path : Str) (ok : Bool) : Option FileWorld :=
  if '\x00' ∈ path ∨ ok = false then none
  else (files.dir path).map fun ino => { files with watched := some ino, owed := false }

/-- The inotify instance is closed. -/
def FileWorld.close (files : FileWorld) : FileWorld := { files with watched := none, owed := false, queue := [] }

/-- The name goes to another inode, or to none. -/
def FileWorld.bind (files : FileWorld) (path : Str) (ino : Option Nat) : FileWorld :=
  { files with
    dir := fun p => if p = path then ino else files.dir p
    owed := files.owed || (files.watched.isSome && files.dir path == files.watched && ino != files.watched) }

/-- A write through an open file. -/
def FileWorld.write (files : FileWorld) (ino : Nat) (version : FileVersion) : FileWorld :=
  if ino ∈ files.writers then
    { files with inodes := fun i => if i = ino then version else files.inodes i }
  else files

/-- A writer closes the file; the watch hears of it if it is on this inode. -/
def FileWorld.closeWrite (files : FileWorld) (ino : Nat) : FileWorld :=
  if ino ∈ files.writers then
    { (if files.watched = some ino then files.push inCloseWrite else files) with writers := files.writers.erase ino }
  else files

/-- The event that was owed. -/
def FileWorld.notify (files : FileWorld) (moved : Bool) : FileWorld :=
  if files.owed then { files.push (if moved then inMoveSelf else inDeleteSelf) with owed := false } else files

/-! ## The loader -/

/-- How far `config_reload` has come. -/
inductive Reloading where
  | begun
  | opened (file : Str)
  | statted (file : Str) (mtime : Int)
  | loaded (mtime : Int) (content : Str)

/-- What `config_loader` does next. A reload goes on to the wait or back to the top of the loop. -/
inductive LoaderPhase where
  | top
  | forced
  | adding (file : Str) (forced reloadNeeded : Bool)
  | reload (step : Reloading) (toWait : Bool)
  | wait
  | reading (reloadNeeded needsRewatch : Bool)
  | drained (reloadNeeded needsRewatch : Bool)

/-- The files, the statics, the locals of `config_loader` and how far it has come. -/
structure WatchWorld where
  files : FileWorld
  configFile : Str
  /-- `CONFIG_FILE` has been stored and `FORCE_RELOAD` is to be. -/
  switched : Bool
  forceReload : Bool
  supported : Bool
  current : AppConfig
  lastMtime : Int
  phase : LoaderPhase

/-- What `poll` returns. -/
inductive PollResult where
  | ready
  /-- A timeout, or `EINTR`. -/
  | quiet
  | failed

/-- What `read` returns. -/
inductive ReadResult where
  /-- So many events and one more, or `EAGAIN` where there is none. -/
  | events (more : Nat)
  | interrupted
  | failed

/-- What the system answers to a step. -/
structure LoaderOutcome where
  poll : PollResult := .ready
  read : ReadResult := .events 0
  addOk : Bool := true
  ioOk : Bool := true
  createCpusetDir : Nat → Str → Bool := fun _ _ => true

/-- `disable_inotify`: polling mode from here on. -/
def disableInotify (w : WatchWorld) : WatchWorld := { w with supported := false, files := w.files.close }

/-- Where the loop goes on after a reload. -/
def afterReload (toWait : Bool) : LoaderPhase := if toWait then .wait else .top

section
variable (appNames threadNames : Finset Str)

/-- One step of `config_reload` and the `load_config` in it. -/
def configReloadStep (o : LoaderOutcome) (w : WatchWorld) (step : Reloading) (toWait : Bool) : WatchWorld :=
  match step with
  | .begun => { w with phase := .reload (.opened w.configFile) toWait }
  | .opened file =>
    match w.files.file file with
    | none => { w with phase := afterReload toWait }
    | some version =>
      if o.ioOk = false ∨ (w.lastMtime = version.mtime ∧ w.lastMtime ≠ -1) then
        { w with phase := afterReload toWait }
      else { w with phase := .reload (.statted file version.mtime) toWait }
  | .statted file mtime =>
    match (w.files.file file).bind (·.content) with
    | none => { w with phase := afterReload toWait }
    | some content =>
      if o.ioOk then { w with phase := .reload (.loaded mtime content) toWait }
      else { w with phase := afterReload toWait }
  | .loaded mtime content =>
    { w with
      lastMtime := mtime
      current := configOf o.createCpusetDir w.current.topo appNames threadNames content
      phase := afterReload toWait }

/-- `read` and the walk over what it returns. -/
def readEvents (o : LoaderOutcome) (w : WatchWorld) (reloadNeeded needsRewatch : Bool) : WatchWorld :=
  match o.read, w.files.queue with
  | .failed, _ => { disableInotify w with phase := .top }
  | .interrupted, _ | .events _, [] => { w with phase := .drained reloadNeeded needsRewatch }
  | .events more, event :: rest =>
    let chunk := event :: rest.take more
    let buf := chunk.flatMap InotifyEvent.bytes
    let masks := eventMasks buf.length buf
    { w with
      files := { w.files with queue := rest.drop more }
      lastMtime := if masks.any reloads then -1 else w.lastMtime
      phase := .reading (reloadNeeded || masks.any reloads) (needsRewatch || masks.any rewatches) }

/-- One step of `config_loader`. -/
def loaderStep (o : LoaderOutcome) (w : WatchWorld) : WatchWorld :=
  match w.phase with
  | .top =>
    if w.forceReload then { w with forceReload := false, lastMtime := -1, phase := .forced }
    else { w with phase := .wait }
  | .forced =>
    if w.supported then { w with files := w.files.rmWatch, phase := .adding w.configFile true true }
    else { w with phase := .reload .begun true }
  | .adding file forced reloadNeeded =>
    match w.files.addWatch file o.addOk with
    | some files =>
      { w with files, phase := if forced || reloadNeeded then .reload .begun forced else .top }
    | none => { disableInotify w with phase := if forced then .reload .begun true else .top }
  | .reload step toWait => configReloadStep appNames threadNames o w step toWait
  | .wait =>
    if w.supported then
      match o.poll with
      | .ready => { w with phase := .reading false false }
      | .quiet => { w with phase := .top }
      | .failed => { disableInotify w with phase := .top }
    else { w with phase := .reload .begun false }
  | .reading reloadNeeded needsRewatch => readEvents o w reloadNeeded needsRewatch
  | .drained reloadNeeded needsRewatch =>
    if needsRewatch then { w with files := w.files.rmWatch, phase := .adding w.configFile false reloadNeeded }
    else if reloadNeeded then { w with phase := .reload .begun false }
    else { w with phase := .top }

/-- One step of the loader, of another program, of the kernel, or of the web page. -/
inductive WatchAct where
  | loader (o : LoaderOutcome)
  | openWrite (ino : Nat)
  | write (ino : Nat) (version : FileVersion)
  | closeWrite (ino : Nat)
  | bind (path : Str) (ino : Option Nat)
  | notify (moved : Bool)
  | setConfigFile (path : Str)
  | setForceReload

/-- The step of whoever acts. -/
def watchStep (w : WatchWorld) : WatchAct → WatchWorld × List Unit
  | .loader o => (loaderStep appNames threadNames o w, [])
  | .openWrite ino => ({ w with files := { w.files with writers := ino :: w.files.writers } }, [])
  | .write ino version => ({ w with files := w.files.write ino version }, [])
  | .closeWrite ino => ({ w with files := w.files.closeWrite ino }, [])
  | .bind path ino => ({ w with files := w.files.bind path ino }, [])
  | .notify moved => ({ w with files := w.files.notify moved }, [])
  | .setConfigFile path => ({ w with configFile := path, switched := true }, [])
  | .setForceReload => ({ w with forceReload := true, switched := false }, [])

end

end AppOptR
