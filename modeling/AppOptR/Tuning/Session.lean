import AppOptR.Tuning.Apply

/-!
# `Tuning.Session` — the profile across restarts of the daemon

`load_file` of `tuning.rs`, which a start calls once before any other thread runs, and the runs that it opens: saves
and clones from the web, then another start, from the file as it was left. The file may be missing, unreadable
or no JSON; none of these keeps the daemon from starting.
-/

namespace AppOptR

open Text Json

/-- What is at the path of the profile. -/
inductive ProfileFile where
  | missing
  | unreadable (error : Str)
  /-- Text that is no JSON, and what `serde_json` says of it. -/
  | malformed (error : Str)
  | document (value : Value)

/-- The file, and the variables of the process that runs. -/
structure Session where
  disk : ProfileFile
  store : TuningStore

/-- `load_file`, on the variables of a process. -/
def loadFile (path : Str) (io : WriteIo) (session : Session) : Session :=
  let ignored (key message : Str) : Session :=
    ⟨session.disk, warnOnce key message (replaceConfig {} session.store)⟩
  let invalid (error : Str) : Session :=
    ignored "tuning-config-invalid".toList (path ++ " 无效，已忽略：".toList ++ error)
  match session.disk with
  | .document value =>
    match configFromValue value with
    | .ok config => ⟨session.disk, replaceConfig config session.store⟩
    | .error error => invalid error
  | .malformed error => invalid ("JSON 格式错误: ".toList ++ error)
  | .missing =>
    match writeConfig path io {} session.store with
    | (.ok (), store) => ⟨.document store.file, replaceConfig {} store⟩
    | (.error error, _) => ignored "tuning-config-create".toList error
  | .unreadable error =>
    ignored "tuning-config-read".toList (msg "读取 " path " 失败，已忽略调优规则：" ++ error)

/-- A start of the daemon: the variables are fresh, the file is what it was. -/
def startSession (path : Str) (io : WriteIo) (disk : ProfileFile) : Session :=
  loadFile path io ⟨disk, ⟨.null, {}, [], []⟩⟩

/-- What may happen to the profile while the daemon runs, and when it is started again. -/
inductive SessionInput where
  | op (op : TuningOp)
  | restart (io : WriteIo)

/-- An operation is one that the web side can call for. -/
def SessionInput.Admitted : SessionInput → Prop
  | .op operation => operation.Admitted
  | .restart _ => True

/-- One operation or one start, and the results it returns. -/
def sessionStep (path : Str) (session : Session) : SessionInput → Session × List (Result Unit)
  | .op op =>
    match runOp path session.store op with
    | (.ok (), store) => (⟨.document store.file, store⟩, [.ok ()])
    | (.error error, store) => (⟨session.disk, store⟩, [.error error])
  | .restart io => (startSession path io session.disk, [])

end AppOptR
