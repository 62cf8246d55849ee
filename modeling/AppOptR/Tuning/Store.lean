import AppOptR.Lib.Mealy
import AppOptR.Web.RuleApi

/-!
# `Tuning.Store` — the tuning file and the configuration in memory

`write_config`, `replace_and_save` and `clone_app` of `tuning.rs`, over a state that holds the document in
the file and the variables in memory. A write goes through a temporary file in four steps, any of which can
fail with an error text of its own (`WriteIo`); only the last one touches the file. Both operations hold
`TUNING_SAVE_LOCK` from the first line to the last, so they are single steps.
-/

namespace AppOptR

open Text Json

/-- The outcomes of creating, writing, syncing and renaming the temporary file: an error text, or nothing
    where the step succeeds. -/
structure WriteIo where
  create : Option Str := none
  write : Option Str := none
  sync : Option Str := none
  rename : Option Str := none
  deriving DecidableEq

/-- The first step that fails. -/
def WriteIo.error (io : WriteIo) : Option Str :=
  io.create <|> io.write <|> io.sync <|> io.rename

/-- The tuning document on disk, the configuration in memory, and the warnings shown since it was set. -/
structure TuningStore where
  file : Value
  config : TuningConfig
  warningKeys : List Str := []
  warnings : List Str := []

/-- `write_config`. Before the rename only the temporary file changes. -/
def writeConfig (path : Str) (io : WriteIo) (config : TuningConfig) (store : TuningStore) :
    Result Unit × TuningStore :=
  match io.error with
  | some error => (.error (msg "写入 " path " 失败: " ++ error), store)
  | none => (.ok (), { store with file := configValue config })

/-- `replace_config`: the new configuration; the warnings of the old one go. -/
def replaceConfig (config : TuningConfig) (store : TuningStore) : TuningStore :=
  { store with config, warningKeys := [], warnings := [] }

/-- `replace_and_save`: the file first, then the memory. -/
def replaceAndSave (path : Str) (io : WriteIo) (config : TuningConfig) (store : TuningStore) :
    Result Unit × TuningStore :=
  match writeConfig path io config store with
  | (.error e, store) => (.error e, store)
  | (.ok (), store) => (.ok (), replaceConfig config store)

/-- The first app of a package, changed by `f`. -/
def updateApp (pkg : Str) (f : AppTuneRule → AppTuneRule) : List AppTuneRule → List AppTuneRule
  | [] => []
  | app :: apps => if app.pkg = pkg then f app :: apps else app :: updateApp pkg f apps

/-- `clone_app_config`: the profile with the clone in it, where the source has what is asked for and the target
    lacks it. -/
def cloneAppConfig (config : TuningConfig) (source target : Str) (copyMemory copyThreads : Bool) :
    Result TuningConfig :=
  if source = target then .error "源包名与目标包名不能相同".toList
  else
    match config.apps.find? (·.pkg = source) with
    | none => .error "来源应用没有调优规则".toList
    | some sourceApp =>
      if copyMemory && sourceApp.memoryGroup.isNone then .error "来源应用没有内存组关联".toList
      else if copyThreads && sourceApp.threads.isEmpty then .error "来源应用没有线程调优规则".toList
      else
        let memoryGroup := if copyMemory then sourceApp.memoryGroup else none
        let threads := if copyThreads then sourceApp.threads else []
        match config.apps.find? (·.pkg = target) with
        | some targetApp =>
          if copyMemory && targetApp.memoryGroup.isSome then .error "目标应用已有内存组关联".toList
          else if copyThreads && !targetApp.threads.isEmpty then .error "目标应用已有线程调优规则".toList
          else
            .ok { config with
              apps := updateApp target (fun app =>
                { app with
                  memoryGroup := if copyMemory then memoryGroup else app.memoryGroup
                  threads := if copyThreads then threads else app.threads }) config.apps }
        | none => .ok { config with apps := config.apps ++ [{ pkg := target, memoryGroup, threads }] }

/-- `clone_app`. -/
def cloneApp (path : Str) (io : WriteIo) (source target : Str) (copyMemory copyThreads : Bool)
    (store : TuningStore) : Result Unit × TuningStore :=
  match cloneAppConfig store.config source target copyMemory copyThreads with
  | .error e => (.error e, store)
  | .ok next =>
    match writeConfig path io next store with
    | (.error e, store) => (.error e, store)
    | (.ok (), store) => (.ok (), replaceConfig next store)

/-! ## Runs of the two operations -/

/-- An operation with the outcomes of its file steps. -/
inductive TuningOp where
  | replaceAndSave (config : TuningConfig) (io : WriteIo)
  | cloneApp (source target : Str) (copyMemory copyThreads : Bool) (io : WriteIo)

/-- The operations the web handlers perform: a configuration that `config_from_value` returned, or a clone
    that `rule_clone_api` lets through with a tuning category selected. -/
inductive TuningOp.Admitted : TuningOp → Prop
  | replaceAndSave {value : Value} {config : TuningConfig} (io : WriteIo)
      (h : configFromValue value = .ok config) : Admitted (.replaceAndSave config io)
  | cloneApp {body : Option Value} {args : CloneArgs} (io : WriteIo) (h : ruleCloneApiArgs body = .ok args)
      (hcat : args.tuningMemory || args.tuningThreads) :
      Admitted (.cloneApp args.source args.target args.tuningMemory args.tuningThreads io)

/-- An operation on the store. -/
def runOp (path : Str) (store : TuningStore) : TuningOp → Result Unit × TuningStore
  | .replaceAndSave config io => replaceAndSave path io config store
  | .cloneApp source target copyMemory copyThreads io =>
    cloneApp path io source target copyMemory copyThreads store

/-- One operation, and the result it returns. -/
def tuningStep (path : Str) (store : TuningStore) (op : TuningOp) : TuningStore × List (Result Unit) :=
  ((runOp path store op).2, [(runOp path store op).1])

end AppOptR
