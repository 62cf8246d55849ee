import AppOptR.Cpuset.CoreTypes
import AppOptR.Tuning.Store

/-!
# `Tuning.Apply` — what the tuning profile does to a task

`apply_task` and `reapply_thread` of `tuning.rs` with everything below them: a memory group is found under a
cgroup root, its controls are written and the process is moved into it; the rules that match a thread are
merged and handed to the scheduler. What the kernel and the file system answer is a `TuneEnv`. A function
returns what it does as a list of calls (`TuneCall`), warnings included; no call looks at what the warnings
have done, so `runCalls` carries them out afterwards.

A path that has been canonicalised is the list of its components; one that has not is text.
-/

namespace AppOptR

open Text

/-! ## The system -/

/-- `SchedAttr`. -/
structure SchedAttr where
  size : UInt32 := 0
  schedPolicy : UInt32 := 0
  schedFlags : UInt64 := 0
  schedNice : Int32 := 0
  schedPriority : UInt32 := 0
  schedRuntime : UInt64 := 0
  schedDeadline : UInt64 := 0
  schedPeriod : UInt64 := 0
  schedUtilMin : UInt32 := 0
  schedUtilMax : UInt32 := 0
  deriving DecidableEq

/-- A canonical path. -/
abbrev CgroupDir := List Str

/-- The answers of the system. A call that may fail returns its error text, or nothing. -/
structure TuneEnv where
  /-- `/proc/{pid}/status`. -/
  status : Int → Option Str
  taskTids : Int → Option (List Int)
  rootIsDir : Str → Bool
  canonicalize : Str → Option CgroupDir
  isDir : CgroupDir → Bool
  fileExists : CgroupDir → Str → Bool
  openControl : CgroupDir → Str → Option Str
  writeControl : CgroupDir → Str → Str → Option Str
  /-- The system calls of the scheduler have a number on this architecture. -/
  archKnown : Bool
  getAttr : Int → Except Str SchedAttr
  setAttr : Int → SchedAttr → Option Str
  setPriority : Int → Int → Option Str
  fnmatch : Str → Str → Bool

/-- What a function does, in order. -/
inductive TuneCall where
  | warn (key message : Str)
  | control (dir : CgroupDir) (file value : Str)
  | setAttr (tid : Int) (attr : SchedAttr)
  | setPriority (tid nice : Int)
  deriving DecidableEq

/-- `if let Err(error) = call { warn_once(..) }`. -/
def orWarn (call : List TuneCall × Option Str) (key message : Str → Str) : List TuneCall :=
  match call.2 with
  | none => call.1
  | some error => call.1 ++ [.warn (key error) (message error)]

/-- `to_string` of an integer. -/
def intText (n : Int) : Str := if n < 0 then '-' :: Nat.toDigits 10 n.natAbs else Nat.toDigits 10 n.natAbs

/-- `Path::display`, of a canonical path. -/
def showPath (path : List Str) : Str := '/' :: ['/'].intercalate path

/-! ## Warnings -/

/-- `warn_once`: the message is kept the first time its key comes, the last twenty of them. -/
def warnOnce (key message : Str) (store : TuningStore) : TuningStore :=
  if store.warningKeys.contains key then store
  else
    let warnings := store.warnings ++ [message]
    { store with
      warningKeys := store.warningKeys ++ [key]
      warnings := if 20 < warnings.length then warnings.tail else warnings }

/-- What one call does to the store: only a warning does anything. -/
def runCall (store : TuningStore) : TuneCall → TuningStore
  | .warn key message => warnOnce key message store
  | _ => store

/-- What some calls do to the store. -/
def runCalls (calls : List TuneCall) (store : TuningStore) : TuningStore := calls.foldl runCall store

section
variable (env : TuneEnv)

/-! ## Memory groups -/

/-- `cgroup_roots`. -/
def cgroupRoots : List Str :=
  ["/dev/memcg".toList, "/sys/fs/cgroup/memory".toList, "/sys/fs/cgroup".toList].filter env.rootIsDir

/-- `str::strip_prefix` of a line, and what follows. -/
def processUid (pid : Int) : Option Nat :=
  (env.status pid).bind fun text =>
    ((lines text).findSome? (stripPrefix "Uid:".toList)).bind fun line =>
      (splitWhitespace line).head?.bind (parseUnsigned 32)

/-- `expand_group_path`; the user of the process is looked up only where the path asks for it. -/
def expandGroupPath (path : Str) (pid : Int) (pkg : Str) : List TuneCall × Option Str :=
  let expand (uid : Str) :=
    replace "\x7bpkg\x7d".toList pkg
      (replace "\x7bpid\x7d".toList (intText pid) (replace "\x7buid\x7d".toList uid path))
  if containsStr "\x7buid\x7d".toList path then
    match processUid env pid with
    | some uid => ([], some (expand (Nat.toDigits 10 uid)))
    | none =>
      ([.warn ("uid-".toList ++ intText pid) (msg "无法读取 pid " (intText pid) " 的 UID，跳过内存组迁移")], none)
  else ([], some (expand []))

/-- `canonical_cgroup_dir`. -/
def canonicalCgroupDir (path : Str) (roots : List Str) : Option CgroupDir :=
  (env.canonicalize path).bind fun candidate =>
    if !env.isDir candidate then none
    else (roots.filterMap env.canonicalize).findSome? fun root =>
      if root.isPrefixOf candidate then some candidate else none

/-- The places `resolve_group_path` looks at. -/
def groupCandidates (path : Str) (roots : List Str) : List Str :=
  if path.head? = some '/' then [path] else roots.map fun root => root ++ '/' :: path

/-- `resolve_group_path`: an absolute path as it stands, any other below the first root that has it. -/
def resolveGroupPath (group : MemoryGroup) (pid : Int) (pkg : Str) : List TuneCall × Option CgroupDir :=
  match expandGroupPath env group.path pid pkg with
  | (calls, none) => (calls, none)
  | (calls, some path) =>
    if !cgroupTemplateOk path then
      (calls ++ [.warn ("group-template-".toList ++ group.name) (msg "内存组 " group.name " 展开后的路径无效")], none)
    else
      let roots := cgroupRoots env
      if roots.isEmpty then
        (calls ++ [.warn "no-memory-cgroup".toList
          "未发现可用的 memory cgroup 根目录，内存组调优已跳过".toList], none)
      else
        match (groupCandidates path roots).findSome? fun candidate => canonicalCgroupDir env candidate roots with
        | some dir => (calls, some dir)
        | none =>
          (calls ++ [.warn (msg "group-missing-" group.name "-" ++ path)
            (msg "内存组 " group.name " 不存在或不在允许的 cgroup 根目录内: " ++ path)], none)

/-- `write_control`: the call, and its error text. -/
def writeControl (dir : CgroupDir) (file value : Str) : List TuneCall × Option Str :=
  let path := showPath (dir ++ [file])
  ([.control dir file value],
    match env.openControl dir file with
    | some error => some (msg "打开 " path " 失败: " ++ error)
    | none => (env.writeControl dir file value).map fun error => msg "写入 " path " 失败: " ++ error)

/-- `write_first_available`. -/
def writeFirstAvailable (dir : CgroupDir) (group : Str) (names : List Str) (value : Str) : List TuneCall :=
  match names.find? (env.fileExists dir) with
  | none =>
    [.warn (msg "unsupported-" group "-" ++ ['|'].intercalate names)
      (msg "内存组 " group " 不支持 " ++ [' ', '/', ' '].intercalate names ++ "（可能是 cgroup 版本不匹配）".toList)]
  | some name =>
    orWarn (writeControl env dir name value) (fun error => msg "write-" group "-" ++ name ++ '-' :: error)
      fun error => msg "内存组 " group " 的 " ++ name ++ " 设置失败：".toList ++ error

/-- `move_process_to_group`: the process by `cgroup.procs`, or its threads one by one by `tasks`. -/
def moveProcessToGroup (pid : Int) (dir : CgroupDir) (group : Str) : List TuneCall :=
  if env.fileExists dir "cgroup.procs".toList then
    orWarn (writeControl env dir "cgroup.procs".toList (intText pid))
      (fun error => msg "move-procs-" group "-" ++ error)
      fun error => msg "迁移 pid " (intText pid) " 到内存组 " ++ group ++ " 失败：".toList ++ error
  else if !env.fileExists dir "tasks".toList then
    [.warn ("move-no-control-".toList ++ group) (msg "内存组 " group " 不提供 cgroup.procs 或 tasks，无法迁移应用")]
  else
    ((env.taskTids pid).getD []).flatMap fun tid =>
      orWarn (writeControl env dir "tasks".toList (intText tid)) (fun error => msg "move-task-" group "-" ++ error)
        fun error => msg "迁移 tid " (intText tid) " 到内存组 " ++ group ++ " 失败：".toList ++ error

/-- The controls of a group that are set: the files that may hold each, and its value, in the order of the
    writes. -/
def groupControls (group : MemoryGroup) : List (List Str × Str) :=
  (group.swappiness.toList.map fun n => (["memory.swappiness".toList], Nat.toDigits 10 n.toNat)) ++
  (group.memoryMin.toList.map fun v => (["memory.min".toList], v)) ++
  (group.memoryLow.toList.map fun v => (["memory.low".toList, "memory.soft_limit_in_bytes".toList], v)) ++
  (group.memoryHigh.toList.map fun v => (["memory.high".toList], v)) ++
  (group.memoryMax.toList.map fun v => (["memory.max".toList, "memory.limit_in_bytes".toList], v)) ++
  (group.oomGroup.toList.map fun b => (["memory.oom.group".toList], if b then ['1'] else ['0']))

/-- `apply_memory_group`: the controls first, then the process. -/
def applyMemoryGroup (pid : Int) (pkg : Str) (group : MemoryGroup) : List TuneCall :=
  match resolveGroupPath env group pid pkg with
  | (calls, none) => calls
  | (calls, some dir) =>
    calls ++ (groupControls group).flatMap (fun c => writeFirstAvailable env dir group.name c.1 c.2) ++
      moveProcessToGroup env pid dir group.name

/-! ## Thread rules -/

/-- `EffectiveThreadTune`. -/
structure EffectiveThreadTune where
  uclampMin : Option UInt16 := none
  uclampMax : Option UInt16 := none
  nice : Option Int8 := none
  deriving DecidableEq

/-- `pattern_matches`; a NUL in either text makes `CString::new` fail. -/
def patternMatches (pattern comm : Str) : Bool :=
  if comm.isEmpty || maxThreadLen ≤ byteLen comm then false
  else if '\x00' ∈ pattern ∨ '\x00' ∈ comm then false
  else env.fnmatch pattern comm

/-- One iteration of the loop of `effective_thread_tune`. -/
def mergeRule (comm : Str) (acc : EffectiveThreadTune × Bool) (rule : ThreadTuneRule) : EffectiveThreadTune × Bool :=
  if !patternMatches env rule.pattern comm then acc
  else
    ({ uclampMin := if rule.uclampMin.isSome then rule.uclampMin else acc.1.uclampMin
       uclampMax := if rule.uclampMax.isSome then rule.uclampMax else acc.1.uclampMax
       nice := if rule.nice.isSome then rule.nice else acc.1.nice }, true)

/-- `effective_thread_tune`: the matching rules merged, a later one over an earlier one. -/
def effectiveThreadTune (app : AppTuneRule) (comm : Str) : Option EffectiveThreadTune :=
  let (result, matched) := app.threads.foldl (mergeRule env comm) ({}, false)
  if matched then some result else none

def schedFlagUtilClampMin : UInt64 := 0x20
def schedFlagUtilClampMax : UInt64 := 0x40

/-- The attributes `set_uclamp` passes on, from those it has read. -/
def clampAttr (min max : Option UInt16) (attr : SchedAttr) : SchedAttr :=
  let attr := { attr with size := 56 }
  let attr := match min with
    | some min =>
      { attr with schedFlags := attr.schedFlags ||| schedFlagUtilClampMin, schedUtilMin := min.toUInt32 }
    | none => attr
  match max with
  | some max =>
    { attr with schedFlags := attr.schedFlags ||| schedFlagUtilClampMax, schedUtilMax := max.toUInt32 }
  | none => attr

/-- `set_uclamp`: the attributes are read, the clamps put in, and the whole written back. -/
def setUclamp (tid : Int) (min max : Option UInt16) : List TuneCall × Option Str :=
  if !env.archKnown then ([], some "当前 CPU 架构未定义 sched_setattr 系统调用号".toList)
  else
    match env.getAttr tid with
    | .error error => ([], some ("sched_getattr: ".toList ++ error))
    | .ok attr =>
      let attr := clampAttr min max attr
      ([.setAttr tid attr], (env.setAttr tid attr).map fun error => "sched_setattr: ".toList ++ error)

/-- The merged clamp values contradict each other. -/
def clampCrossed (tune : EffectiveThreadTune) : Bool :=
  tune.uclampMin.any fun min => tune.uclampMax.any fun max => max < min

/-- `apply_thread_tune`. -/
def applyThreadTune (tid : Int) (pkg comm : Str) (tune : EffectiveThreadTune) : List TuneCall :=
  let uclamp :=
    if clampCrossed tune then
      [.warn (msg "uclamp-order-" pkg "-" ++ comm)
        (msg "" pkg " / " ++ comm ++ " 的合并 UCLAMP min 大于 max，已跳过 UCLAMP".toList)]
    else if tune.uclampMin.isSome || tune.uclampMax.isSome then
      orWarn (setUclamp env tid tune.uclampMin tune.uclampMax) (fun error => msg "uclamp-" pkg "-" ++ error)
        fun error => msg "" pkg " / " ++ comm ++ " 设置 UCLAMP 失败：".toList ++ error
    else []
  let nice := match tune.nice with
    | none => []
    | some nice =>
      orWarn ([.setPriority tid nice.toInt], env.setPriority tid nice.toInt) (fun error => msg "nice-" pkg "-" ++ error)
        fun error =>
          msg "" pkg " / " ++ comm ++ " 设置 nice=".toList ++ intText nice.toInt ++ " 失败：".toList ++ error
  uclamp ++ nice

/-! ## Tasks -/

/-- The scheduler half that both entry points share. -/
def tuneThread (app : AppTuneRule) (tid : Int) (pkg comm : Str) : List TuneCall :=
  match effectiveThreadTune env app comm with
  | some tune => applyThreadTune env tid pkg comm tune
  | none => []

/-- What `apply_task` does; `applyTask` is what it returns. -/
def applyTaskCalls (config : TuningConfig) (tid pid : Int) (pkg comm : Str) : List TuneCall :=
  match config.apps.find? fun app => app.pkg = pkg with
  | none => []
  | some app =>
    let memory :=
      if tid = pid then
        match app.memoryGroup with
        | none => []
        | some groupName =>
          match config.memoryGroups.find? fun group => group.name = groupName with
          | some group => applyMemoryGroup env pid pkg group
          | none =>
            [.warn ("missing-group-".toList ++ groupName) (msg "应用 " pkg " 引用了不存在的内存组 " ++ groupName)]
      else []
    memory ++ tuneThread env app tid pkg comm

/-- `reapply_thread`. -/
def reapplyThread (config : TuningConfig) (tid : Int) (pkg comm : Str) : List TuneCall :=
  match config.apps.find? fun app => app.pkg = pkg with
  | none => []
  | some app => tuneThread env app tid pkg comm

end

end AppOptR
