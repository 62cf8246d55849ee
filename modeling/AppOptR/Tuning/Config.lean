import AppOptR.Lib.Json
import AppOptR.Config.Line

/-!
# `Tuning.Config` — the structured tuning profile and its JSON form

The records of `tuning.rs`, the reader `configFromValue` with every check and message, and the printer
`configValue`. A reader returns an error text where the source returns `Err`.
-/

namespace AppOptR

open Text Json

/-- `MemoryGroup`: a cgroup and its limits; a control that is not set is not written. -/
structure MemoryGroup where
  name : Str
  path : Str
  swappiness : Option UInt8
  memoryMin : Option Str
  memoryLow : Option Str
  memoryHigh : Option Str
  memoryMax : Option Str
  oomGroup : Option Bool
  deriving DecidableEq

/-- `ThreadTuneRule`: a pattern for thread names, and what the scheduler is told of the threads it matches. -/
structure ThreadTuneRule where
  pattern : Str
  uclampMin : Option UInt16
  uclampMax : Option UInt16
  nice : Option Int8
  deriving DecidableEq

/-- `AppTuneRule`: what is tuned of one package. -/
structure AppTuneRule where
  pkg : Str
  memoryGroup : Option Str
  threads : List ThreadTuneRule
  deriving DecidableEq

/-- `TuningConfig`, the whole profile. -/
structure TuningConfig where
  memoryGroups : List MemoryGroup := []
  apps : List AppTuneRule := []
  deriving DecidableEq

/-- What the source's fallible readers return: an error text or a value. -/
abbrev Result (α : Type) := Except Str α

/-- A message around a name, as `format!` builds it. -/
def msg (before : String) (name : Str) (after : String) : Str := before.toList ++ name ++ after.toList

/-! ## Names and templates -/

/-- `plain_token_ok`: a name that stays on one line and can be taken neither for a comment nor for nothing. -/
def plainTokenOk (value : Str) (maxLen : Nat) : Bool :=
  let value := trim value
  !value.isEmpty && byteLen value < maxLen && !value.any isControl && !value.contains '#' &&
    !containsStr "//".toList value

/-- `package_name_ok`: no brace and no path. -/
def packageNameOk (value : Str) : Bool :=
  plainTokenOk value maxPkgLen && !value.any (fun ch => ch = '{' || ch = '}' || ch = '\\') &&
    !value.contains '/'

/-- `group_name_ok`: the name of a memory group. -/
def groupNameOk (value : Str) : Bool :=
  plainTokenOk value 64 && value.all fun b => b.isAlphanum || b = '.' || b = '_' || b = '-'

/-- `thread_pattern_ok`: a pattern no longer than a thread name can be. -/
def threadPatternOk (value : Str) : Bool :=
  byteLen value ≤ 15 && plainTokenOk value maxThreadLen && !value.contains '\x00'

/-- `str::replace`: from the left, without overlaps; `skip` counts what is left of the last match. -/
def replaceFrom (pat rep : Str) : Nat → Str → Str
  | _, [] => []
  | skip + 1, _ :: s => replaceFrom pat rep skip s
  | 0, c :: s =>
    if pat.isPrefixOf (c :: s) then rep ++ replaceFrom pat rep (pat.length - 1) s
    else c :: replaceFrom pat rep 0 s

/-- `str::replace`. -/
def replace (pat rep s : Str) : Str := replaceFrom pat rep 0 s

/-- `cgroup_template_ok`: a relative path, or one below a cgroup root, without dots for components; the package,
    the process and its user may stand in it in braces. -/
def cgroupTemplateOk (value : Str) : Bool :=
  let value := trim value
  if value.isEmpty || 256 ≤ byteLen value || value.any isControl || value.contains '\\' then false
  else
    let expandedMarkers :=
      replace "\x7bpkg\x7d".toList "x".toList
        (replace "\x7bpid\x7d".toList "x".toList (replace "\x7buid\x7d".toList "x".toList value))
    let absolute := value.head? == some '/'
    if expandedMarkers.contains '{' || expandedMarkers.contains '}' then false
    else if absolute && !("/dev/memcg/".toList.isPrefixOf value || "/sys/fs/cgroup/".toList.isPrefixOf value)
    then false
    else if !absolute && value.head? == some '/' then false
    else ((value.splitOn '/').filter fun part => !part.isEmpty).all fun part => part != ['.'] && part != ['.', '.']

/-! ## Optional fields -/

/-- The pattern of the three `optional_*` readers: an absent or null field is `None`, any other one goes
    to `read`. -/
def optionalField {α : Type} (value : Value) (field : Str) (read : Value → Result (Option α)) :
    Result (Option α) :=
  match value.get field with
  | none | some .null => .ok none
  | some v => read v

/-- `optional_string`: the text of a member, trimmed and below `maxLen` bytes. -/
def optionalString (value : Value) (field : Str) (maxLen : Nat) : Result (Option Str) :=
  optionalField value field fun v =>
    match v.asStr with
    | none => .error (msg "" field " 必须是字符串")
    | some s =>
      let s := trim s
      if s.isEmpty then .ok none
      else if maxLen ≤ byteLen s || s.any isControl then .error (msg "" field " 格式无效")
      else .ok (some s)

/-- `optional_u64`: a number up to `max`. -/
def optionalU64 (value : Value) (field : Str) (max : Nat) : Result (Option Nat) :=
  optionalField value field fun v =>
    match v.asU64 with
    | none => .error (msg "" field " 必须是整数")
    | some n => if max < n then .error (msg "" field " 超出范围") else .ok (some n)

/-- `optional_i64`: a number from `min` to `max`. -/
def optionalI64 (value : Value) (field : Str) (min max : Int) : Result (Option Int) :=
  optionalField value field fun v =>
    match v.asI64 with
    | none => .error (msg "" field " 必须是整数")
    | some n => if min ≤ n ∧ n ≤ max then .ok (some n) else .error (msg "" field " 超出范围")

/-! ## Byte values -/

/-- The units of `memory_limit`, in the order they are tried. -/
def memorySuffixes : List (Str × Nat) :=
  [("tib".toList, 2 ^ 40), ("tb".toList, 2 ^ 40), ("t".toList, 2 ^ 40),
    ("gib".toList, 2 ^ 30), ("gb".toList, 2 ^ 30), ("g".toList, 2 ^ 30),
    ("mib".toList, 2 ^ 20), ("mb".toList, 2 ^ 20), ("m".toList, 2 ^ 20),
    ("kib".toList, 2 ^ 10), ("kb".toList, 2 ^ 10), ("k".toList, 2 ^ 10)]

/-- `str::strip_suffix` by a string. -/
def stripSuffixStr (suffix s : Str) : Option Str :=
  if suffix.isSuffixOf s then some (s.take (s.length - suffix.length)) else none

/-- `memory_limit`: a number of bytes with or without a unit, or `max` where that is allowed, as decimal text. -/
def memoryLimit (value : Value) (field : Str) (allowMax : Bool) : Result (Option Str) :=
  match optionalString value field 64 with
  | .error e => .error e
  | .ok none => .ok none
  | .ok (some raw) =>
    let raw := raw.map Char.toLower
    if raw = "max".toList then
      if allowMax then .ok (some "max".toList) else .error (msg "" field " 不支持 max")
    else
      let (digits, multiplier) :=
        (memorySuffixes.findSome? fun (suffix, m) => (stripSuffixStr suffix raw).map (·, m)).getD (raw, 1)
      if digits.isEmpty || !allDigits digits then .error (msg "" field " 应为字节数或 512M / 1G 形式")
      else
        match (parseUnsigned 64 digits).bind fun n =>
          if n * multiplier < 2 ^ 64 then some (n * multiplier) else none with
        | none => .error (msg "" field " 数值过大")
        | some bytes => .ok (some (Nat.toDigits 10 bytes))

/-! ## Reading the document -/

/-- `object.get(field).and_then(Value::as_str).map(str::trim).filter(ok).ok_or_else(..)`. -/
def requiredName (members : List (Str × Value)) (field : Str) (ok : Str → Bool) (err : Str) : Result Str :=
  match (((Value.lookup field members).bind Value.asStr).map trim).filter ok with
  | some s => .ok s
  | none => .error err

/-- `memory_group_from_value`: the first member that is not in order gives the error. -/
def memoryGroupFromValue (value : Value) : Result MemoryGroup :=
  match value.asObject with
  | none => .error "内存组必须是对象".toList
  | some object => do
    let name ← requiredName object "name".toList groupNameOk "内存组 name 无效".toList
    let path ← requiredName object "path".toList cgroupTemplateOk (msg "内存组 " name " 的 path 无效")
    let swappiness ← optionalU64 value "swappiness".toList 200
    let memoryMin ← memoryLimit value "memory_min".toList false
    let memoryLow ← memoryLimit value "memory_low".toList false
    let memoryHigh ← memoryLimit value "memory_high".toList false
    let memoryMax ← memoryLimit value "memory_max".toList true
    let oomGroup ← (match Value.lookup "oom_group".toList object with
      | none | some .null => .ok none
      | some (.bool b) => .ok (some b)
      | some _ => .error (msg "内存组 " name " 的 oom_group 必须是布尔值") : Result (Option Bool))
    return { name, path, swappiness := swappiness.map UInt8.ofNat, memoryMin, memoryLow, memoryHigh,
             memoryMax, oomGroup }

/-- `thread_rule_from_value`: a rule that sets nothing, or sets bounds that cross, is refused. -/
def threadRuleFromValue (value : Value) : Result ThreadTuneRule :=
  match value.asObject with
  | none => .error "线程规则必须是对象".toList
  | some object => do
    let pattern ← requiredName object "pattern".toList threadPatternOk
      "线程 pattern 无效（task comm 最长通常为 15 字节）".toList
    let uclampMin ← optionalU64 value "uclamp_min".toList 1024
    let uclampMax ← optionalU64 value "uclamp_max".toList 1024
    let nice ← optionalI64 value "nice".toList (-20) 19
    let uclampMin := uclampMin.map UInt16.ofNat
    let uclampMax := uclampMax.map UInt16.ofNat
    if uclampMin.isNone && uclampMax.isNone && nice.isNone then
      .error (msg "线程 " pattern " 没有设置任何调优参数")
    else if uclampMin.any fun min => uclampMax.any fun max => max < min then
      .error (msg "线程 " pattern " 的 UCLAMP min 不能大于 max")
    else return { pattern, uclampMin, uclampMax, nice := nice.map Int8.ofInt }

/-- A field that is an array of items read one by one, empty when absent or null. -/
def arrayField {α : Type} (members : List (Str × Value)) (field : Str) (read : Value → Result α) (err : Str) :
    Result (List α) :=
  match Value.lookup field members with
  | none | some .null => .ok []
  | some (.array items) => items.mapM read
  | some _ => .error err

/-- `app_from_value`: an entry that tunes nothing is refused. -/
def appFromValue (value : Value) : Result AppTuneRule :=
  match value.asObject with
  | none => .error "应用调优必须是对象".toList
  | some object => do
    let pkg ← requiredName object "pkg".toList packageNameOk "应用 pkg 无效".toList
    let memoryGroup ← (match Value.lookup "memory_group".toList object with
      | none | some .null => .ok none
      | some (.string s) =>
        if (trim s).isEmpty then .ok none
        else if groupNameOk (trim s) then .ok (some (trim s))
        else .error (msg "应用 " pkg " 的 memory_group 无效")
      | some _ => .error (msg "应用 " pkg " 的 memory_group 无效") : Result (Option Str))
    let threads ← arrayField object "threads".toList threadRuleFromValue
      (msg "应用 " pkg " 的 threads 必须是数组")
    if memoryGroup.isNone && threads.isEmpty then
      .error (msg "应用 " pkg " 至少要关联内存组或添加一条线程规则")
    else return { pkg, memoryGroup, threads }

/-- The loop over the memory groups that refuses a second group of a name. -/
def checkGroups (seen : List Str) : List MemoryGroup → Result Unit
  | [] => .ok ()
  | g :: gs =>
    if g.name ∈ seen then .error (msg "内存组 " g.name " 重复") else checkGroups (g.name :: seen) gs

/-- The loop over the apps that refuses a second entry of a package and a reference to no group. -/
def checkApps (groupNames : List Str) (seen : List Str) : List AppTuneRule → Result Unit
  | [] => .ok ()
  | app :: apps =>
    if app.pkg ∈ seen then .error (msg "应用 " app.pkg " 重复")
    else
      match app.memoryGroup with
      | some group =>
        if group ∈ groupNames then checkApps groupNames (app.pkg :: seen) apps
        else .error (msg "应用 " app.pkg " 引用了不存在的内存组 " ++ group)
      | none => checkApps groupNames (app.pkg :: seen) apps

/-- `config_from_value`: the profile in a document, if all of it is in order. -/
def configFromValue (value : Value) : Result TuningConfig :=
  match value.asObject with
  | none => .error "调优配置必须是 JSON 对象".toList
  | some object => do
    let memoryGroups ← arrayField object "memory_groups".toList memoryGroupFromValue
      "memory_groups 必须是数组".toList
    checkGroups [] memoryGroups
    let apps ← arrayField object "apps".toList appFromValue "apps 必须是数组".toList
    checkApps (memoryGroups.map (·.name)) [] apps
    return { memoryGroups, apps }

/-! ## Printing the document -/

/-- `opt_value`. -/
def optValue (value : Option Str) : Value := value.elim .null .string

/-- `json!` of an optional integer. -/
def optInt (value : Option Int) : Value := value.elim .null fun n => .number (.int n)

/-- `memory_group_value`. -/
def memoryGroupValue (group : MemoryGroup) : Value :=
  .object
    [("name".toList, .string group.name),
      ("path".toList, .string group.path),
      ("swappiness".toList, optInt (group.swappiness.map fun n => (n.toNat : Int))),
      ("memory_min".toList, optValue group.memoryMin),
      ("memory_low".toList, optValue group.memoryLow),
      ("memory_high".toList, optValue group.memoryHigh),
      ("memory_max".toList, optValue group.memoryMax),
      ("oom_group".toList, group.oomGroup.elim .null .bool)]

/-- `thread_rule_value`. -/
def threadRuleValue (rule : ThreadTuneRule) : Value :=
  .object
    [("pattern".toList, .string rule.pattern),
      ("uclamp_min".toList, optInt (rule.uclampMin.map fun n => (n.toNat : Int))),
      ("uclamp_max".toList, optInt (rule.uclampMax.map fun n => (n.toNat : Int))),
      ("nice".toList, optInt (rule.nice.map Int8.toInt))]

/-- `app_value`. -/
def appValue (app : AppTuneRule) : Value :=
  .object
    [("pkg".toList, .string app.pkg),
      ("memory_group".toList, optValue app.memoryGroup),
      ("threads".toList, .array (app.threads.map threadRuleValue))]

/-- `config_value`: the document that a profile is written as. -/
def configValue (config : TuningConfig) : Value :=
  .object
    [("version".toList, .number (.int 1)),
      ("memory_groups".toList, .array (config.memoryGroups.map memoryGroupValue)),
      ("apps".toList, .array (config.apps.map appValue))]

/-! ## What the daemon asks of the configuration in memory -/

/-- `app_package_names`: the packages that have an entry. -/
def appPackageNames (config : TuningConfig) : Finset Str := (config.apps.map (·.pkg)).toFinset

/-- `thread_rule_packages`: those with rules for threads. -/
def threadRulePackages (config : TuningConfig) : Finset Str :=
  ((config.apps.filter fun app => !app.threads.isEmpty).map (·.pkg)).toFinset

/-- What `apply_task` returns: whether the package has a profile. -/
def applyTask (config : TuningConfig) (pkg : Str) : Bool := config.apps.any fun app => app.pkg = pkg

/-- A package is tuned if it has an entry. -/
theorem applyTask_iff {config : TuningConfig} {pkg : Str} :
    applyTask config pkg = true ↔ pkg ∈ appPackageNames config := by
  simp [applyTask, appPackageNames]

end AppOptR
