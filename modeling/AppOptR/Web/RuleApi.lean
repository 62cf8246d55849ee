import AppOptR.RuleEdit.Ops
import AppOptR.Tuning.Config

/-!
# `Web.RuleApi` — the requests that edit the rules file

The handlers `rule_api`, `rule_del_api` and `rule_rename_api` of `web.rs`: what they take from the request
(`…Args`, every check with its reply), and the edit and the reply that follow. A request body is the JSON
value it parses to, or nothing; the file is the text it holds, or nothing when it cannot be read. A handler
returns its reply, the new content of the file, and whether it forces a reload.
-/

namespace AppOptR

open Text Json

/-- The status code and, unless the request went through, the message of `err_json`. -/
structure Reply where
  code : Nat
  err : Option Str
  deriving DecidableEq

/-- `err_json`. -/
def errJson (code : Nat) (msg : String) : Reply := ⟨code, some msg.toList⟩

/-- The reply to a success. -/
def okJson : Reply := ⟨200, none⟩

/-- What a handler leaves behind. -/
structure Outcome where
  reply : Reply
  content : Option Str
  reload : Bool
  deriving DecidableEq

/-! ## Checks -/

/-- `token_ok`, which is `plain_token_ok` written a second time. -/
def tokenOk (s : Str) (max : Nat) : Bool := plainTokenOk s max

/-- `pkg_shape_ok`: the name cannot be taken for a rule on one line. -/
def pkgShapeOk (pkg : Str) : Bool := !(pkg.contains '{' && pkg.getLast? == some '}')

/-- `rule_api`, up to the call of `rule_upsert`: the package, thread and CPU spec it passes on. -/
def ruleApiArgs (body : Option Value) (cfg : Option CpuTopology) : Except Reply (Str × Str × Str) :=
  match body with
  | none => .error (errJson 400 "请求体不是合法 JSON")
  | some v =>
    match (v.index "pkg".toList).asStr.map trim, (v.index "cpus".toList).asStr.map trim with
    | some pkg, some cpus =>
      let thread := ((v.index "thread".toList).asStr.map trim).getD []
      match cfg with
      | none => .error (errJson 500 "配置未就绪")
      | some topo =>
        if !tokenOk pkg maxPkgLen || (!thread.isEmpty && !tokenOk thread maxThreadLen) then
          .error (errJson 400 "名称含有非法字符")
        else if thread.isEmpty && !pkgShapeOk pkg then
          .error (errJson 400 "包名含 \x7b 且以 \x7d 结尾时不支持包级规则，可改用线程规则")
        else if cpus.isEmpty || 64 ≤ byteLen cpus || !specLike cpus ||
            (parseCpuSpec cpus topo).count == 0 then
          .error (errJson 400 "无效的 CPU 规格")
        else .ok (pkg, thread, cpus)
    | _, _ => .error (errJson 400 "缺少 pkg 或 cpus 字段")

/-- `rule_api`. -/
def ruleApi (body : Option Value) (cfg : Option CpuTopology) (writeOk : Bool) (content : Option Str) :
    Outcome :=
  match ruleApiArgs body cfg with
  | .error reply => ⟨reply, content, false⟩
  | .ok (pkg, thread, cpus) =>
    match ruleUpsert writeOk content pkg thread cpus with
    | (.ok, content) => ⟨okJson, content, true⟩
    | (.malformed, content) => ⟨errJson 409 "配置文件存在未闭合块，请修复后重试", content, false⟩
    | (_, content) => ⟨errJson 500 "配置文件写入失败", content, false⟩

/-- The replies `rule_del_api` and `rule_rename_api` make of a result that is not `Ok`. -/
def editReply (notFound conflict : String) : RuleEdit → Reply
  | .ok => okJson
  | .notFound => errJson 404 notFound
  | .conflict => errJson 409 conflict
  | .malformed => errJson 409 "配置文件存在未闭合块，请修复后重试"
  | .ioErr => errJson 500 "配置文件写入失败"

/-- `rule_del_api` up to the edit: package, thread, and whether the whole package goes. -/
def ruleDelApiArgs (body : Option Value) : Except Reply (Str × Str × Bool) :=
  match body with
  | none => .error (errJson 400 "请求体不是合法 JSON")
  | some v =>
    match (v.index "pkg".toList).asStr.map trim with
    | none => .error (errJson 400 "缺少 pkg 字段")
    | some pkg =>
      .ok (pkg, ((v.index "thread".toList).asStr.map trim).getD [],
        ((v.index "all".toList).asBool).getD false)

/-- `rule_del_api`; nothing when the fuel of `rule_delete_pkg` runs out. -/
def ruleDelApi (fuel : Nat) (body : Option Value) (writeOk : Bool) (content : Option Str) :
    Option Outcome :=
  match ruleDelApiArgs body with
  | .error reply => some ⟨reply, content, false⟩
  | .ok (pkg, thread, all) =>
    let edited :=
      if all then ruleDeletePkg fuel writeOk content pkg else some (ruleDelete writeOk content pkg thread)
    edited.map fun (result, content) =>
      ⟨editReply "规则不存在" "状态冲突" result, content, result = .ok⟩

/-- `rule_rename_api` up to the edit; the inner `none` is the early success when nothing changes. -/
def ruleRenameApiArgs (body : Option Value) : Except Reply (Option (Str × Str)) :=
  match body with
  | none => .error (errJson 400 "请求体不是合法 JSON")
  | some v =>
    match (v.index "old".toList).asStr.map trim, (v.index "new".toList).asStr.map trim with
    | some old, some new =>
      if !tokenOk old maxPkgLen || !tokenOk new maxPkgLen then .error (errJson 400 "名称含有非法字符")
      else if !pkgShapeOk new then
        .error (errJson 400 "包名含 \x7b 且以 \x7d 结尾时不可作为重命名目标")
      else if old = new then .ok none
      else .ok (some (old, new))
    | _, _ => .error (errJson 400 "缺少 old 或 new 字段")

/-- `rule_rename_api`; nothing when the fuel of `rule_rename` runs out. -/
def ruleRenameApi (fuel : Nat) (body : Option Value) (writeOk : Bool) (content : Option Str) :
    Option Outcome :=
  match ruleRenameApiArgs body with
  | .error reply => some ⟨reply, content, false⟩
  | .ok none => some ⟨okJson, content, false⟩
  | .ok (some (old, new)) =>
    (ruleRename fuel writeOk content old new).map fun (result, content) =>
      ⟨editReply "原包名不存在" "目标包名已存在规则" result, content, result = .ok⟩

/-- What `rule_clone_api` takes from a request: the two packages and the four categories. -/
structure CloneArgs where
  source : Str
  target : Str
  cpuPackage : Bool
  cpuThreads : Bool
  tuningMemory : Bool
  tuningThreads : Bool
  deriving DecidableEq

/-- `rule_clone_api` up to its first look at a file. -/
def ruleCloneApiArgs (body : Option Value) : Except Reply CloneArgs :=
  match body with
  | none => .error (errJson 400 "请求体不是合法 JSON")
  | some v =>
    match (v.index "source".toList).asStr.map trim, (v.index "target".toList).asStr.map trim with
    | some source, some target =>
      let flag (field : String) := ((v.index field.toList).asBool).getD false
      let args : CloneArgs :=
        { source, target, cpuPackage := flag "cpu_package", cpuThreads := flag "cpu_threads",
          tuningMemory := flag "tuning_memory", tuningThreads := flag "tuning_threads" }
      if !args.cpuPackage && !args.cpuThreads && !args.tuningMemory && !args.tuningThreads then
        .error (errJson 400 "请至少选择一类要克隆的规则")
      else if source = target then .error (errJson 400 "源包名与目标包名不能相同")
      else if !tokenOk source maxPkgLen || !packageNameOk target then
        .error (errJson 400 "包名含有非法字符")
      else .ok args
    | _, _ => .error (errJson 400 "缺少 source 或 target 包名")

end AppOptR
