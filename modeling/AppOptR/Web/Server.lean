import AppOptR.Web.RulesJson
import AppOptR.Web.Settings
import AppOptR.Web.Suggest

/-!
# `Web.Server` — the web side as one machine

`dispatch` of `web.rs` over everything that its handlers read and write (`Server`): the rules files, the tuning
configuration, the statics, the settings file and the loaded configuration. A handler that changes anything holds
`WEB_MUTATION_LOCK` from its first line to its last, so a request is one step; how a reload interleaves with the
loader thread is in `Config.Reload`.

`serde_json` is a parameter in both directions, and so is the page itself. What the system answers to the calls of
one request comes with it (`ServerIo`).

The files are the rules files; the tuning and the settings file have fields of their own. A write that fails leaves
a `<path>.tmp` behind, which is left out here: the next write of the same file replaces it, and no operation on
the rules ever shows it (`editRun_onText`). That no request chooses such a name as its `config_file` is assumed.
-/

namespace AppOptR

open Text Json

/-- `WebStats`, which the main loop leaves for the page. -/
structure WebStats where
  rules : Nat
  pkgs : Nat
  hitPkgs : Nat
  threads : Nat
  ebpf : Bool
  uptime : Nat

/-- What does not change while the daemon runs. -/
structure ServerEnv where
  parseJson : List UInt8 → Option Value
  printJson : Value → List UInt8
  indexHtml : List UInt8
  version : Str
  tuningFile : Str

/-- What the system answers while a request is served. -/
structure ServerIo where
  /-- The rules file is written. -/
  writeOk : Bool := true
  /-- The temporary file of the tuning configuration. -/
  tuning : WriteIo := {}
  /-- The settings file is written. -/
  settingsOk : Bool := true
  /-- `fs::metadata` finds the file, and a time in it. -/
  metadataOk : Bool := true
  /-- A rules file that is not there is created. -/
  createOk : Bool := true
  createCpusetDir : Nat → Str → Bool := fun _ _ => true
  stats : Option WebStats := none
  totalProcs : Nat := 0
  ebpfProbe : Bool := false
  capabilities : Value := .null
  dataDirs : Option (List (List UInt8)) := none
  procs : Option (List ProcDir) := none

/-- The files by name, as text where they hold any, and the variables of the daemon. -/
structure Server where
  files : Str → Option Str
  tuning : TuningStore
  daemon : Daemon
  settings : Option Value
  current : Option AppConfig
  parseFails : Nat
  updated : Bool

/-- The text of the rules file. -/
def Server.content (s : Server) : Option Str := s.files s.daemon.configFile

/-- The rules file with another text. -/
def Server.setContent (s : Server) (content : Option Str) : Server :=
  { s with files := Function.update s.files s.daemon.configFile content }

/-- `config_reload_now`. -/
def Server.reloadNow (io : ServerIo) (s : Server) : Server :=
  match s.current with
  | none => s
  | some cfg =>
    if !io.metadataOk then s
    else
      match s.content with
      | none => s
      | some content =>
        { s with
          current := some (configOf io.createCpusetDir cfg.topo (appPackageNames s.tuning.config)
            (threadRulePackages s.tuning.config) content)
          parseFails := AppOptR.parseFails (loadLines io.createCpusetDir cfg.topo (lines content))
          updated := true }

/-! ## Requests that edit the rules -/

/-- What is left of the server when a handler of the rules file is through with it. -/
def Server.edited (io : ServerIo) (s : Server) (o : Outcome) : Server × Reply :=
  let s := s.setContent o.content
  (if o.reload then s.reloadNow io else s, o.reply)

/-- `rule_api` on the server. -/
def Server.ruleApi (io : ServerIo) (body : Option Value) (s : Server) : Server × Reply :=
  s.edited io (AppOptR.ruleApi body (s.current.map (·.topo)) io.writeOk s.content)

/-- `rule_del_api` on the server; nothing when the fuel runs out. -/
def Server.ruleDelApi (fuel : Nat) (io : ServerIo) (body : Option Value) (s : Server) : Option (Server × Reply) :=
  (AppOptR.ruleDelApi fuel body io.writeOk s.content).map (s.edited io)

/-- `rule_rename_api` on the server; nothing when the fuel runs out. -/
def Server.ruleRenameApi (fuel : Nat) (io : ServerIo) (body : Option Value) (s : Server) :
    Option (Server × Reply) :=
  (AppOptR.ruleRenameApi fuel body io.writeOk s.content).map (s.edited io)

/-! ## Clones -/

/-- `rule_clone_check`. -/
def ruleCloneCheck (content : Option Str) (source target : Str) (copyPackage copyThreads : Bool) : RuleEdit :=
  match clonePrepare source target copyPackage copyThreads (lines (content.getD [])) with
  | .ok _ => .ok
  | .error e => e

/-- `clone_app_check`. -/
def cloneAppCheck (config : TuningConfig) (source target : Str) (copyMemory copyThreads : Bool) : Result Unit :=
  (cloneAppConfig config source target copyMemory copyThreads).map fun _ => ()

/-- The CPU side is asked for. -/
def CloneArgs.copyCpu (args : CloneArgs) : Bool := args.cpuPackage || args.cpuThreads

/-- The tuning side is asked for. -/
def CloneArgs.copyTuning (args : CloneArgs) : Bool := args.tuningMemory || args.tuningThreads

/-- The replies that `rule_clone_api` makes of a result of the CPU side. -/
def cloneReply (ioErr : String) : RuleEdit → Reply
  | .ok => okJson
  | .notFound => errJson 404 "来源应用没有所选 CPU 规则"
  | .conflict => errJson 409 "目标应用已有 CPU 规则，不能覆盖克隆"
  | .malformed => errJson 409 "配置文件存在未闭合块，请修复后重试"
  | .ioErr => errJson 500 ioErr

/-- The two checks, before either file is written; a reply where one of them refuses. -/
def Server.cloneCheck (args : CloneArgs) (s : Server) : Option Reply :=
  let cpu :=
    if args.copyCpu then ruleCloneCheck s.content args.source args.target args.cpuPackage args.cpuThreads else .ok
  match cpu with
  | .ok =>
    if args.copyTuning then
      match cloneAppCheck s.tuning.config args.source args.target args.tuningMemory args.tuningThreads with
      | .ok () => none
      | .error e => some ⟨if containsStr "目标应用".toList e then 409 else 404, some e⟩
    else none
  | e => some (cloneReply "读取 CPU 规则文件失败" e)

/-- The two writes. -/
def Server.cloneCommit (path : Str) (io : ServerIo) (args : CloneArgs) (s : Server) : Server × Reply :=
  let (result, content) :=
    if args.copyCpu then
      ruleClone io.writeOk s.content args.source args.target args.cpuPackage args.cpuThreads
    else (.ok, s.content)
  let s := s.setContent content
  match result with
  | .ok =>
    if args.copyTuning then
      match cloneApp path io.tuning args.source args.target args.tuningMemory args.tuningThreads s.tuning with
      | (.ok (), tuning) => (Server.reloadNow io { s with tuning }, okJson)
      | (.error e, tuning) => ({ s with tuning }, ⟨500, some ("写入调优规则失败: ".toList ++ e)⟩)
    else (s.reloadNow io, okJson)
  | e => (s, cloneReply "写入 CPU 规则文件失败" e)

/-- `rule_clone_api`. -/
def Server.ruleCloneApi (path : Str) (io : ServerIo) (body : Option Value) (s : Server) : Server × Reply :=
  match ruleCloneApiArgs body with
  | .error reply => (s, reply)
  | .ok args =>
    match s.cloneCheck args with
    | some reply => (s, reply)
    | none => s.cloneCommit path io args

/-! ## The tuning configuration and the settings -/

/-- `tuning_set_api` up to the save. -/
def tuningSetArgs (body : Option Value) : Except Reply TuningConfig :=
  match body with
  | none => .error (errJson 400 "请求体不是合法 JSON")
  | some value =>
    match configFromValue value with
    | .ok config => .ok config
    | .error e => .error ⟨400, some e⟩

/-- `tuning_set_api`: saved, then loaded. -/
def Server.tuningSetApi (path : Str) (io : ServerIo) (body : Option Value) (s : Server) : Server × Reply :=
  match tuningSetArgs body with
  | .error reply => (s, reply)
  | .ok config =>
    match replaceAndSave path io.tuning config s.tuning with
    | (.ok (), tuning) => (Server.reloadNow io { s with tuning }, okJson)
    | (.error e, tuning) => ({ s with tuning }, ⟨500, some e⟩)

/-- What `config_set_api` writes into a rules file that is not there. -/
def initialContent : Str := "# 规则编写与使用说明请参考 http://AppOpt.suto.top\n\n".toList

/-- `config_set_api`, with the two files that it writes. -/
def Server.configSetApi (io : ServerIo) (body : Option Value) (s : Server) : Server × Reply :=
  match AppOptR.configSetApi body s.daemon with
  | (reply, _, none) => (s, reply)
  | (reply, daemon, some saved) =>
    let files := match body.bind fun v => (v.index "config_file".toList).asStr with
      | some p => if io.metadataOk || !io.createOk then s.files else Function.update s.files p (some initialContent)
      | none => s.files
    ({ s with files, daemon, settings := if io.settingsOk then some saved else s.settings }, reply)

/-! ## What the page reads -/

def natValue (n : Nat) : Value := .number (.int n)

def textValue (s : Str) : Value := .string s

/-- `status_json`. -/
def statusJson (version : Str) (io : ServerIo) (s : Server) : Value :=
  let stats := io.stats.getD ⟨0, 0, 0, 0, false, 0⟩
  let topo := s.current.map (·.topo)
  .object
    [("version".toList, textValue version),
      ("mode".toList, textValue (if stats.ebpf then "ebpf".toList else "proc".toList)),
      ("uptime".toList, natValue stats.uptime),
      ("rules".toList, natValue stats.rules),
      ("pkgs".toList, natValue stats.pkgs),
      ("parse_fail".toList, natValue s.parseFails),
      ("hit_pkgs".toList, natValue stats.hitPkgs),
      ("threads".toList, natValue stats.threads),
      ("total_procs".toList, natValue io.totalProcs),
      ("interval".toList, natValue (max s.daemon.checkInterval 1)),
      ("e_core".toList, textValue ((topo.map fun t => t.eCore.toRangeString).getD [])),
      ("p_core".toList, textValue ((topo.map fun t => t.pCore.toRangeString).getD [])),
      ("hp_core".toList, textValue ((topo.map fun t => t.hpCore.toRangeString).getD [])),
      ("all_core".toList, textValue ((topo.map (·.presentStr)).getD [])),
      ("cores".toList, natValue ((topo.map (·.presentCpus.count)).getD 0)),
      ("cpuset_enabled".toList, .bool (topo.any (·.cpusetEnabled))),
      ("tuning_apps".toList, natValue s.tuning.config.apps.length),
      ("tuning_threads".toList, natValue (s.tuning.config.apps.map (·.threads.length)).sum)]

/-- `web_value` of `tuning.rs`: the configuration's own members, and three more. -/
def tuningJson (io : ServerIo) (s : Server) : Value :=
  .object (((configValue s.tuning.config).asObject.getD []) ++
    [("ok".toList, .bool true), ("capabilities".toList, io.capabilities),
      ("warnings".toList, .array (s.tuning.warnings.map textValue))])

/-- `config_json`. -/
def configJson (io : ServerIo) (s : Server) : Value :=
  .object
    [("mode".toList, natValue s.daemon.modeForce),
      ("mode_active".toList, textValue (if io.stats.any (·.ebpf) then "ebpf".toList else "proc".toList)),
      ("ebpf_available".toList, .bool io.ebpfProbe),
      ("interval".toList, natValue (max s.daemon.checkInterval 1)),
      ("cpuset_name".toList, textValue (lastComponent (baseCpuset s.daemon))),
      ("config_file".toList, textValue s.daemon.configFile),
      ("cpuset_enabled".toList, .bool (s.current.any (·.topo.cpusetEnabled)))]

/-! ## Dispatch -/

/-- The body of a reply. -/
def replyValue (r : Reply) : Value :=
  match r.err with
  | none => .object [("ok".toList, .bool true)]
  | some err => .object [("ok".toList, .bool false), ("err".toList, .string err)]

/-- The port in the `Host` of a request. -/
def webPort : Str := ":8889".toList

/-- `strip_suffix`, or the text as it is. -/
def withoutSuffix (suffix s : Str) : Str :=
  if suffix.isSuffixOf s then s.take (s.length - suffix.length) else s

/-- The request is for this host, from this page or from no page, and cannot be a form. -/
def originOk (req : Request) : Bool :=
  let host := withoutSuffix webPort req.host
  (host == "127.0.0.1".toList || host == "localhost".toList) &&
    (req.origin.isEmpty || req.origin == "null".toList ||
      (req.fetchSite == [] || req.fetchSite == "none".toList || req.fetchSite == "same-origin".toList)) &&
    (req.method != "POST".toList || "application/json".toList.isPrefixOf req.contentType)

/-- The handlers. -/
inductive Api where
  | index | status | rules | config | tuning
  | rule | ruleDel | ruleRename | ruleClone | configSet | tuningSet | suggest
  deriving DecidableEq

/-- The table of `dispatch`. -/
def apiOf (method path : Str) : Option Api :=
  if method = "GET".toList then
    if path = "/".toList ∨ path = "/index.html".toList then some .index
    else if path = "/api/status".toList then some .status
    else if path = "/api/rules".toList then some .rules
    else if path = "/api/config".toList then some .config
    else if path = "/api/tuning".toList then some .tuning
    else none
  else if method = "POST".toList then
    if path = "/api/rule".toList then some .rule
    else if path = "/api/rule/del".toList then some .ruleDel
    else if path = "/api/rule/rename".toList then some .ruleRename
    else if path = "/api/rule/clone".toList then some .ruleClone
    else if path = "/api/config".toList then some .configSet
    else if path = "/api/tuning".toList then some .tuningSet
    else if path = "/api/suggest".toList then some .suggest
    else none
  else none

section
variable (env : ServerEnv) (fuel : Nat) (io : ServerIo)

/-- The reply of `suggest_api`, with its list. -/
def suggestAnswer (body : Option Value) (s : Server) : Nat × Value :=
  match suggestApi ⟨io.dataDirs, io.procs, s.current, s.tuning.config⟩ body with
  | .ok list => (200, .object [("ok".toList, .bool true), ("list".toList, .array (list.map textValue))])
  | .error reply => (reply.code, replyValue reply)

/-- A request whose answer is a reply. -/
def answered (r : Server × Reply) : Server × Nat × List UInt8 := (r.1, r.2.code, env.printJson (replyValue r.2))

/-- One handler: the status and the body of the response. -/
def serve (api : Option Api) (bytes : List UInt8) (s : Server) : Option (Server × Nat × List UInt8) :=
  let body := env.parseJson bytes
  match api with
  | none => some (answered env (s, errJson 404 "not found"))
  | some .index => some (s, 200, env.indexHtml)
  | some .status => some (s, 200, env.printJson (statusJson env.version io s))
  | some .rules => some (s, 200, env.printJson (rulesJson s.current))
  | some .config => some (s, 200, env.printJson (configJson io s))
  | some .tuning => some (s, 200, env.printJson (tuningJson io s))
  | some .suggest => some (s, (suggestAnswer io body s).1, env.printJson (suggestAnswer io body s).2)
  | some .rule => some (answered env (s.ruleApi io body))
  | some .ruleDel => (s.ruleDelApi fuel io body).map (answered env)
  | some .ruleRename => (s.ruleRenameApi fuel io body).map (answered env)
  | some .ruleClone => some (answered env (s.ruleCloneApi env.tuningFile io body))
  | some .tuningSet => some (answered env (s.tuningSetApi env.tuningFile io body))
  | some .configSet => some (answered env (s.configSetApi io body))

/-- The body of the refusal that `dispatch` answers itself. -/
def forbidden : List UInt8 := utf8 "\x7b\"ok\":false,\"err\":\"forbidden\"\x7d".toList

/-- `dispatch`; nothing when the fuel of a loop in it runs out. -/
def dispatch (s : Server) (req : Request) : Option (Server × Response) :=
  if !originOk req then some (s, ⟨403, "application/json".toList, forbidden, true⟩)
  else
    let api := apiOf req.method req.path
    let ctype := if api = some .index then "text/html; charset=utf-8".toList else "application/json".toList
    (serve env fuel io api req.body s).map fun (s, status, body) => (s, ⟨status, ctype, body, !req.keepAlive⟩)

end

/-- A run of requests, each with what the system answers. -/
def serverRun (env : ServerEnv) (fuel : Nat) : Server → List (Request × ServerIo) → Option (Server × List Response)
  | s, [] => some (s, [])
  | s, (req, io) :: reqs =>
    (dispatch env fuel io s req).bind fun (s, response) =>
      (serverRun env fuel s reqs).map fun (s, responses) => (s, response :: responses)

end AppOptR
