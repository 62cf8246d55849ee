import AppOptR.Lib.Mealy
import AppOptR.Web.RuleApi

/-!
# `Web.Settings` — the settings, from the command line to the file and back

Five settings have three ways in: the options of `main`, the settings file (`settings_load`) and the settings page
(`config_set_api`). They live in the statics of the daemon (`Daemon`), are written to the file by `settings_save`, and
are used by the loader thread and the main loop. Each way in checks them by rules of its own.

The environment: what reading the file gives, the variable `APPOPT_STATE_DIR`, and the outcome of the three things
`main` tries on its way (`StartEnv`). The file holds the JSON value that was written to it.
-/

namespace AppOptR

open Text Json

/-! ## The settings file -/

/-- `Settings`, as they are saved for the next start. -/
structure Settings where
  webEnable : Bool
  mode : Nat
  checkInterval : Nat
  cpusetName : Str
  configFile : Str
  deriving DecidableEq

/-- `state_file`; `stateDir` is `APPOPT_STATE_DIR`, where it is set to text. -/
def stateFile (stateDir : Option Str) (name : Str) : Str :=
  match stateDir.filter fun dir => !dir.isEmpty && !dir.any fun c => c.toNat < 0x20 with
  | none => "./".toList ++ name
  | some dir => if dir.getLast? = some '/' then dir ++ name else dir ++ '/' :: name

/-- `DEFAULT_CPUSET_NAME`. -/
def defaultCpusetName : Str := "AppOpt".toList

/-- The settings of a first start. -/
def Settings.default (stateDir : Option Str) : Settings where
  webEnable := false
  mode := 0
  checkInterval := 2
  cpusetName := defaultCpusetName
  configFile := stateFile stateDir "applist.conf".toList

/-- `valid_name`: one component of a path, without blanks. -/
def validName (s : Str) : Bool :=
  !s.isEmpty && byteLen s < 64 && !s.contains '/' && !s.any fun c => c.toNat ≤ 0x20

/-- `valid_path`. -/
def validPath (s : Str) : Bool := !s.isEmpty && byteLen s < 256 && !s.any isControl

/-- `from_json`, with the default settings. -/
def Settings.fromJson (d : Settings) (v : Value) : Settings where
  webEnable := (v.index "web_enable".toList).asBool.getD d.webEnable
  mode := min ((v.index "mode".toList).asU64.getD d.mode) 2
  -- `clamp(1, 3600)`
  checkInterval := max 1 (min ((v.index "check_interval".toList).asU64.getD d.checkInterval) 3600)
  cpusetName := ((v.index "cpuset_name".toList).asStr.filter validName).getD d.cpusetName
  configFile := ((v.index "config_file".toList).asStr.filter validPath).getD d.configFile

/-- The document that the settings are saved as. -/
def Settings.toValue (s : Settings) : Value :=
  .object
    [("web_enable".toList, .bool s.webEnable),
      ("mode".toList, .number (.int s.mode)),
      ("check_interval".toList, .number (.int s.checkInterval)),
      ("cpuset_name".toList, .string s.cpusetName),
      ("config_file".toList, .string s.configFile)]

/-- What reading the settings file gives. -/
inductive SettingsRead where
  | value (v : Value)
  | corrupt
  | notFound
  | failed

/-- `settings_load`: the settings, and the value it writes when there is no file. -/
def settingsLoad (stateDir : Option Str) : SettingsRead → Settings × Option Value
  | .value v => ((Settings.default stateDir).fromJson v, none)
  | .notFound => (Settings.default stateDir, some (Settings.default stateDir).toValue)
  | .corrupt | .failed => (Settings.default stateDir, none)

/-! ## The statics -/

/-- `WEB_ENABLED`, `MODE_FORCE`, `CHECK_INTERVAL`, `BASE_CPUSET_PATH`, `CONFIG_FILE`, `EBPF_GAVE_UP` and
    `FORCE_RELOAD`. -/
structure Daemon where
  webEnabled : Bool
  modeForce : Nat
  checkInterval : Nat
  baseCpusetPath : Option Str
  configFile : Str
  ebpfGaveUp : Bool
  forceReload : Bool

def cpusetRoot : Str := "/dev/cpuset/".toList

/-- `set_base_cpuset`, which ignores an empty name and one with a `/`. -/
def setBaseCpuset (name : Str) (d : Daemon) : Daemon :=
  if name.isEmpty || name.contains '/' then d else { d with baseCpusetPath := some (cpusetRoot ++ name) }

/-- `base_cpuset`. -/
def baseCpuset (d : Daemon) : Str := d.baseCpusetPath.getD "/dev/cpuset/AppOpt".toList

/-- `rsplit('/').next()`. -/
def lastComponent (path : Str) : Str := ((splitLast '/' path).map (·.2)).getD path

/-- The settings the daemon runs with, as `settings_save` collects them. -/
def runningSettings (d : Daemon) : Settings where
  webEnable := d.webEnabled
  mode := d.modeForce
  checkInterval := max d.checkInterval 1
  cpusetName := lastComponent (baseCpuset d)
  configFile := d.configFile

/-- `settings_save`: the value it writes. -/
def settingsSave (d : Daemon) : Value := (runningSettings d).toValue

/-! ## The start -/

/-- The options of the command line. -/
structure Cli where
  cfg : Option Str := none
  interval : Option Nat := none
  cpuset : Option Str := none
  web : Bool := false
  deriving DecidableEq

/-- The loop over the arguments; nothing where the source exits: on an option it refuses or does not know, and on
    `-v` and `-h`. -/
def parseArgs (cli : Cli) : List Str → Option Cli
  | [] => some cli
  | arg :: args =>
    if arg = "-c".toList then
      match args with
      | [] => none
      | path :: args => parseArgs { cli with cfg := some path } args
    else if arg = "-s".toList then
      match args with
      | [] => none
      | val :: args =>
        match parseUnsigned 64 val with
        | none => none
        | some n => if 1 ≤ n then parseArgs { cli with interval := some n } args else none
    else if arg = "-w".toList then parseArgs { cli with web := true } args
    else if arg = "-b".toList then
      match args with
      | [] => none
      | name :: args =>
        if name.isEmpty || name.contains '/' then none else parseArgs { cli with cpuset := some name } args
    else none

/-- What the start of the daemon meets. -/
structure StartEnv where
  stateDir : Option Str
  settings : SettingsRead
  /-- `load_config` returns a configuration. -/
  configLoads : Str → Bool
  webBinds : Bool
  ebpfInit : Bool

/-- `main` up to its loop: the statics, and the settings value it has left in the file, if it wrote one. Nothing when
    it exits. -/
def mainStatics (env : StartEnv) (args : List Str) : Option (Daemon × Option Value) :=
  match parseArgs {} args with
  | none => none
  | some cli =>
    let (st, created) := settingsLoad env.stateDir env.settings
    let configFile := cli.cfg.getD st.configFile
    let sleepInterval := cli.interval.getD st.checkInterval
    let cpusetName := cli.cpuset.getD st.cpusetName
    let webEnable := cli.web || st.webEnable
    let d : Daemon :=
      { webEnabled := false, modeForce := st.mode, checkInterval := sleepInterval, baseCpusetPath := none,
        configFile, ebpfGaveUp := false, forceReload := false }
    let d := setBaseCpuset cpusetName d
    if !env.configLoads configFile then none
    else
      let (d, saved) :=
        if webEnable then
          -- `web_start` leaves the flag alone when it cannot listen
          let d := if env.webBinds then { d with webEnabled := true } else d
          (d, some (settingsSave d))
        else (d, created)
      some ({ d with ebpfGaveUp := decide (d.modeForce = 0) && !env.ebpfInit }, saved)

/-! ## The settings page -/

/-- `MODE_FORCE.store`; going back to the eBPF side allows a new try. -/
def storeMode (mode : Option Nat) (d : Daemon) : Daemon :=
  match mode with
  | none => d
  | some m => { d with modeForce := m, ebpfGaveUp := if m ≠ 2 then false else d.ebpfGaveUp }

/-- The interval, where the body names one. -/
def storeInterval (interval : Option Nat) (d : Daemon) : Daemon :=
  match interval with
  | none => d
  | some n => { d with checkInterval := n }

/-- The name of the cpuset directory, where the body names one; the rules are to be loaded again. -/
def storeName (name : Option Str) (d : Daemon) : Daemon :=
  match name with
  | none => d
  | some n => { setBaseCpuset n d with forceReload := true }

/-- The rules file, where the body names one; it is to be loaded. -/
def storePath (path : Option Str) (d : Daemon) : Daemon :=
  match path with
  | none => d
  | some p => { d with configFile := p, forceReload := true }

/-- `config_set_api`: the reply, the statics, and the value it saves. -/
def configSetApi (body : Option Value) (d : Daemon) : Reply × Daemon × Option Value :=
  match body with
  | none => (errJson 400 "请求体不是合法 JSON", d, none)
  | some v =>
    let mode := (v.index "mode".toList).asU64
    let interval := (v.index "interval".toList).asU64
    let name := (v.index "cpuset_name".toList).asStr
    let path := (v.index "config_file".toList).asStr
    if mode.any fun m => m > 2 then (errJson 400 "无效的工作模式", d, none)
    else if interval.any fun n => !(1 ≤ n && n ≤ 3600) then (errJson 400 "间隔需在 1-3600 秒之间", d, none)
    else if name.any fun n => !validName n then (errJson 400 "无效的 cpuset 目录名", d, none)
    else if path.any fun p => !validPath p then (errJson 400 "无效的配置文件路径", d, none)
    else
      let d := storePath path (storeName name (storeInterval interval (storeMode mode d)))
      (okJson, d, some (settingsSave d))

/-- A request for the settings page, which is served while the web side is up. -/
def requestStep (d : Daemon) (body : Option Value) : Daemon × List Reply :=
  if d.webEnabled then
    match configSetApi body d with
    | (reply, d, _) => (d, [reply])
  else (d, [])

/-! ## The uses of the interval -/

/-- The interval a loop iteration works with. -/
def loopInterval (d : Daemon) : Nat := max d.checkInterval 1

/-- The timeout `inotify_handle` gives `poll`: `(interval as c_int) * 1000`, which wraps around. -/
def pollTimeout (interval : Nat) : Int := (BitVec.ofNat 32 interval * 1000#32).toInt

/-- A product of `u64`, which wraps around. -/
def mulU64 (a b : Nat) : Nat := (BitVec.ofNat 64 a * BitVec.ofNat 64 b).toNat

/-- `Duration::from_secs(3 * interval)`, after which `affinity_check` runs. -/
def checkPeriod (interval : Nat) : Nat := mulU64 3 interval

/-- `Duration::from_secs(5 * interval)`, after which `affinity_sync` runs. -/
def syncPeriod (interval : Nat) : Nat := mulU64 5 interval

end AppOptR
