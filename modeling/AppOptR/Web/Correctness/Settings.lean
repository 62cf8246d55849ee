import AppOptR.Web.Settings

/-!
# `Web.Correctness.Settings` — which settings survive a restart, and which intervals fit their timers

`Admitted` is what the three ways in have in common, and holds of the statics in every run (`run_admitted`). It is less
than the settings file takes back (`Readable`): the options `-s`, `-b` and `-c` set no bound on the interval and hardly
any on the two names, and `settings_load` clamps or replaces what it would not admit. It is also less than the loader
thread can wait for (`FitsTimers`).
-/

namespace AppOptR

open Text Json

variable {s name path : Str} {d d₀ : Daemon} {st : Settings} {env : StartEnv} {args : List Str} {cli cli₀ : Cli}
  {stateDir : Option Str} {v : Value} {saved : Option Value} {n : Nat}

/-! ## The settings file -/

/-- Reading what was written. -/
theorem fromJson_toValue (st₀ st : Settings) (hmode : st.mode < 2 ^ 64) (hint : st.checkInterval < 2 ^ 64) :
    st₀.fromJson st.toValue =
      { webEnable := st.webEnable
        mode := min st.mode 2
        checkInterval := max 1 (min st.checkInterval 3600)
        cpusetName := if validName st.cpusetName then st.cpusetName else st₀.cpusetName
        configFile := if validPath st.configFile then st.configFile else st₀.configFile } := by
  have hget : ∀ (field : Str) (w : Value), Value.lookup field
      [("web_enable".toList, .bool st.webEnable), ("mode".toList, .number (.int st.mode)),
        ("check_interval".toList, .number (.int st.checkInterval)), ("cpuset_name".toList, .string st.cpusetName),
        ("config_file".toList, .string st.configFile)] = some w → st.toValue.index field = w := by
    intro field w h
    rw [Value.index, Settings.toValue, Value.get_object, h, Option.getD_some]
  have hu64 : ∀ n : Nat, n < 2 ^ 64 → (Value.number (.int (n : Int))).asU64 = some n := fun n hn => if_pos hn
  have hfilter : ∀ (p : Str → Bool) (a b : Str), ((some a).filter p).getD b = if p a then a else b := by
    intro p a b
    cases hp : p a <;> simp [Option.filter, hp]
  unfold Settings.fromJson
  rw [hget "web_enable".toList (.bool st.webEnable) rfl, hget "mode".toList (.number (.int st.mode)) rfl,
    hget "check_interval".toList (.number (.int st.checkInterval)) rfl,
    hget "cpuset_name".toList (.string st.cpusetName) rfl, hget "config_file".toList (.string st.configFile) rfl,
    hu64 _ hmode, hu64 _ hint]
  simp only [Value.asBool, Value.asStr, Option.getD_some, hfilter]

/-- What `settings_load` returns, whatever it reads. -/
theorem settingsLoad_admitted (stateDir : Option Str) (read : SettingsRead) :
    (settingsLoad stateDir read).1.mode ≤ 2 ∧ 1 ≤ (settingsLoad stateDir read).1.checkInterval ∧
      (settingsLoad stateDir read).1.checkInterval ≤ 3600 ∧ validName (settingsLoad stateDir read).1.cpusetName = true ∧
      (validPath (settingsLoad stateDir read).1.configFile = true ∨
        (settingsLoad stateDir read).1.configFile = (Settings.default stateDir).configFile) := by
  have hdefault : validName (Settings.default stateDir).cpusetName = true := by
    show validName defaultCpusetName = true
    decide
  have hfilter : ∀ {p : Str → Bool} {a : Option Str} {b : Str},
      p ((a.filter p).getD b) = true ∨ (a.filter p).getD b = b := by
    intro p a b
    cases a with
    | none => exact .inr rfl
    | some a => cases hp : p a <;> simp [Option.filter, hp]
  have hdefaults : (Settings.default stateDir).mode ≤ 2 ∧ 1 ≤ (Settings.default stateDir).checkInterval ∧
      (Settings.default stateDir).checkInterval ≤ 3600 ∧ validName (Settings.default stateDir).cpusetName = true ∧
      (validPath (Settings.default stateDir).configFile = true ∨
        (Settings.default stateDir).configFile = (Settings.default stateDir).configFile) := by
    refine ⟨Nat.zero_le 2, ?_, ?_, hdefault, .inr rfl⟩
    · show 1 ≤ 2
      omega
    · show 2 ≤ 3600
      omega
  cases read with
  | value v =>
    refine ⟨Nat.min_le_right _ _, Nat.le_max_left _ _, ?_, ?_, hfilter⟩
    · show max 1 (min _ 3600) ≤ 3600
      omega
    · rcases @hfilter validName (v.index "cpuset_name".toList).asStr (Settings.default stateDir).cpusetName with h | h
      · exact h
      · exact (congrArg validName h).trans hdefault
  | corrupt => exact hdefaults
  | notFound => exact hdefaults
  | failed => exact hdefaults

/-! ## The name of the cpuset -/

/-- A name that can be a directory. -/
def DirName (s : Str) : Prop := s ≠ [] ∧ '/' ∉ s

theorem validName_dirName (h : validName s = true) : DirName s := by
  simp only [validName, Bool.and_eq_true, Bool.not_eq_true', List.isEmpty_eq_false_iff] at h
  exact ⟨h.1.1.1, by simpa using h.1.2⟩

theorem setBaseCpuset_dirName (h : DirName name) (d : Daemon) :
    setBaseCpuset name d = { d with baseCpusetPath := some (cpusetRoot ++ name) } := if_neg (by simp [h.1, h.2])

/-- The name set is the name saved. -/
theorem lastComponent_root (h : DirName name) : lastComponent (cpusetRoot ++ name) = name := by
  have hsplit : splitLast '/' (cpusetRoot ++ name) = some ("/dev/cpuset".toList, name) :=
    splitLast_eq_some.mpr ⟨rfl, h.2⟩
  rw [lastComponent, hsplit]
  rfl

/-! ## The options -/

/-- What the options admit. -/
structure CliAdmitted (cli : Cli) : Prop where
  interval : ∀ n ∈ cli.interval, 1 ≤ n ∧ n < 2 ^ 64
  cpuset : ∀ s ∈ cli.cpuset, DirName s

theorem parseUnsigned_lt {width : Nat} (h : parseUnsigned width s = some n) : n < 2 ^ width := by
  unfold parseUnsigned at h
  generalize (if s.head? = some '+' then s.tail else s) = ds at h
  dsimp only at h
  split at h
  · cases h
  · split at h
    · next hlt =>
      obtain rfl := Option.some.inj h
      exact hlt
    · cases h

theorem parseArgs_admitted (h : parseArgs cli₀ args = some cli) (hcli : CliAdmitted cli₀) : CliAdmitted cli := by
  fun_induction parseArgs cli₀ args with
  | case1 cli₀ =>
    cases h
    exact hcli
  | case3 cli₀ path args ih => exact ih h ⟨hcli.interval, hcli.cpuset⟩
  | case6 cli₀ val args n hval hn _ ih =>
    refine ih h ⟨fun m hm => ?_, hcli.cpuset⟩
    obtain rfl := Option.some.inj hm
    exact ⟨hn, parseUnsigned_lt hval⟩
  | case8 cli₀ args _ _ ih => exact ih h ⟨hcli.interval, hcli.cpuset⟩
  | case11 cli₀ name args hname _ _ _ ih =>
    refine ih h ⟨hcli.interval, fun m hm => ?_⟩
    obtain rfl := Option.some.inj hm
    simpa [DirName] using hname
  | _ => cases h

/-! ## The statics in every run -/

/-- Where the settings of a running daemon come from. -/
structure Admitted (stateDir : Option Str) (cli : Cli) (d : Daemon) : Prop where
  mode : d.modeForce ≤ 2
  interval : 1 ≤ d.checkInterval ∧ (d.checkInterval ≤ 3600 ∨ cli.interval = some d.checkInterval)
  cpuset : DirName (runningSettings d).cpusetName ∧
    (validName (runningSettings d).cpusetName = true ∨ cli.cpuset = some (runningSettings d).cpusetName)
  file : validPath d.configFile = true ∨ d.configFile = (Settings.default stateDir).configFile ∨
    cli.cfg = some d.configFile

/-- An option, or what the settings say. -/
theorem option_cases {α : Type} (o : Option α) (a : α) : o.getD a = a ∨ o = some (o.getD a) := by
  cases o with
  | none => exact .inl rfl
  | some b => exact .inr rfl

/-- **The start.** -/
theorem mainStatics_admitted (h : mainStatics env args = some (d, saved)) :
    ∃ cli, parseArgs {} args = some cli ∧ Admitted env.stateDir cli d := by
  unfold mainStatics at h
  cases hcli : parseArgs {} args with
  | none =>
    rw [hcli] at h
    cases h
  | some cli =>
    rw [hcli] at h
    dsimp only at h
    have hopts := parseArgs_admitted hcli ⟨fun n hn => (by cases hn), fun n hn => (by cases hn)⟩
    obtain ⟨hmode, hone, hbound, hname, hfile⟩ := settingsLoad_admitted env.stateDir env.settings
    generalize (settingsLoad env.stateDir env.settings).1 = st at h hmode hone hbound hname hfile
    split at h
    · cases h
    -- a value is the one of the command line, or the one that was checked on loading
    have hdir : DirName (cli.cpuset.getD st.cpusetName) ∧ (validName (cli.cpuset.getD st.cpusetName) = true ∨
        cli.cpuset = some (cli.cpuset.getD st.cpusetName)) := by
      rcases option_cases cli.cpuset st.cpusetName with hd | hd
      · rw [hd]
        exact ⟨validName_dirName hname, .inl hname⟩
      · exact ⟨hopts.cpuset _ hd, .inr hd⟩
    have hinterval : 1 ≤ cli.interval.getD st.checkInterval ∧ (cli.interval.getD st.checkInterval ≤ 3600 ∨
        cli.interval = some (cli.interval.getD st.checkInterval)) := by
      rcases option_cases cli.interval st.checkInterval with hd | hd
      · rw [hd]
        exact ⟨hone, .inl hbound⟩
      · exact ⟨(hopts.interval _ hd).1, .inr hd⟩
    have hpath : validPath (cli.cfg.getD st.configFile) = true ∨
        cli.cfg.getD st.configFile = (Settings.default env.stateDir).configFile ∨
          cli.cfg = some (cli.cfg.getD st.configFile) := by
      rcases option_cases cli.cfg st.configFile with hd | hd
      · rw [hd]
        exact hfile.imp_right .inl
      · exact .inr (.inr hd)
    -- what the rest of `main` changes is not among the settings that are checked
    have hfinal : d.modeForce = st.mode ∧ d.checkInterval = cli.interval.getD st.checkInterval ∧
        (runningSettings d).cpusetName = cli.cpuset.getD st.cpusetName ∧ d.configFile = cli.cfg.getD st.configFile := by
      have hset := lastComponent_root hdir.1
      rw [setBaseCpuset_dirName hdir.1] at h
      by_cases hweb : (cli.web || st.webEnable) = true
      · rw [if_pos hweb] at h
        by_cases hbind : env.webBinds = true
        · rw [if_pos hbind] at h
          cases h
          exact ⟨rfl, rfl, hset, rfl⟩
        · rw [if_neg hbind] at h
          cases h
          exact ⟨rfl, rfl, hset, rfl⟩
      · rw [if_neg hweb] at h
        cases h
        exact ⟨rfl, rfl, hset, rfl⟩
    obtain ⟨e₁, e₂, e₃, e₄⟩ := hfinal
    exact ⟨cli, rfl, e₁ ▸ hmode, e₂ ▸ hinterval, e₃ ▸ hdir, e₄ ▸ hpath⟩

theorem storeMode_admitted {mode : Option Nat} (h : Admitted stateDir cli d) (hmode : ∀ m ∈ mode, m ≤ 2) :
    Admitted stateDir cli (storeMode mode d) := by
  cases mode with
  | none => exact h
  | some m => exact ⟨hmode m rfl, h.interval, h.cpuset, h.file⟩

theorem storeInterval_admitted {interval : Option Nat} (h : Admitted stateDir cli d)
    (hinterval : ∀ n ∈ interval, 1 ≤ n ∧ n ≤ 3600) : Admitted stateDir cli (storeInterval interval d) := by
  cases interval with
  | none => exact h
  | some n => exact ⟨h.mode, ⟨(hinterval n rfl).1, .inl (hinterval n rfl).2⟩, h.cpuset, h.file⟩

theorem storeName_some (h : DirName name) (d : Daemon) :
    storeName (some name) d = { d with baseCpusetPath := some (cpusetRoot ++ name), forceReload := true } := by
  show { setBaseCpuset name d with forceReload := true } = _
  rw [setBaseCpuset_dirName h]

theorem storeName_admitted {name : Option Str} (h : Admitted stateDir cli d) (hname : ∀ s ∈ name, validName s = true) :
    Admitted stateDir cli (storeName name d) := by
  cases name with
  | none => exact h
  | some s =>
    have hvalid := hname s rfl
    have hset := lastComponent_root (validName_dirName hvalid)
    have hvalid' : validName (lastComponent (cpusetRoot ++ s)) = true := by rw [hset, hvalid]
    rw [storeName_some (validName_dirName hvalid)]
    exact ⟨h.mode, h.interval, ⟨validName_dirName hvalid', .inl hvalid'⟩, h.file⟩

theorem storePath_admitted {path : Option Str} (h : Admitted stateDir cli d) (hpath : ∀ p ∈ path, validPath p = true) :
    Admitted stateDir cli (storePath path d) := by
  cases path with
  | none => exact h
  | some p => exact ⟨h.mode, h.interval, h.cpuset, .inl (hpath p rfl)⟩

/-- A request that is refused changes nothing, and one that is not has passed the checks. -/
theorem configSetApi_admitted (h : Admitted stateDir cli d) (body : Option Value) :
    Admitted stateDir cli (configSetApi body d).2.1 := by
  unfold configSetApi
  cases body with
  | none => exact h
  | some v =>
    dsimp only
    generalize (v.index "mode".toList).asU64 = mode
    generalize (v.index "interval".toList).asU64 = interval
    generalize (v.index "cpuset_name".toList).asStr = name
    generalize (v.index "config_file".toList).asStr = path
    split
    · exact h
    next hmode =>
    split
    · exact h
    next hinterval =>
    split
    · exact h
    next hname =>
    split
    · exact h
    next hpath =>
    refine storePath_admitted (storeName_admitted (storeInterval_admitted (storeMode_admitted h ?_) ?_) ?_) ?_
    · rintro m rfl
      simpa using hmode
    · rintro n rfl
      simpa [Nat.one_le_iff_ne_zero] using hinterval
    · rintro s rfl
      simpa using hname
    · rintro p rfl
      simpa using hpath

/-- **One request** keeps the settings admitted. -/
theorem requestStep_admitted (d : Daemon) (body : Option Value) (h : Admitted stateDir cli d) :
    Admitted stateDir cli (requestStep d body).1 := by
  unfold requestStep
  split
  · exact configSetApi_admitted h body
  · exact h

/-- **Every run**: from the start, through any requests. -/
theorem run_admitted (h : mainStatics env args = some (d₀, saved)) (bodies : List (Option Value)) :
    ∃ cli, parseArgs {} args = some cli ∧ Admitted env.stateDir cli (Mealy.final requestStep d₀ bodies) := by
  obtain ⟨cli, hcli, hstart⟩ := mainStatics_admitted h
  refine ⟨cli, hcli, ?_⟩
  exact Mealy.invariant (fun d body hd _ => requestStep_admitted d body hd)
    (Mealy.along_of_forall fun _ _ => trivial) hstart

/-! ## Surviving a restart -/

/-- `settings_save` followed by `settings_load` gives the settings back. -/
def SurvivesRestart (stateDir : Option Str) (d : Daemon) : Prop :=
  (settingsLoad stateDir (.value (settingsSave d))).1 = runningSettings d

/-- What the settings file takes back. -/
def Readable (stateDir : Option Str) (st : Settings) : Prop :=
  st.checkInterval ≤ 3600 ∧ validName st.cpusetName = true ∧
    (validPath st.configFile = true ∨ st.configFile = (Settings.default stateDir).configFile)

/-- The options that can be read back from the file. -/
def Cli.Readable (stateDir : Option Str) (cli : Cli) : Prop :=
  (∀ n ∈ cli.interval, n ≤ 3600) ∧ (∀ s ∈ cli.cpuset, validName s = true) ∧
    ∀ p ∈ cli.cfg, validPath p = true ∨ p = (Settings.default stateDir).configFile

theorem survives_iff (h : Admitted stateDir cli d) (hu64 : d.checkInterval < 2 ^ 64) :
    SurvivesRestart stateDir d ↔ Readable stateDir (runningSettings d) := by
  obtain ⟨hmode, ⟨hone, _⟩, _, _⟩ := h
  have hdefault : validName (Settings.default stateDir).cpusetName = true := by
    show validName defaultCpusetName = true
    decide
  have hinterval : (runningSettings d).checkInterval = d.checkInterval := Nat.max_eq_left hone
  have hmode' : (runningSettings d).mode = d.modeForce := rfl
  unfold SurvivesRestart Readable
  show (Settings.default stateDir).fromJson (runningSettings d).toValue = _ ↔ _
  rw [fromJson_toValue _ _ (by omega) (by omega)]
  generalize runningSettings d = st at hinterval hmode'
  obtain ⟨web, mode, interval, name, file⟩ := st
  dsimp only at hinterval hmode' ⊢
  subst hinterval hmode'
  have hmin : min d.modeForce 2 = d.modeForce := Nat.min_eq_left hmode
  simp only [Settings.mk.injEq, true_and, hmin]
  refine and_congr ?_ (and_congr ?_ ?_)
  · omega
  · cases hn : validName name with
    | true => simp
    | false =>
      simp only [Bool.false_eq_true, if_false, iff_false]
      rintro rfl
      rw [hdefault] at hn
      cases hn
  · cases hf : validPath file with
    | true => simp
    | false => simp [eq_comm]

/-- An interval that a way in admits is a `u64`. -/
theorem Admitted.interval_lt (h : Admitted stateDir cli d) (hcli : parseArgs {} args = some cli) :
    d.checkInterval < 2 ^ 64 := by
  rcases h.interval.2 with hle | he
  · omega
  · exact ((parseArgs_admitted hcli ⟨fun n hn => (by cases hn), fun n hn => (by cases hn)⟩).interval _ he).2

/-- **Settings survive a restart** when the file takes them back, and only then; and in a run whose options can be read
    back they always do. -/
theorem settings_survive (env : StartEnv) (args : List Str) (d₀ : Daemon) (saved : Option Value)
    (h : mainStatics env args = some (d₀, saved)) (bodies : List (Option Value)) :
    (SurvivesRestart env.stateDir (Mealy.final requestStep d₀ bodies) ↔
        Readable env.stateDir (runningSettings (Mealy.final requestStep d₀ bodies))) ∧
      ((∀ cli, parseArgs {} args = some cli → cli.Readable env.stateDir) →
        SurvivesRestart env.stateDir (Mealy.final requestStep d₀ bodies)) := by
  obtain ⟨cli, hcli, hrun⟩ := run_admitted h bodies
  have hiff := survives_iff hrun (hrun.interval_lt hcli)
  refine ⟨hiff, fun hread => hiff.mpr ?_⟩
  obtain ⟨hn, hs, hp⟩ := hread cli hcli
  refine ⟨?_, ?_, ?_⟩
  · show max _ 1 ≤ 3600
    rcases hrun.interval.2 with hle | he
    · omega
    · have := hn _ he
      omega
  · rcases hrun.cpuset.2 with hv | he
    · exact hv
    · exact hs _ he
  · rcases hrun.file with hv | hd | he
    · exact .inl hv
    · exact .inr hd
    · exact hp _ he

/-- A start without a settings file, where everything `main` tries goes well. -/
def firstStart : StartEnv where
  stateDir := none
  settings := .notFound
  configLoads := fun _ => true
  webBinds := true
  ebpfInit := true

/-- The web side on the command line, and a new interval from the page. -/
theorem settings_survive_page :
    ∃ d₀ saved, mainStatics firstStart ["-w".toList, "-b".toList, "Mine".toList] = some (d₀, saved) ∧
      SurvivesRestart none (Mealy.final requestStep d₀
        [some (.object [("interval".toList, .number (.int 3600))]),
          some (.object [("interval".toList, .number (.int 3601))])]) := by
  obtain ⟨r, hr⟩ : ∃ r, mainStatics firstStart ["-w".toList, "-b".toList, "Mine".toList] = some r := ⟨_, rfl⟩
  refine ⟨r.1, r.2, hr, (settings_survive firstStart _ r.1 r.2 hr _).2 fun cli hcli => ?_⟩
  have hargs : parseArgs {} ["-w".toList, "-b".toList, "Mine".toList]
      = some { cpuset := some "Mine".toList, web := true } := by decide
  obtain rfl := Option.some.inj (hargs.symm.trans hcli)
  refine ⟨fun n hn => (by cases hn), fun s hs => ?_, fun p hp => (by cases hp)⟩
  obtain rfl := Option.some.inj hs
  decide

/-- A name with a space is admitted by `-b` and replaced after a restart. -/
theorem settings_lose_name :
    ∃ d₀ saved, mainStatics firstStart ["-w".toList, "-b".toList, "my set".toList] = some (d₀, saved) ∧
      (runningSettings d₀).cpusetName = "my set".toList ∧
      (settingsLoad none (.value (settingsSave d₀))).1.cpusetName = "AppOpt".toList ∧ ¬ SurvivesRestart none d₀ := by
  obtain ⟨r, hr⟩ : ∃ r, mainStatics firstStart ["-w".toList, "-b".toList, "my set".toList] = some r := ⟨_, rfl⟩
  have hname : (runningSettings r.1).cpusetName = "my set".toList := by
    obtain rfl := Option.some.inj hr
    decide
  have hread : (settingsLoad none (.value (settingsSave r.1))).1.cpusetName = "AppOpt".toList := by
    obtain rfl := Option.some.inj hr
    decide
  refine ⟨r.1, r.2, hr, hname, hread, fun h => ?_⟩
  have hsame := congrArg Settings.cpusetName h
  rw [hread, hname] at hsame
  exact absurd hsame (by decide)

/-! ## The interval and its timers -/

/-- The timers a loop interval gives are the ones meant. -/
structure FitsTimers (interval : Nat) : Prop where
  poll : pollTimeout interval = 1000 * interval
  positive : 0 < pollTimeout interval
  check : checkPeriod interval = 3 * interval
  sync : syncPeriod interval = 5 * interval

theorem mulU64_eq {a b : Nat} (h : a * b < 2 ^ 64) (ha : a < 2 ^ 64) (hb : b < 2 ^ 64) : mulU64 a b = a * b := by
  unfold mulU64
  rw [BitVec.toNat_mul, BitVec.toNat_ofNat, BitVec.toNat_ofNat, Nat.mod_eq_of_lt ha, Nat.mod_eq_of_lt hb,
    Nat.mod_eq_of_lt h]

/-- **When an interval fits**: up to the seconds whose milliseconds are a `c_int`. -/
theorem fitsTimers_iff (hone : 1 ≤ n) : FitsTimers n ↔ n ≤ 2147483 := by
  constructor
  · intro h
    have hlt : pollTimeout n < 2 ^ 31 := BitVec.toInt_lt
    have hpoll := h.poll
    omega
  · intro hn
    have hbits : (BitVec.ofNat 32 n * 1000#32).toNat = n * 1000 := by
      rw [BitVec.toNat_mul, BitVec.toNat_ofNat, BitVec.toNat_ofNat]
      omega
    have hpoll : pollTimeout n = 1000 * n := by
      unfold pollTimeout
      rw [BitVec.toInt_eq_toNat_of_lt (by rw [hbits]; omega), hbits]
      omega
    exact ⟨hpoll, by omega, mulU64_eq (by omega) (by omega) (by omega), mulU64_eq (by omega) (by omega) (by omega)⟩

/-- **An interval fits its timers** up to 2147483 seconds, and only then; and in a run whose option `-s` is no larger
    it always does. -/
theorem interval_fits (env : StartEnv) (args : List Str) (d₀ : Daemon) (saved : Option Value)
    (h : mainStatics env args = some (d₀, saved)) (bodies : List (Option Value)) :
    (FitsTimers (loopInterval (Mealy.final requestStep d₀ bodies)) ↔
        (Mealy.final requestStep d₀ bodies).checkInterval ≤ 2147483) ∧
      ((∀ cli, parseArgs {} args = some cli → ∀ n ∈ cli.interval, n ≤ 2147483) →
        FitsTimers (loopInterval (Mealy.final requestStep d₀ bodies))) := by
  obtain ⟨cli, hcli, hrun⟩ := run_admitted h bodies
  have hone := hrun.interval.1
  have hloop : loopInterval (Mealy.final requestStep d₀ bodies) = (Mealy.final requestStep d₀ bodies).checkInterval :=
    Nat.max_eq_left hone
  rw [hloop]
  have hiff := fitsTimers_iff hone
  refine ⟨hiff, fun hs => hiff.mpr ?_⟩
  rcases hrun.interval.2 with hle | he
  · omega
  · exact hs cli hcli _ he

/-- The longest interval that fits, from the command line. -/
theorem interval_fits_longest :
    ∃ d₀ saved, mainStatics firstStart ["-s".toList, "2147483".toList] = some (d₀, saved) ∧
      FitsTimers (loopInterval (Mealy.final requestStep d₀ [])) := by
  obtain ⟨r, hr⟩ : ∃ r, mainStatics firstStart ["-s".toList, "2147483".toList] = some r := ⟨_, rfl⟩
  refine ⟨r.1, r.2, hr, (interval_fits firstStart _ r.1 r.2 hr []).1.mpr ?_⟩
  obtain rfl := Option.some.inj hr
  decide

/-- One second more, and the timeout is negative: `poll` waits for ever. -/
theorem interval_overflows :
    ∃ d₀ saved, mainStatics firstStart ["-s".toList, "2147484".toList] = some (d₀, saved) ∧
      pollTimeout (loopInterval d₀) = -2147483296 ∧ ¬ FitsTimers (loopInterval d₀) := by
  obtain ⟨r, hr⟩ : ∃ r, mainStatics firstStart ["-s".toList, "2147484".toList] = some r := ⟨_, rfl⟩
  have hpoll : pollTimeout (loopInterval r.1) = -2147483296 := by
    obtain rfl := Option.some.inj hr
    decide
  refine ⟨r.1, r.2, hr, hpoll, fun h => ?_⟩
  have := h.positive
  omega

end AppOptR
