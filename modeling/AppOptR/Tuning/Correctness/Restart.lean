import AppOptR.Tuning.Correctness.Agreement
import AppOptR.Tuning.Session

/-!
# `Tuning.Correctness.Restart` — a restart does not change the profile

The daemon may find any file when it starts, and every step of a write may fail. At every moment the profile in
memory is the one that the next start would read from the file (`restart_keeps_profile`).
-/

namespace AppOptR

open Text Json

variable {path : Str} {io : WriteIo} {disk : ProfileFile} {session : Session} {store : TuningStore} {op : TuningOp}
  {config : TuningConfig}

theorem emptyConfig_valid : ({} : TuningConfig).Valid where
  groups := by simp
  groupNames := by simp
  apps := by simp
  packages := by simp
  references := by simp

@[simp] theorem warnOnce_config (key message : Str) (store : TuningStore) :
    (warnOnce key message store).config = store.config := by
  unfold warnOnce
  split <;> rfl

@[simp] theorem replaceConfig_config (config : TuningConfig) (store : TuningStore) :
    (replaceConfig config store).config = config := rfl

/-- The profile that a file stands for: an empty one unless it is a document that `config_from_value` accepts. -/
def ProfileFile.profile : ProfileFile → TuningConfig
  | .document value => (configFromValue value).toOption.getD {}
  | _ => {}

theorem profile_document {value : Value} (h : configFromValue value = .ok config) :
    (ProfileFile.document value).profile = config := by
  simp [ProfileFile.profile, h, Except.toOption]

theorem profile_refused {value : Value} {error : Str} (h : configFromValue value = .error error) :
    (ProfileFile.document value).profile = {} := by
  simp [ProfileFile.profile, h, Except.toOption]

theorem profile_valid (disk : ProfileFile) : disk.profile.Valid := by
  cases disk with
  | document value =>
    cases h : configFromValue value with
    | ok config => exact profile_document h ▸ configFromValue_valid h
    | error error => exact profile_refused h ▸ emptyConfig_valid
  | missing => exact emptyConfig_valid
  | unreadable error => exact emptyConfig_valid
  | malformed error => exact emptyConfig_valid

/-- **A start takes the profile of the file**, and touches the file only where there is none. -/
theorem startSession_profile (path : Str) (io : WriteIo) (disk : ProfileFile) :
    (startSession path io disk).store.config = disk.profile ∧
      (startSession path io disk).disk.profile = disk.profile ∧
      (disk ≠ .missing → (startSession path io disk).disk = disk) := by
  cases disk with
  | document value =>
    cases h : configFromValue value with
    | ok config => simp [startSession, loadFile, h, profile_document h]
    | error error => simp [startSession, loadFile, h, profile_refused h]
  | missing =>
    have hempty : (ProfileFile.document (configValue {})).profile = {} :=
      profile_document (configFromValue_print emptyConfig_valid)
    rcases save_cases path io {} ⟨.null, {}, [], []⟩ with ⟨error, h⟩ | h
    · simp [startSession, loadFile, h, ProfileFile.profile]
    · simp only [startSession, loadFile, h]
      exact ⟨rfl, hempty, fun hne => absurd rfl hne⟩
  | unreadable error => simp [startSession, loadFile, ProfileFile.profile]
  | malformed error => simp [startSession, loadFile, ProfileFile.profile]

/-- One operation, on a store whose file may be anything. -/
theorem runOp_saved (path : Str) (hvalid : store.config.Valid) (hop : op.Admitted) :
    (∃ error, runOp path store op = (.error error, store)) ∨
      ∃ next : TuningConfig, next.Valid ∧
        runOp path store op = (.ok (), replaceConfig next { store with file := configValue next }) := by
  cases hop with
  | @replaceAndSave value config io h =>
    exact (replaceAndSave_cases path io config store).imp_right fun hok => ⟨config, configFromValue_valid h, hok⟩
  | @cloneApp body args io h hcat =>
    refine (cloneApp_cases path io args.source args.target args.tuningMemory args.tuningThreads store).imp_right ?_
    rintro ⟨next, hnext, hok⟩
    exact ⟨next, cloneAppConfig_valid hvalid (ruleCloneApiArgs_target h) hcat hnext, hok⟩

/-- The profile in memory is the one of the file. -/
def Current (session : Session) : Prop := session.store.config = session.disk.profile

/-- **One operation of a session**: it fails and changes nothing, or the file holds what memory does. -/
theorem sessionStep_op (path : Str) (hcurrent : Current session) (hop : op.Admitted) :
    (∃ error, sessionStep path session (.op op) = (session, [.error error])) ∨
      ∃ next : TuningConfig, next.Valid ∧ sessionStep path session (.op op)
        = (⟨.document (configValue next), replaceConfig next { session.store with file := configValue next }⟩,
            [.ok ()]) := by
  have hvalid : session.store.config.Valid := hcurrent ▸ profile_valid session.disk
  rcases runOp_saved path hvalid hop with ⟨error, h⟩ | ⟨next, hnext, h⟩
  · exact .inl ⟨error, by simp only [sessionStep, h]⟩
  · exact .inr ⟨next, hnext, by simp only [sessionStep, h, replaceConfig]⟩

theorem sessionStep_current (path : Str) (session : Session) (input : SessionInput) (hcurrent : Current session)
    (hinput : input.Admitted) : Current (sessionStep path session input).1 := by
  cases input with
  | op op =>
    rcases sessionStep_op path hcurrent hinput with ⟨error, h⟩ | ⟨next, hnext, h⟩
    · rw [h]
      exact hcurrent
    · rw [h]
      exact (profile_document (configFromValue_print hnext)).symm
  | restart io =>
    obtain ⟨hconfig, hdisk, _⟩ := startSession_profile path io session.disk
    exact hconfig.trans hdisk.symm

/-- **A restart keeps the profile.** From any file at the first start, through any saves, clones and starts
    whatever fails on the way: the profile in memory is valid, another start would read the same one, a start
    overwrites no file, and an operation that returns an error has changed neither the file nor the memory. -/
theorem restart_keeps_profile (path : Str) (io : WriteIo) (disk : ProfileFile) (inputs : List SessionInput)
    (hinputs : ∀ input ∈ inputs, input.Admitted) (session : Session)
    (hsession : session = Mealy.final (sessionStep path) (startSession path io disk) inputs) :
    session.store.config.Valid ∧
      (∀ io, (startSession path io session.disk).store.config = session.store.config) ∧
      (∀ io, session.disk ≠ .missing → (startSession path io session.disk).disk = session.disk) ∧
      ∀ op, op.Admitted → ∀ error, (sessionStep path session (.op op)).2 = [.error error] →
        (sessionStep path session (.op op)).1 = session := by
  have hstart : Current (startSession path io disk) := by
    obtain ⟨hconfig, hdisk, _⟩ := startSession_profile path io disk
    exact hconfig.trans hdisk.symm
  have hcurrent : Current session :=
    hsession ▸ Mealy.invariant (sessionStep_current path) (Mealy.along_of_forall hinputs) hstart
  refine ⟨hcurrent ▸ profile_valid session.disk, fun io' => ?_, fun io' => ?_, fun op hop error herror => ?_⟩
  · rw [(startSession_profile path io' session.disk).1]
    exact hcurrent.symm
  · exact (startSession_profile path io' session.disk).2.2
  · rcases sessionStep_op path hcurrent hop with ⟨error', h⟩ | ⟨next, _, h⟩
    · rw [h]
    · rw [h] at herror
      cases herror

/-- An unreadable file at the first start, a save that fails at the rename, one that succeeds, and two starts more. -/
theorem restart_keeps_profile_saved :
    (startSession "t.json".toList { create := some "EROFS".toList }
        (Mealy.final (sessionStep "t.json".toList) (startSession "t.json".toList {} (.unreadable "EACCES".toList))
          [.op (.replaceAndSave oneAppConfig { rename := some "EROFS".toList }),
            .op (.replaceAndSave oneAppConfig {}), .restart {}]).disk).store.config
      = (Mealy.final (sessionStep "t.json".toList) (startSession "t.json".toList {} (.unreadable "EACCES".toList))
          [.op (.replaceAndSave oneAppConfig { rename := some "EROFS".toList }),
            .op (.replaceAndSave oneAppConfig {}), .restart {}]).store.config := by
  have hread : configFromValue (configValue oneAppConfig) = .ok oneAppConfig := by decide +kernel
  refine (restart_keeps_profile "t.json".toList {} (.unreadable "EACCES".toList) _ ?_ _ rfl).2.1 _
  intro input hinput
  simp only [List.mem_cons, List.not_mem_nil, or_false] at hinput
  rcases hinput with rfl | rfl | rfl
  · exact .replaceAndSave _ hread
  · exact .replaceAndSave _ hread
  · exact trivial

end AppOptR
