import AppOptR.Tuning.Store
import AppOptR.Tuning.Correctness.RoundTrip

/-!
# `Tuning.Correctness.Agreement` — the tuning file and the memory never drift apart

`InStep`: the document in the file reads as the configuration in memory. Both operations keep it, because
the configuration they write is valid (`cloneAppConfig_valid` for a clone) and a valid one comes back from
its JSON form; and a failing operation changes nothing, because the file is replaced by the last step only
and the memory after it.
-/

namespace AppOptR

open Text Json

/-! ## Cloning keeps validity -/

theorem updateApp_pkgs {pkg : Str} {f : AppTuneRule → AppTuneRule} (hf : ∀ a, (f a).pkg = a.pkg)
    (apps : List AppTuneRule) : (updateApp pkg f apps).map (·.pkg) = apps.map (·.pkg) := by
  induction apps with
  | nil => rfl
  | cons a apps ih =>
    unfold updateApp
    split
    · rw [List.map_cons, hf]
      rfl
    · rw [List.map_cons, ih]
      rfl

/-- An app of the updated list is an old one, or the changed first app of the package. -/
theorem mem_updateApp {pkg : Str} {f : AppTuneRule → AppTuneRule} {apps : List AppTuneRule} {b : AppTuneRule}
    (hb : b ∈ updateApp pkg f apps) : b ∈ apps ∨ ∃ a ∈ apps, a.pkg = pkg ∧ b = f a := by
  induction apps with
  | nil => cases hb
  | cons a apps ih =>
    unfold updateApp at hb
    split at hb
    · next ha =>
      rcases List.mem_cons.mp hb with rfl | hb
      · exact .inr ⟨a, by simp, ha, rfl⟩
      · exact .inl (by simp [hb])
    · rcases List.mem_cons.mp hb with rfl | hb
      · exact .inl (by simp)
      · rcases ih hb with hb | ⟨a', ha', hpkg, rfl⟩
        · exact .inl (by simp [hb])
        · exact .inr ⟨a', by simp [ha'], hpkg, rfl⟩

variable {c c' : TuningConfig} {source target : Str} {copyMemory copyThreads : Bool}

/-- The categories taken from a valid source app: what they are, and that a selected one is there. -/
theorem selected_used {app : AppTuneRule} (hcat : (copyMemory || copyThreads) = true)
    (hm : ¬ (copyMemory && app.memoryGroup.isNone) = true)
    (ht : ¬ (copyThreads && app.threads.isEmpty) = true) (group : Option Str) (threads : List ThreadTuneRule) :
    ((if copyMemory then app.memoryGroup else group).isNone &&
      (if copyThreads then app.threads else threads).isEmpty) = false := by
  cases copyMemory with
  | true =>
    have hsome : app.memoryGroup.isNone = false := Bool.eq_false_iff.mpr hm
    simp [hsome]
  | false =>
    cases copyThreads with
    | true =>
      have hne : app.threads.isEmpty = false := Bool.eq_false_iff.mpr ht
      simp [hne]
    | false => cases hcat

theorem cloneAppConfig_valid (hc : c.Valid) (htarget : Checked packageNameOk target)
    (hcat : (copyMemory || copyThreads) = true)
    (h : cloneAppConfig c source target copyMemory copyThreads = .ok c') : c'.Valid := by
  unfold cloneAppConfig at h
  split at h
  · cases h
  split at h
  · cases h
  next app hsource =>
  have happ : app ∈ c.apps := List.mem_of_find?_eq_some hsource
  have hvalid : app.Valid := hc.apps app happ
  dsimp only at h
  split at h
  · cases h
  next hm =>
  split at h
  · cases h
  next ht =>
  split at h
  · next old hold =>
    split at h
    · cases h
    split at h
    · cases h
    cases h
    have hmem : ∀ b ∈ updateApp target (fun a : AppTuneRule =>
        -- an entry is untouched, or is the old target with the selected parts of the source
        { a with
          memoryGroup := if copyMemory then (if copyMemory then app.memoryGroup else none) else a.memoryGroup
          threads := if copyThreads then (if copyThreads then app.threads else []) else a.threads }) c.apps,
        b.Valid ∧ ∀ g ∈ b.memoryGroup, g ∈ c.memoryGroups.map (·.name) := by
      intro b hb
      rcases mem_updateApp hb with hb | ⟨a, ha, _, rfl⟩
      · exact ⟨hc.apps b hb, hc.references b hb⟩
      · have hold := hc.apps a ha
        refine ⟨⟨hold.pkg, ?_, ?_, ?_⟩, ?_⟩
        · cases copyMemory
          · exact hold.memoryGroup
          · exact hvalid.memoryGroup
        · cases copyThreads
          · exact hold.threads
          · exact hvalid.threads
        · have := selected_used hcat hm ht a.memoryGroup a.threads
          cases copyMemory <;> cases copyThreads <;> exact this
        · cases copyMemory
          · exact hc.references a ha
          · exact hc.references app happ
    refine ⟨hc.groups, hc.groupNames, fun b hb => (hmem b hb).1, ?_, fun b hb => (hmem b hb).2⟩
    show (List.map _ (updateApp _ _ _)).Nodup
    rw [updateApp_pkgs]
    · exact hc.packages
    · intro a
      rfl
  · next hnone =>
    cases h
    -- a new entry: its name is not in the list
    have hfresh : ∀ a ∈ c.apps, a.pkg ≠ target := by
      intro a ha
      simpa using List.find?_eq_none.mp hnone a ha
    have hused := selected_used hcat hm ht none []
    refine ⟨hc.groups, hc.groupNames, ?_, ?_, ?_⟩
    · intro b hb
      rcases List.mem_append.mp hb with hb | hb
      · exact hc.apps b hb
      · rw [List.mem_singleton.mp hb]
        refine ⟨htarget, ?_, ?_, hused⟩
        · cases copyMemory
          · rintro g ⟨⟩
          · exact hvalid.memoryGroup
        · cases copyThreads
          · rintro r ⟨⟩
          · exact hvalid.threads
    · rw [List.map_append, List.map_singleton, List.nodup_append]
      refine ⟨hc.packages, List.nodup_singleton _, ?_⟩
      intro p hp q hq
      obtain ⟨a, ha, rfl⟩ := List.mem_map.mp hp
      rw [List.mem_singleton.mp hq]
      exact hfresh a ha
    · intro b hb
      rcases List.mem_append.mp hb with hb | hb
      · exact hc.references b hb
      · rw [List.mem_singleton.mp hb]
        cases copyMemory
        · rintro g ⟨⟩
        · exact hc.references app happ

theorem ruleCloneApiArgs_target {body : Option Value} {args : CloneArgs}
    (h : ruleCloneApiArgs body = .ok args) : Checked packageNameOk args.target := by
  unfold ruleCloneApiArgs at h
  cases body with
  | none => cases h
  | some v =>
    dsimp only at h
    generalize hs : (v.index "source".toList).asStr.map trim = s at h
    generalize ht : (v.index "target".toList).asStr.map trim = t at h
    cases s with
    | none => cases h
    | some s =>
      cases t with
      | none => cases h
      | some t =>
        obtain ⟨t', _, rfl⟩ := Option.map_eq_some_iff.mp ht
        dsimp only at h
        split at h
        · cases h
        split at h
        · cases h
        split at h
        · cases h
        next hnames =>
        cases h
        refine ⟨trim_trim t', ?_⟩
        rw [Bool.or_eq_true, not_or] at hnames
        simpa only [Bool.not_eq_true', Bool.not_eq_false] using hnames.2

/-! ## The two operations -/

/-- The document in the file reads as the configuration in memory. -/
def InStep (store : TuningStore) : Prop := configFromValue store.file = .ok store.config

/-- `write_config` followed by `replace_config`: both change, to the same configuration, or neither. -/
theorem save_cases (path : Str) (io : WriteIo) (config : TuningConfig) (store : TuningStore) :
    (∃ e, writeConfig path io config store = (.error e, store)) ∨
      writeConfig path io config store = (.ok (), { store with file := configValue config }) := by
  unfold writeConfig
  split
  · exact .inl ⟨_, rfl⟩
  · exact .inr rfl

theorem replaceAndSave_cases (path : Str) (io : WriteIo) (config : TuningConfig) (store : TuningStore) :
    (∃ e, replaceAndSave path io config store = (.error e, store)) ∨
      replaceAndSave path io config store
        = (.ok (), replaceConfig config { store with file := configValue config }) := by
  unfold replaceAndSave
  rcases save_cases path io config store with ⟨e, h⟩ | h
  · rw [h]
    exact .inl ⟨e, rfl⟩
  · rw [h]
    exact .inr rfl

theorem cloneApp_cases (path : Str) (io : WriteIo) (source target : Str) (copyMemory copyThreads : Bool)
    (store : TuningStore) :
    (∃ e, cloneApp path io source target copyMemory copyThreads store = (.error e, store)) ∨
      ∃ next, cloneAppConfig store.config source target copyMemory copyThreads = .ok next ∧
        cloneApp path io source target copyMemory copyThreads store
          = (.ok (), replaceConfig next { store with file := configValue next }) := by
  unfold cloneApp
  cases hc : cloneAppConfig store.config source target copyMemory copyThreads with
  | error e => exact .inl ⟨e, rfl⟩
  | ok next =>
    dsimp only
    rcases save_cases path io next store with ⟨e, h⟩ | h
    · rw [h]
      exact .inl ⟨e, rfl⟩
    · rw [h]
      exact .inr ⟨next, rfl, rfl⟩

/-- **One operation**: it fails and changes nothing, or it succeeds with a valid configuration in the file
    and in memory. -/
theorem runOp_cases (path : Str) {store : TuningStore} (hstore : InStep store) {op : TuningOp}
    (hop : op.Admitted) :
    (∃ e, runOp path store op = (.error e, store)) ∨
      ∃ next : TuningConfig, next.Valid ∧
        runOp path store op = (.ok (), replaceConfig next { store with file := configValue next }) := by
  cases hop with
  | @replaceAndSave value config io h =>
    rcases replaceAndSave_cases path io config store with he | hok
    · exact .inl he
    · exact .inr ⟨config, configFromValue_valid h, hok⟩
  | @cloneApp body args io h hcat =>
    rcases cloneApp_cases path io args.source args.target args.tuningMemory args.tuningThreads store with
      he | ⟨next, hnext, hok⟩
    · exact .inl he
    · have hvalid : next.Valid :=
        cloneAppConfig_valid (configFromValue_valid hstore) (ruleCloneApiArgs_target h) hcat hnext
      exact .inr ⟨next, hvalid, hok⟩

theorem tuningStep_inStep (path : Str) (store : TuningStore) (op : TuningOp) (hstore : InStep store)
    (hop : op.Admitted) : InStep (tuningStep path store op).1 := by
  show InStep (runOp path store op).2
  rcases runOp_cases path hstore hop with ⟨e, h⟩ | ⟨next, hvalid, h⟩
  · rw [h]
    exact hstore
  · rw [h]
    exact configFromValue_print hvalid

/-- **The store and its file agree after every operation**, and an operation that returns an error has
    changed neither of them. -/
theorem tuning_store_agrees (path : Str) (store : TuningStore) (hstore : InStep store) (ops : List TuningOp)
    (hops : ∀ op ∈ ops, op.Admitted) :
    InStep (Mealy.final (tuningStep path) store ops) ∧
      ∀ op, op.Admitted → ∀ e, (runOp path (Mealy.final (tuningStep path) store ops) op).1 = .error e →
        (runOp path (Mealy.final (tuningStep path) store ops) op).2
          = Mealy.final (tuningStep path) store ops := by
  have hfinal : InStep (Mealy.final (tuningStep path) store ops) :=
    Mealy.invariant (tuningStep_inStep path) (Mealy.along_of_forall hops) hstore
  refine ⟨hfinal, fun op hop e he => ?_⟩
  rcases runOp_cases path hfinal hop with ⟨e', h⟩ | ⟨next, _, h⟩
  · rw [h]
  · rw [h] at he
    cases he

/-- One memory group and one app that uses it. -/
def oneAppConfig : TuningConfig where
  memoryGroups := [⟨"bg".toList, "apps/\x7buid\x7d".toList, some 60, none, none, some "536870912".toList, none, none⟩]
  apps := [⟨"com.a".toList, some "bg".toList, []⟩]

theorem tuning_store_agrees_clone :
    InStep (Mealy.final (tuningStep "t.json".toList) ⟨configValue oneAppConfig, oneAppConfig, [], []⟩
      [.cloneApp "com.a".toList "com.b".toList true false {},
        .replaceAndSave oneAppConfig { rename := some "EROFS".toList }]) := by
  have hread : configFromValue (configValue oneAppConfig) = .ok oneAppConfig := by decide +kernel
  have hclone : ruleCloneApiArgs (some (.object [("source".toList, .string "com.a".toList),
      ("target".toList, .string "com.b".toList), ("tuning_memory".toList, .bool true)]))
      = .ok ⟨"com.a".toList, "com.b".toList, false, false, true, false⟩ := by decide +kernel
  have hstart : InStep ⟨configValue oneAppConfig, oneAppConfig, [], []⟩ := hread
  refine (tuning_store_agrees _ _ hstart _ ?_).1
  intro op hop
  rcases List.mem_cons.mp hop with rfl | hop
  · exact .cloneApp {} hclone rfl
  · rw [List.mem_singleton.mp hop]
    exact .replaceAndSave _ hread

end AppOptR
