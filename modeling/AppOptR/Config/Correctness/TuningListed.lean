import AppOptR.Config.Reload
import AppOptR.Tuning.Correctness.Agreement

/-!
# `Config.Correctness.TuningListed` — the configuration lists what is tuned

A web request stores a configuration built from the tuning configuration it has just set. A reload of the
loader thread that read the tuning snapshots before that, and stores after it, puts the old packages back,
and nothing makes it look again: only the rules file's time is compared. Where no reload stores what it
read of an older tuning configuration, and the web request's own reload can read the rules file, the
configuration lists every tuned package whenever no web request is between its two stores
(`tuning_listed`).
-/

namespace AppOptR

open Text

/-- The published configuration lists every package of the tuning configuration, and every one with thread
    rules among those with thread rules. -/
def TuningListed (shared : Shared) : Prop :=
  appPackageNames shared.tuning.config ⊆ shared.current.pkgs ∧
    threadRulePackages shared.tuning.config ⊆ shared.current.hasThreadRules

/-- No reload is in flight, and none is due. -/
structure Quiet (w : ReloadWorld) : Prop where
  loader : w.loader = .idle
  web : w.web = none
  forceReload : w.forceReload = false
  inotify : w.inotifyPending = false
  mtime : w.shared.file.mtime = w.lastMtime

/-- The reload has its store still to come. -/
def ReloadPhase.ToStore : ReloadPhase → Prop
  | .begun _ | .read .. | .named .. | .tuned .. => True
  | .idle | .stored => False

/-- A web request has set the tuning configuration, and has its own store still to come. -/
def WebToStore (w : ReloadWorld) : Prop := ∃ phase mtime, w.web = some (.reloading phase mtime) ∧ phase.ToStore

/-- What the reload has read of the tuning configuration is not out of date. -/
def ReloadPhase.UpToDate (config : TuningConfig) : ReloadPhase → Prop
  | .named _ _ names => appPackageNames config ⊆ names
  | .tuned _ _ names threads => appPackageNames config ⊆ names ∧ threadRulePackages config ⊆ threads
  | .idle | .begun _ | .read .. | .stored => True

/-- The loader stores nothing out of date, unless a web request is to store after it; and a web request's
    reload can read the rules file. -/
def Timely (w : ReloadWorld) : ReloadAct → Prop
  | .loaderStep _ => ∀ topo content names threads, w.loader = .tuned topo content names threads →
      WebToStore w ∨ w.loader.UpToDate w.shared.tuning.config
  | .webStep env => ∀ topo mtime, w.web = some (.reloading (.begun topo) mtime) → env.readOk = true
  | _ => True

/-- The invariant. -/
structure Listed (w : ReloadWorld) : Prop where
  listed : WebToStore w ∨ TuningListed w.shared
  fresh : ∀ phase mtime, w.web = some (.reloading phase mtime) → phase.UpToDate w.shared.tuning.config
  forced : ∀ topo mtime, w.web = some (.reloading (.begun topo) mtime) → mtime = -1

section
variable {w : ReloadWorld} {path : Str}

/-- What is read up to date is stored up to date. -/
theorem tuningListed_store {shared : Shared} {createCpusetDir : Nat → Str → Bool} {topo : CpuTopology}
    {content : Str} {names threads : Finset Str}
    (h : (ReloadPhase.tuned topo content names threads).UpToDate shared.tuning.config) :
    TuningListed { shared with current := configOf createCpusetDir topo names threads content } :=
  ⟨h.1.trans Finset.subset_union_right, h.2.trans Finset.subset_union_right⟩

/-- A step of a reload changes neither the file nor the tuning configuration, and the published
    configuration only when it stores. -/
theorem reloadStep_shared (env : ReloadEnv) (shared : Shared) (phase : ReloadPhase) (lastMtime : Int) :
    (reloadStep env shared phase lastMtime).1.tuning = shared.tuning ∧
    ((∃ topo content names threads, phase = .tuned topo content names threads) ∨
      (reloadStep env shared phase lastMtime).1.current = shared.current) := by
  cases phase with
  | tuned topo content names threads => exact ⟨rfl, Or.inl ⟨_, _, _, _, rfl⟩⟩
  | begun topo =>
    simp only [reloadStep]
    split
    · exact ⟨rfl, Or.inr rfl⟩
    · split <;> exact ⟨rfl, Or.inr rfl⟩
  | _ => exact ⟨rfl, Or.inr rfl⟩

/-- A state that differs in nothing the invariant looks at. -/
theorem Listed.congr {w' : ReloadWorld} (h : Listed w) (hweb : w'.web = w.web)
    (htuning : w'.shared.tuning = w.shared.tuning) (hcurrent : w'.shared.current = w.shared.current) :
    Listed w' where
  listed := by
    rw [WebToStore, TuningListed, hweb, htuning, hcurrent]
    exact h.listed
  fresh phase mtime hw := by
    rw [htuning]
    exact h.fresh phase mtime (hweb ▸ hw)
  forced topo mtime hw := h.forced topo mtime (hweb ▸ hw)

theorem listed_loaderStep {env : ReloadEnv} (h : Listed w) (htimely : Timely w (.loaderStep env)) :
    Listed (w.loaderStep env) := by
  obtain ⟨htuning, hstore | hcurrent⟩ := reloadStep_shared env w.shared w.loader w.lastMtime
  · obtain ⟨topo, content, names, threads, hphase⟩ := hstore
    have hshared : (w.loaderStep env).shared
        = { w.shared with current := configOf env.createCpusetDir topo names threads content } := by
      unfold ReloadWorld.loaderStep
      rw [hphase]
      rfl
    refine ⟨?_, ?_, h.forced⟩
    · rcases htimely topo content names threads hphase with hweb | hnew
      · exact Or.inl hweb
      · right
        rw [hshared]
        rw [hphase] at hnew
        exact tuningListed_store hnew
    · rw [hshared]
      exact h.fresh
  · exact h.congr rfl htuning hcurrent

/-- A web request that is not to store leaves the configuration listed. -/
theorem Listed.of_web (h : Listed w) (hweb : ∀ phase mtime, w.web = some (.reloading phase mtime) →
    ¬ phase.ToStore) : TuningListed w.shared := by
  rcases h.listed with ⟨phase, mtime, hw, hstore⟩ | hlisted
  · exact absurd hstore (hweb phase mtime hw)
  · exact hlisted

/-- A state without a web request in its reload. -/
theorem listed_of_noReload (hlisted : TuningListed w.shared)
    (hweb : ∀ phase mtime, w.web ≠ some (.reloading phase mtime)) : Listed w where
  listed := Or.inr hlisted
  fresh phase mtime hw := absurd hw (hweb phase mtime)
  forced topo mtime hw := absurd hw (hweb (.begun topo) mtime)

theorem listed_webSave {config : TuningConfig} {io : WriteIo} (h : Listed w) :
    Listed (w.webSave path config io) := by
  unfold ReloadWorld.webSave
  split
  · next hweb =>
    have hlisted : TuningListed w.shared := h.of_web fun phase mtime hw => by
      rw [hweb] at hw
      cases hw
    rcases replaceAndSave_cases path io config w.shared.tuning with ⟨e, hr⟩ | hr
    · rw [hr]
      exact listed_of_noReload hlisted (by simp)
    · -- the request is to store
      rw [hr]
      refine ⟨Or.inl ⟨_, _, rfl, trivial⟩, ?_, ?_⟩
      · rintro phase mtime ⟨⟩
        trivial
      · rintro topo mtime ⟨⟩
        rfl
  · exact h

/-- A web request's reload after a step before its store. -/
theorem listed_reloading {phase : ReloadPhase} {mtime : Int} (hw : w.web = some (.reloading phase mtime))
    (hstore : phase.ToStore) (hfresh : phase.UpToDate w.shared.tuning.config)
    (hbegun : ∀ topo, phase ≠ .begun topo) : Listed w where
  listed := Or.inl ⟨phase, mtime, hw, hstore⟩
  fresh phase' mtime' hw' := by
    rw [hw] at hw'
    cases hw'
    exact hfresh
  forced topo mtime' hw' := by
    rw [hw] at hw'
    cases hw'
    exact absurd rfl (hbegun topo)

theorem listed_webStep {env : ReloadEnv} (h : Listed w) (htimely : Timely w (.webStep env)) :
    Listed (w.webStep env) := by
  unfold ReloadWorld.webStep
  split
  · next phase mtime hweb =>
    have hfresh := h.fresh phase mtime hweb
    have hpast : ¬ phase.ToStore → TuningListed w.shared := fun hno => h.of_web fun phase' mtime' hw => by
      rw [hweb] at hw
      cases hw
      exact hno
    cases phase with
    | idle => exact listed_of_noReload (hpast id) (by simp [reloadStep])
    | begun topo =>
      -- the file can be read, and its time is not compared
      have hread : env.readOk = true := htimely topo mtime hweb
      have hforced : mtime = -1 := h.forced topo mtime hweb
      have hstep : reloadStep env w.shared (.begun topo) mtime
          = (w.shared, .read topo w.shared.file.content, w.shared.file.mtime) := by
        simp [reloadStep, hread, hforced]
      rw [hstep]
      exact listed_reloading rfl trivial trivial (by simp)
    | read topo content => exact listed_reloading rfl trivial (Finset.Subset.refl _) (by simp)
    | named topo content names =>
      exact listed_reloading rfl trivial ⟨hfresh, Finset.Subset.refl _⟩ (by simp)
    | tuned topo content names threads =>
      refine ⟨Or.inr (tuningListed_store hfresh), ?_, ?_⟩
      · rintro phase mtime ⟨⟩
        trivial
      · rintro topo mtime ⟨⟩
    | stored => exact listed_of_noReload (hpast id) (by simp [reloadStep])
  · exact h

/-- **The step lemma.** -/
theorem listed_step (w : ReloadWorld) (act : ReloadAct) (h : Listed w) (htimely : Timely w act) :
    Listed (reloadWorldStep path w act).1 := by
  cases act with
  | editFile file notify => exact h.congr rfl rfl rfl
  | setForceReload => exact h.congr rfl rfl rfl
  | loaderForce =>
    simp only [reloadWorldStep]
    split
    · exact h.congr rfl rfl rfl
    · exact h
  | loaderInotify =>
    simp only [reloadWorldStep]
    split
    · exact h.congr rfl rfl rfl
    · exact h
  | loaderPoll =>
    simp only [reloadWorldStep]
    split
    · exact h.congr rfl rfl rfl
    · exact h
  | loaderStep env => exact listed_loaderStep h htimely
  | webBegin =>
    simp only [reloadWorldStep]
    split
    · next hnone =>
      have hlisted : TuningListed w.shared := h.of_web fun phase mtime hw => by
        rw [hw] at hnone
        cases hnone
      exact listed_of_noReload hlisted (by simp)
    · exact h
  | webSave config io => exact listed_webSave h
  | webStep env => exact listed_webStep h htimely

/-- **Concurrent reloads keep a tuning change**, in every interleaving in which the loader stores nothing
    out of date after the web request's own store, and the web request can read the rules file. -/
theorem tuning_listed (path : Str) (createCpusetDir : Nat → Str → Bool) (topo : CpuTopology)
    (file : RulesFile) (tuning : TuningStore) (acts : List ReloadAct)
    (hrun : Mealy.Along (reloadWorldStep path) Timely (reloadStart createCpusetDir topo file tuning) acts)
    (hquiet : Quiet (Mealy.final (reloadWorldStep path) (reloadStart createCpusetDir topo file tuning)
      acts)) :
    TuningListed (Mealy.final (reloadWorldStep path) (reloadStart createCpusetDir topo file tuning)
      acts).shared := by
  have hstart : Listed (reloadStart createCpusetDir topo file tuning) :=
    listed_of_noReload ⟨Finset.subset_union_right, Finset.subset_union_right⟩ (by simp [reloadStart])
  have hlisted := Mealy.invariant listed_step hrun hstart
  exact hlisted.of_web fun phase mtime hw => by
    rw [hquiet.web] at hw
    cases hw

end

/-! ## A reload that stores late -/

/-- A daemon with one package rule and an empty tuning configuration. -/
def plainStart : ReloadWorld :=
  reloadStart (fun _ _ => true) quadTopology { mtime := 1, content := "com.a=0\n".toList }
    { file := configValue {}, config := {} }

/-- A step of a reload on which everything succeeds. -/
def readsAll : ReloadEnv := { readOk := true, createCpusetDir := fun _ _ => true }

/-- A nice value for the threads of `com.b` that are called `T`. -/
def tuneB : TuningConfig where
  memoryGroups := []
  apps := [{ pkg := "com.b".toList, memoryGroup := none,
             threads := [{ pattern := "T".toList, uclampMin := none, uclampMax := none, nice := some (-5) }] }]

/-- The loader reads the file and the names, a web request sets `tuneB` and begins its reload, the loader reads the
    thread rules and stores, and the web request stores after it. -/
def caughtUp : List ReloadAct :=
  .loaderPoll :: List.replicate 2 (.loaderStep readsAll) ++ [.webBegin, .webSave tuneB {}] ++
    List.replicate 3 (.loaderStep readsAll) ++ List.replicate 5 (.webStep readsAll)

/-- The run `caughtUp`: `tuneB` is in memory, and listed. -/
theorem tuning_listed_caught_up :
    (Mealy.final (reloadWorldStep "AppOpt.tuning.json".toList) plainStart caughtUp).shared.tuning.config = tuneB ∧
    TuningListed (Mealy.final (reloadWorldStep "AppOpt.tuning.json".toList) plainStart caughtUp).shared := by
  refine ⟨rfl, tuning_listed _ _ _ _ _ _ ?_ ⟨rfl, rfl, rfl, rfl, rfl⟩⟩
  refine ⟨trivial, ?_, ?_, trivial, trivial, ?_, ?_, ?_, ?_, ?_, ?_, ?_, ?_, trivial⟩
  · rintro _ _ _ _ ⟨⟩
  · rintro _ _ _ _ ⟨⟩
  · rintro _ _ _ _ ⟨⟩
  · -- the names are out of date, and the web request is to store
    exact fun _ _ _ _ _ => .inl ⟨_, _, rfl, trivial⟩
  · rintro _ _ _ _ ⟨⟩
  · exact fun _ _ _ => rfl
  · rintro _ _ ⟨⟩
  · rintro _ _ ⟨⟩
  · rintro _ _ ⟨⟩
  · rintro _ _ ⟨⟩

/-- The loader reads the file and both snapshots, a web request sets `tuneB` and goes through all of its
    reload, and the loader stores. -/
def lateStore : List ReloadAct :=
  .loaderPoll :: List.replicate 3 (.loaderStep readsAll) ++
    (.webBegin :: .webSave tuneB {} :: List.replicate 5 (.webStep readsAll)) ++
    List.replicate 2 (.loaderStep readsAll)

/-- Everything is quiet, and the package of the tuning configuration is not listed. -/
theorem tuning_lost :
    Quiet (Mealy.final (reloadWorldStep "AppOpt.tuning.json".toList) plainStart lateStore) ∧
    ¬ TuningListed (Mealy.final (reloadWorldStep "AppOpt.tuning.json".toList) plainStart lateStore).shared := by
  refine ⟨⟨rfl, rfl, rfl, rfl, rfl⟩, ?_⟩
  rintro ⟨hnames, _⟩
  revert hnames
  decide +kernel

end AppOptR
