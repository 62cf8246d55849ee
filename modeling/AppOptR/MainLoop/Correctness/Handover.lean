import AppOptR.MainLoop

/-!
# `MainLoop.Correctness.Handover` — falling back to `/proc` with a full scan

When the loop drops its eBPF state or takes a new configuration, what the `/proc` side knows is out of
date until a scan. The log is watched for it: `owed` says that there has been a drop or an update, and no
scan since. Every phase of an iteration pays what it owes, by a full scan of its own or by setting
`scan_all_proc`, except the reload of the eBPF side when it fails: that branch starts the next iteration
with the `/proc` state as it was. Where this state happens to be fresh, or is not there yet, nothing is
lost (`no_stale_sync`).
-/

namespace AppOptR

open Text

/-- The event makes what the `/proc` side knows out of date. -/
def LoopEvent.Resets (e : LoopEvent) : Prop := e = .consumed ∨ e = .dropped

/-- The event ends that. -/
def LoopEvent.Rebuilds (e : LoopEvent) : Prop := e = .fullScan ∨ ∃ scanAllProc, e = .cacheSync scanAllProc

/-- The monitor: whether a scan is owed. -/
def owedStep (_owed : Bool) : LoopEvent → Bool × List Unit
  | .consumed | .dropped => (true, [])
  | .fullScan | .cacheSync _ => (false, [])

/-- Its demand: a scan that is owed looks at everything. -/
def PaysAll (owed : Bool) (e : LoopEvent) : Prop :=
  ∀ scanAllProc, e = .cacheSync scanAllProc → owed = true → scanAllProc = true

/-- The `/proc` state, if there is one, is to look at everything. -/
def Ready (s : MainState) : Prop := ∀ p, s.proc = some p → p.scanAllProc = true

/-- The invariant between iterations: while a scan is owed there is no eBPF state, and the `/proc` state is
    ready. -/
structure HandedOver (owed : Bool) (s : MainState) : Prop where
  configured : s.currentConfig.isSome
  ready : owed = true → s.ebpf = none ∧ Ready s

/-- The invariant within one: an update that has been taken is not yet paid for. -/
structure Pending (configChanged owed : Bool) (s : MainState) : Prop where
  configured : s.currentConfig.isSome
  ready : owed = true → configChanged = true ∨ (s.ebpf = none ∧ Ready s)

/-- The log of a phase meets the demand, and the phase leaves `I`. -/
def Keeps (I : Bool → MainState → Prop) (owed : Bool) (out : MainState × List LoopEvent) : Prop :=
  Mealy.Along owedStep PaysAll owed out.2 ∧ I (Mealy.final owedStep owed out.2) out.1

/-- Every configuration update and every drop of the eBPF state is followed, before any full scan or other
    `cache_sync`, by a `cache_sync` that looks at everything, or by none. -/
def NoStaleSync (log : List LoopEvent) : Prop :=
  ∀ pre e mid scanAllProc post, log = pre ++ e :: (mid ++ .cacheSync scanAllProc :: post) → e.Resets →
    (∀ x ∈ mid, ¬ x.Rebuilds) → scanAllProc = true

section
variable (fnmatch : Str → Str → Bool)

/-- The iteration comes to the `need_reload` branch. -/
def ReachesReload (s : MainState) (i : LoopInput) : Prop :=
  ∃ cfg, (takeUpdate i s).1.currentConfig = some cfg ∧
    needsReload i (takeUpdate i s).2 (retryEbpf fnmatch i cfg (forceProc i (takeUpdate i s).1).1).1 = true

/-- A reload of the eBPF side that fails finds no `/proc` state, or one that is to look at everything. -/
def ReloadsReady (s : MainState) (i : LoopInput) : Prop :=
  ReachesReload fnmatch s i → i.reinit ≠ some false → Ready s

end

section
variable {fnmatch : Str → Str → Bool} {i : LoopInput} {cfg : AppConfig} {configChanged owed : Bool}
  {s : MainState}

theorem Keeps.append {I J : Bool → MainState → Prop} {a b : MainState × List LoopEvent}
    (h₁ : Keeps I owed a) (h₂ : ∀ owed', I owed' a.1 → Keeps J owed' b) :
    Keeps J owed (b.1, a.2 ++ b.2) := by
  obtain ⟨hpays, hleaves⟩ := h₁
  obtain ⟨hpays', hleaves'⟩ := h₂ _ hleaves
  refine ⟨Mealy.along_append.mpr ⟨hpays, hpays'⟩, ?_⟩
  rw [Mealy.final_append]
  exact hleaves'

/-- A phase that logs nothing. -/
theorem Keeps.silent {I : Bool → MainState → Prop} (h : I owed s) : Keeps I owed (s, []) := ⟨trivial, h⟩

/-- A demand is only made of `cache_sync`. -/
theorem paysAll_other {e : LoopEvent} (h : ∀ b, e ≠ .cacheSync b) : PaysAll owed e :=
  fun b he _ => absurd he (h b)

theorem ready_rearm : Ready (rearm s) := by
  rintro p ⟨⟩
  rfl

/-! ## The phases -/

theorem foldl_publish (acts : List EnvAct) (s : MainState) :
    (acts.foldl publish s).ebpf = s.ebpf ∧ (acts.foldl publish s).proc = s.proc ∧
      (s.currentConfig.isSome → (acts.foldl publish s).currentConfig.isSome) := by
  induction acts generalizing s with
  | nil => exact ⟨rfl, rfl, fun h => h⟩
  | cons act acts ih =>
    obtain ⟨hebpf, hproc, hconfig⟩ := ih (publish s act)
    rw [List.foldl_cons, hebpf, hproc]
    cases act with
    | storeConfig cfg => exact ⟨rfl, rfl, fun _ => hconfig rfl⟩
    | setUpdated => exact ⟨rfl, rfl, hconfig⟩
    | clearGaveUp => exact ⟨rfl, rfl, hconfig⟩

theorem takeUpdate_spec (i : LoopInput) (s : MainState) :
    (takeUpdate i s).1.ebpf = s.ebpf ∧ (takeUpdate i s).1.proc = s.proc ∧
      (s.currentConfig.isSome → (takeUpdate i s).1.currentConfig.isSome) := by
  unfold takeUpdate
  obtain ⟨hebpf, hproc, hconfig⟩ := foldl_publish i.beforeSwap s
  obtain ⟨hebpf', hproc', hconfig'⟩ := foldl_publish i.beforeRead
    { i.beforeSwap.foldl publish s with configUpdated := false }
  exact ⟨hebpf'.trans hebpf, hproc'.trans hproc, fun h => hconfig' (hconfig h)⟩

theorem takeUpdate_keeps (h : HandedOver owed s) :
    Keeps (Pending (takeUpdate i s).2) owed
      ((takeUpdate i s).1, if (takeUpdate i s).2 then [.consumed] else []) := by
  obtain ⟨hebpf, hproc, hconfig⟩ := takeUpdate_spec i s
  have hready : owed = true → (takeUpdate i s).1.ebpf = none ∧ Ready (takeUpdate i s).1 := by
    intro howed
    obtain ⟨hnone, hr⟩ := h.ready howed
    exact ⟨hebpf.trans hnone, fun p hp => hr p (hproc ▸ hp)⟩
  cases hchanged : (takeUpdate i s).2 with
  | false => exact Keeps.silent ⟨hconfig h.configured, fun howed => Or.inr (hready howed)⟩
  | true =>
    refine ⟨⟨paysAll_other (by simp), trivial⟩, hconfig h.configured, fun _ => Or.inl rfl⟩

theorem forceProc_keeps (h : Pending configChanged owed s) :
    Keeps (Pending configChanged) owed (forceProc i s) := by
  unfold forceProc
  split
  · exact ⟨⟨paysAll_other (by simp), trivial⟩, h.configured, fun _ => Or.inr ⟨rfl, ready_rearm⟩⟩
  · exact Keeps.silent h

theorem retryEbpf_keeps (h : Pending configChanged owed s) :
    Keeps (Pending configChanged) owed (retryEbpf fnmatch i cfg s) := by
  unfold retryEbpf
  split
  · split
    · exact ⟨⟨paysAll_other (by simp), trivial⟩, h.configured, fun howed => by cases howed⟩
    · split
      · exact Keeps.silent ⟨h.configured, h.ready⟩
      · exact Keeps.silent h
  · exact Keeps.silent h

theorem reload_keeps (h : Pending configChanged owed s) (hready : i.reinit ≠ some false → Ready s) :
    Keeps HandedOver owed (reload fnmatch i cfg s) := by
  have hdrop : PaysAll owed .dropped := paysAll_other (by simp)
  unfold reload
  split
  · exact ⟨⟨hdrop, paysAll_other (by simp), trivial⟩, h.configured, fun howed => by cases howed⟩
  · next hfailed => exact ⟨⟨hdrop, trivial⟩, h.configured, fun _ => ⟨rfl, hready hfailed⟩⟩

/-- After the eBPF side has had its turn, a scan is owed only in `/proc` mode. -/
theorem refresh_keeps (h : Pending configChanged owed s)
    (hreload : needsReload i configChanged s = false) :
    Keeps (fun owed s' => Pending configChanged owed s' ∧ (owed = true → s'.ebpf = none)) owed
      (refresh fnmatch i cfg configChanged s) := by
  unfold refresh
  cases hebpf : s.ebpf with
  | none => exact Keeps.silent ⟨h, fun _ => hebpf⟩
  | some es =>
    dsimp only
    split
    · exact ⟨⟨paysAll_other (by simp), trivial⟩, ⟨h.configured, fun howed => by cases howed⟩,
        fun howed => by cases howed⟩
    · next hno =>
      -- no update, then: nothing is owed while the eBPF side runs
      have hchanged : configChanged = false := by
        rw [needsReload, hebpf] at hreload
        cases configChanged with
        | false => rfl
        | true => simp_all
      refine Keeps.silent ⟨h, fun howed => ?_⟩
      rcases h.ready howed with hc | ⟨hnone, _⟩
      · rw [hchanged] at hc
        cases hc
      · exact hnone

theorem work_keeps (h : Pending configChanged owed s) (hproc : owed = true → s.ebpf = none) :
    Keeps HandedOver owed (work fnmatch i cfg configChanged s) := by
  unfold work
  cases hebpf : s.ebpf with
  | some es =>
    -- an event loop that runs owes no scan
    have hpaid : owed = false := by
      cases owed with
      | false => rfl
      | true =>
        rw [hproc rfl] at hebpf
        cases hebpf
    dsimp only
    split
    · exact ⟨⟨paysAll_other (by simp), trivial⟩, h.configured, fun _ => ⟨rfl, ready_rearm⟩⟩
    · refine Keeps.silent ⟨h.configured, fun howed => ?_⟩
      rw [hpaid] at howed
      cases howed
  | none =>
    refine ⟨⟨?_, trivial⟩, h.configured, fun howed => by cases howed⟩
    rintro scanAllProc ⟨⟩ howed
    unfold enterProc
    rcases h.ready howed with hc | ⟨_, hready⟩
    · rw [hc]
      rfl
    · -- an old state is ready, a new one always is
      dsimp only
      split
      · rfl
      · cases hp : s.proc with
        | none => rfl
        | some p => exact hready p hp

/-! ## The run -/

theorem forceProc_ready (h : Ready s) : Ready (forceProc i s).1 := by
  unfold forceProc
  split
  · exact ready_rearm
  · exact h

theorem retryEbpf_ready (h : Ready s) : Ready (retryEbpf fnmatch i cfg s).1 := by
  unfold retryEbpf
  split
  · split
    · exact h
    · split <;> exact h
  · exact h

theorem loopBody_keeps (h : Pending configChanged owed s)
    (hready : needsReload i configChanged (retryEbpf fnmatch i cfg (forceProc i s).1).1 = true →
      i.reinit ≠ some false → Ready s) :
    Keeps HandedOver owed (loopBody fnmatch i cfg configChanged s) := by
  have hforced := forceProc_keeps (i := i) h
  have hforced_ready : Ready s → Ready (forceProc i s).1 := forceProc_ready
  unfold loopBody
  generalize forceProc i s = f at *
  have hretried : ∀ owed', Pending configChanged owed' f.1 →
      Keeps (Pending configChanged) owed' (retryEbpf fnmatch i cfg f.1) := fun _ => retryEbpf_keeps
  have hretried_ready : Ready f.1 → Ready (retryEbpf fnmatch i cfg f.1).1 := retryEbpf_ready
  dsimp only
  generalize retryEbpf fnmatch i cfg f.1 = r at *
  rw [List.append_assoc]
  refine hforced.append (b := (_, r.2 ++ _)) fun owed₂ h₂ => (hretried owed₂ h₂).append fun owed₃ h₃ => ?_
  by_cases hreload : needsReload i configChanged r.1 = true
  · rw [if_pos hreload]
    exact reload_keeps h₃ fun hfailed => hretried_ready (hforced_ready (hready hreload hfailed))
  · rw [if_neg hreload]
    exact (refresh_keeps h₃ (by simpa using hreload)).append fun owed₄ h₄ => work_keeps h₄.1 h₄.2

/-- **The step lemma**: an iteration whose failed reload finds the `/proc` state ready hands over. -/
theorem loopStep_keeps (owed : Bool) (s : MainState) (i : LoopInput) (h : HandedOver owed s)
    (hready : ReloadsReady fnmatch s i) : Keeps HandedOver owed (loopStep fnmatch s i) := by
  have htaken := takeUpdate_keeps (i := i) h
  obtain ⟨_, hproc, hconfig⟩ := takeUpdate_spec i s
  unfold loopStep
  dsimp only
  cases hcfg : (takeUpdate i s).1.currentConfig with
  | none =>
    have hsome := hconfig h.configured
    rw [hcfg] at hsome
    cases hsome
  | some cfg =>
    refine htaken.append fun owed₁ h₁ => loopBody_keeps h₁ fun hreload hfailed => ?_
    have hold : Ready s := hready ⟨cfg, hcfg, hreload⟩ hfailed
    exact fun p hp => hold p (hproc ▸ hp)

/-- The monitor, read over a log: between a reset and a `cache_sync` with no scan in between, a scan is
    owed. -/
theorem final_owed {e : LoopEvent} {mid : List LoopEvent} (he : e.Resets)
    (hmid : ∀ x ∈ mid, ¬ x.Rebuilds) : Mealy.final owedStep owed (e :: mid) = true := by
  have hstay : ∀ mid : List LoopEvent, (∀ x ∈ mid, ¬ x.Rebuilds) → Mealy.final owedStep true mid = true := by
    intro mid
    induction mid with
    | nil => exact fun _ => rfl
    | cons x mid ih =>
      intro hmid
      have hx := hmid x (List.mem_cons_self ..)
      have hstep : (owedStep true x).1 = true := by
        cases x with
        | consumed => rfl
        | dropped => rfl
        | fullScan => exact absurd (Or.inl rfl) hx
        | cacheSync b => exact absurd (Or.inr ⟨b, rfl⟩) hx
      rw [Mealy.final_cons, hstep]
      exact ih fun y hy => hmid y (List.mem_cons_of_mem _ hy)
  have hreset : (owedStep owed e).1 = true := by
    rcases he with rfl | rfl <;> rfl
  rw [Mealy.final_cons, hreset]
  exact hstay mid hmid

theorem noStaleSync_of_pays {log : List LoopEvent} (h : Mealy.Along owedStep PaysAll false log) :
    NoStaleSync log := by
  rintro pre e mid scanAllProc post rfl he hmid
  rw [show pre ++ e :: (mid ++ .cacheSync scanAllProc :: post)
      = (pre ++ e :: mid) ++ .cacheSync scanAllProc :: post by simp] at h
  have hpays := Mealy.along_at h
  rw [Mealy.final_append, final_owed he hmid] at hpays
  exact hpays scanAllProc rfl rfl

/-- **No configuration update is lost** in any run of the loop in which a reload of the eBPF side that
    fails finds no `/proc` state, or one that is to look at everything. -/
theorem no_stale_sync (cfg : AppConfig) (mode : ModeForce) (initOk : Bool) (inputs : List LoopInput)
    (hrun : Mealy.Along (loopStep fnmatch) (ReloadsReady fnmatch) (mainStart cfg mode initOk) inputs) :
    NoStaleSync (Mealy.emit (loopStep fnmatch) (mainStart cfg mode initOk) inputs) :=
  noStaleSync_of_pays (Mealy.emit_along loopStep_keeps hrun ⟨rfl, fun howed => by cases howed⟩)

end

/-! ## A reload that fails -/

/-- An iteration in which nothing happens. -/
def quietInput : LoopInput where
  beforeSwap := []
  beforeRead := []
  mode := .auto
  tuning := {}
  retryDue := false
  retryInit := none
  retryScan := none
  overflow := false
  refreshScan := none
  reinit := none
  reinitScan := none
  received := .timeout
  checkDue := false
  checkSys := .calm
  sync := { procs := some 1, kill := fun _ => none, table := none }

/-- A configuration that does not fit the kernel's map at the start, with a failed reload; a return to eBPF that
    breaks at once; and a new configuration while `/proc` is read. -/
def handedOver : List LoopInput :=
  [{ quietInput with overflow := true }, quietInput,
   { quietInput with retryDue := true, retryInit := some false, received := .disconnected },
   { quietInput with beforeSwap := [.storeConfig oneRule, .setUpdated] }]

theorem no_stale_sync_handed_over :
    NoStaleSync (Mealy.emit (loopStep (· == ·)) (mainStart oneRule .auto true) handedOver) ∧
      Mealy.emit (loopStep (· == ·)) (mainStart oneRule .auto true) handedOver
        = [.consumed, .dropped, .cacheSync true, .fullScan, .dropped, .consumed, .cacheSync true] := by
  refine ⟨no_stale_sync oneRule .auto true handedOver ⟨?_, ?_, ?_, ?_, trivial⟩, by decide +kernel⟩
  · exact fun _ _ p hp => by cases hp
  · exact fun _ _ p hp => by cases hp
  · rintro ⟨cfg, -, hreload⟩
    simp [needsReload, quietInput] at hreload
  · rintro ⟨cfg, -, hreload⟩
    simp [needsReload, quietInput] at hreload

/-- The event channel breaks, `/proc` is scanned once, eBPF comes back, and then a configuration arrives
    that does not fit the kernel's map, and the reload fails. -/
def failedReload : List LoopInput :=
  [{ quietInput with received := .disconnected }, quietInput,
   { quietInput with retryDue := true, retryInit := some false },
   { quietInput with beforeSwap := [.storeConfig oneRule, .setUpdated], overflow := true }, quietInput]

theorem failedReload_log :
    Mealy.emit (loopStep (· == ·)) (mainStart oneRule .auto true) failedReload
      = [.consumed, .fullScan, .dropped, .cacheSync true, .fullScan, .consumed, .dropped,
         .cacheSync false] := by
  decide +kernel

/-- The new configuration is lost: `cache_sync` goes on from what the first scan found. -/
theorem update_lost :
    ¬ NoStaleSync (Mealy.emit (loopStep (· == ·)) (mainStart oneRule .auto true) failedReload) := by
  rw [failedReload_log]
  intro h
  have hall := h [.consumed, .fullScan, .dropped, .cacheSync true, .fullScan, .consumed] .dropped [] false []
    rfl (Or.inr rfl) (by simp)
  cases hall

end AppOptR
