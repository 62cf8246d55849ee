import AppOptR.Tuning.Correctness.Agreement

/-!
# `Tuning.Correctness.CloneExact` — what `clone_app_config` does and when

A clone needs a source with every selected category and a target with none of them (`Clonable`). It then changes
the entry of the target alone, in place or at the end, and in it the selected categories alone (`ClonedConfig`).
-/

namespace AppOptR

open Text Json

variable {c : TuningConfig} {source target : Str} {copyMemory copyThreads : Bool} {apps : List AppTuneRule}
  {f : AppTuneRule → AppTuneRule}

/-- The entry of a package. -/
def appOf (c : TuningConfig) (pkg : Str) : Option AppTuneRule := c.apps.find? (·.pkg = pkg)

/-- The entry has every selected category. -/
def HasSelected (copyMemory copyThreads : Bool) (app : AppTuneRule) : Prop :=
  (copyMemory = true → app.memoryGroup ≠ none) ∧ (copyThreads = true → app.threads ≠ [])

/-- The entry has none of the selected categories. -/
def LacksSelected (copyMemory copyThreads : Bool) (app : AppTuneRule) : Prop :=
  (copyMemory = true → app.memoryGroup = none) ∧ (copyThreads = true → app.threads = [])

instance (copyMemory copyThreads : Bool) (app : AppTuneRule) : Decidable (HasSelected copyMemory copyThreads app) :=
  inferInstanceAs (Decidable (_ ∧ _))

instance (copyMemory copyThreads : Bool) (app : AppTuneRule) : Decidable (LacksSelected copyMemory copyThreads app) :=
  inferInstanceAs (Decidable (_ ∧ _))

/-- When a clone is possible. -/
structure Clonable (c : TuningConfig) (source target : Str) (copyMemory copyThreads : Bool) : Prop where
  differ : source ≠ target
  has : ∃ app ∈ c.apps, app.pkg = source ∧ HasSelected copyMemory copyThreads app
  lacks : ∀ app ∈ c.apps, app.pkg = target → LacksSelected copyMemory copyThreads app

/-- What a clone does. -/
structure ClonedConfig (c next : TuningConfig) (source target : Str) (copyMemory copyThreads : Bool) : Prop where
  groups : next.memoryGroups = c.memoryGroups
  others : (next.apps.filter fun app => app.pkg ≠ target) = c.apps.filter fun app => app.pkg ≠ target
  order : next.apps.map (·.pkg)
    = if target ∈ c.apps.map (·.pkg) then c.apps.map (·.pkg) else c.apps.map (·.pkg) ++ [target]
  cloned : ∃ s ∈ c.apps, s.pkg = source ∧ ∃ t ∈ next.apps, t.pkg = target ∧
    t.memoryGroup = (if copyMemory then s.memoryGroup else (appOf c target).bind (·.memoryGroup)) ∧
    t.threads = if copyThreads then s.threads else ((appOf c target).map (·.threads)).getD []
  packages : (next.apps.map (·.pkg)).Nodup
  references : ∀ app ∈ next.apps, ∀ g ∈ app.memoryGroup, g ∈ next.memoryGroups.map (·.name)

/-! ## Entries by package -/

/-- In a valid configuration a package has one entry. -/
theorem appOf_unique (hc : (c.apps.map (·.pkg)).Nodup) {a : AppTuneRule} (ha : a ∈ c.apps) :
    appOf c a.pkg = some a := by
  unfold appOf
  generalize c.apps = apps at hc ha
  induction apps with
  | nil => cases ha
  | cons b apps ih =>
    rw [List.map_cons, List.nodup_cons] at hc
    rcases List.mem_cons.mp ha with rfl | ha
    · exact List.find?_cons_of_pos (by simp)
    · have hne : b.pkg ≠ a.pkg := fun he => hc.1 (he ▸ List.mem_map_of_mem ha)
      rw [List.find?_cons_of_neg (by simpa using hne)]
      exact ih hc.2 ha

theorem appOf_mem {pkg : Str} {a : AppTuneRule} (h : appOf c pkg = some a) : a ∈ c.apps ∧ a.pkg = pkg :=
  ⟨List.mem_of_find?_eq_some h, by simpa using List.find?_some h⟩

theorem appOf_none {pkg : Str} : appOf c pkg = none ↔ pkg ∉ c.apps.map (·.pkg) := by
  unfold appOf
  rw [List.find?_eq_none]
  simp

/-- The other entries of an updated list. -/
theorem updateApp_others (hf : ∀ a, (f a).pkg = a.pkg) :
    ((updateApp target f apps).filter fun app => app.pkg ≠ target) = apps.filter fun app => app.pkg ≠ target := by
  induction apps with
  | nil => rfl
  | cons a apps ih =>
    unfold updateApp
    split
    · next ha => rw [List.filter_cons_of_neg (by simp [hf, ha]), List.filter_cons_of_neg (by simp [ha])]
    · next ha => rw [List.filter_cons_of_pos (by simpa using ha), List.filter_cons_of_pos (by simpa using ha), ih]

/-- The updated entry is there. -/
theorem mem_updateApp_self {a : AppTuneRule} (h : apps.find? (·.pkg = target) = some a) :
    f a ∈ updateApp target f apps := by
  induction apps with
  | nil => cases h
  | cons b apps ih =>
    unfold updateApp
    by_cases hb : b.pkg = target
    · rw [List.find?_cons_of_pos (by simpa using hb), Option.some.injEq] at h
      rw [if_pos hb, h]
      exact List.mem_cons_self
    · rw [List.find?_cons_of_neg (by simpa using hb)] at h
      rw [if_neg hb]
      exact List.mem_cons_of_mem _ (ih h)

/-! ## The clone -/

theorem hasSelected_iff {app : AppTuneRule} :
    HasSelected copyMemory copyThreads app ↔
      ¬ (copyMemory && app.memoryGroup.isNone) = true ∧ ¬ (copyThreads && app.threads.isEmpty) = true := by
  unfold HasSelected
  cases copyMemory <;> cases copyThreads <;> simp

theorem lacksSelected_iff {app : AppTuneRule} :
    LacksSelected copyMemory copyThreads app ↔
      ¬ (copyMemory && app.memoryGroup.isSome) = true ∧ ¬ (copyThreads && !app.threads.isEmpty) = true := by
  unfold LacksSelected
  cases copyMemory <;> cases copyThreads <;> simp

/-- The entry a clone gives the target: what is selected from the source, the rest as it was. -/
def clonedApp (copyMemory copyThreads : Bool) (source old : AppTuneRule) : AppTuneRule :=
  { old with
    memoryGroup := if copyMemory then source.memoryGroup else old.memoryGroup
    threads := if copyThreads then source.threads else old.threads }

/-- **The result of a clone** that is possible. -/
theorem cloneAppConfig_ok (hpkgs : (c.apps.map (·.pkg)).Nodup) (h : Clonable c source target copyMemory copyThreads) :
    ∃ s ∈ c.apps, s.pkg = source ∧ cloneAppConfig c source target copyMemory copyThreads =
      .ok { c with
        apps := match appOf c target with
          | some _ => updateApp target (clonedApp copyMemory copyThreads s) c.apps
          | none =>
            c.apps ++
              [clonedApp copyMemory copyThreads s { pkg := target, memoryGroup := none, threads := [] }] } := by
  obtain ⟨hdiffer, ⟨s, hs, rfl, hhas⟩, hlacks⟩ := h
  refine ⟨s, hs, rfl, ?_⟩
  have hsource : c.apps.find? (·.pkg = s.pkg) = some s := appOf_unique hpkgs hs
  obtain ⟨hm, ht⟩ := hasSelected_iff.mp hhas
  unfold cloneAppConfig
  rw [if_neg hdiffer, hsource]
  dsimp only
  rw [if_neg hm, if_neg ht]
  unfold appOf
  cases hold : c.apps.find? (·.pkg = target) with
  | none =>
    have hnew : clonedApp copyMemory copyThreads s { pkg := target, memoryGroup := none, threads := [] }
        = { pkg := target, memoryGroup := if copyMemory then s.memoryGroup else none,
            threads := if copyThreads then s.threads else [] } := rfl
    rw [hnew]
  | some old =>
    obtain ⟨hold, hpkg⟩ := appOf_mem hold
    obtain ⟨hm', ht'⟩ := lacksSelected_iff.mp (hlacks old hold hpkg)
    dsimp only
    rw [if_neg hm', if_neg ht']
    congr
    funext app
    unfold clonedApp
    cases copyMemory <;> cases copyThreads <;> rfl

/-- **When a clone is refused.** -/
theorem cloneAppConfig_error (hpkgs : (c.apps.map (·.pkg)).Nodup)
    (h : ¬ Clonable c source target copyMemory copyThreads) :
    ∃ error, cloneAppConfig c source target copyMemory copyThreads = .error error := by
  unfold cloneAppConfig
  split
  · exact ⟨_, rfl⟩
  next hdiffer =>
  -- every refusal of the source is a clause of `Clonable` that fails
  split
  · exact ⟨_, rfl⟩
  next s hsource =>
  obtain ⟨hs, hpkg⟩ := appOf_mem (c := c) hsource
  dsimp only
  split
  · exact ⟨_, rfl⟩
  next hm =>
  split
  · exact ⟨_, rfl⟩
  next ht =>
  have hhas : HasSelected copyMemory copyThreads s := hasSelected_iff.mpr ⟨hm, ht⟩
  split
  · next old hold =>
    split
    · exact ⟨_, rfl⟩
    next hm' =>
    split
    · exact ⟨_, rfl⟩
    next ht' =>
    have hlacks : LacksSelected copyMemory copyThreads old := lacksSelected_iff.mpr ⟨hm', ht'⟩
    refine absurd ⟨hdiffer, ⟨s, hs, hpkg, hhas⟩, fun app happ hpkg' => ?_⟩ h
    -- there is no other entry of the target
    have hsame : appOf c target = some app := hpkg' ▸ appOf_unique hpkgs happ
    obtain rfl := Option.some.inj (hsame.symm.trans hold)
    exact hlacks
  · next hnone =>
    refine absurd ⟨hdiffer, ⟨s, hs, hpkg, hhas⟩, fun app happ hpkg' => ?_⟩ h
    have := List.find?_eq_none.mp hnone app happ
    exact absurd hpkg' (by simpa using this)

/-! ## What the clone changes -/

/-- The cloned entry keeps the package. -/
theorem clonedApp_pkg (s old : AppTuneRule) : (clonedApp copyMemory copyThreads s old).pkg = old.pkg := rfl

/-- A group the cloned entry names is one the source or the old entry named. -/
theorem clonedApp_group {s old : AppTuneRule} {g : Str} (h : g ∈ (clonedApp copyMemory copyThreads s old).memoryGroup) :
    g ∈ s.memoryGroup ∨ g ∈ old.memoryGroup := by
  cases copyMemory with
  | true => exact .inl h
  | false => exact .inr h

/-- The clone into an entry that exists. -/
theorem cloned_old {s old : AppTuneRule} (hvalid : c.Valid) (hs : s ∈ c.apps) (hold : appOf c target = some old) :
    ClonedConfig c { c with apps := updateApp target (clonedApp copyMemory copyThreads s) c.apps } s.pkg target
      copyMemory copyThreads := by
  obtain ⟨hmem, hpkg⟩ := appOf_mem hold
  have hpkgs : (updateApp target (clonedApp copyMemory copyThreads s) c.apps).map (·.pkg) = c.apps.map (·.pkg) :=
    updateApp_pkgs (fun old => clonedApp_pkg s old) c.apps
  refine ⟨rfl, updateApp_others fun old => clonedApp_pkg s old, ?_, ?_, ?_, ?_⟩
  · show (updateApp target (clonedApp copyMemory copyThreads s) c.apps).map (·.pkg) = _
    have hin : target ∈ c.apps.map (·.pkg) := List.mem_map.mpr ⟨old, hmem, hpkg⟩
    rw [if_pos hin, hpkgs]
  · refine ⟨s, hs, rfl, clonedApp copyMemory copyThreads s old, mem_updateApp_self hold, hpkg, ?_, ?_⟩
    · rw [hold]
      rfl
    · rw [hold]
      rfl
  · show ((updateApp target (clonedApp copyMemory copyThreads s) c.apps).map (·.pkg)).Nodup
    rw [hpkgs]
    exact hvalid.packages
  · intro app happ g hg
    rcases mem_updateApp happ with happ | ⟨a, ha, -, rfl⟩
    · exact hvalid.references app happ g hg
    · rcases clonedApp_group hg with hg | hg
      · exact hvalid.references s hs g hg
      · exact hvalid.references a ha g hg

/-- The clone into an entry added at the end. -/
theorem cloned_new {s : AppTuneRule} (hvalid : c.Valid) (hs : s ∈ c.apps) (hnone : appOf c target = none) :
    ClonedConfig c
      { c with
        apps := c.apps ++
          [clonedApp copyMemory copyThreads s { pkg := target, memoryGroup := none, threads := [] }] }
      s.pkg target copyMemory copyThreads := by
  have hfresh : target ∉ c.apps.map (·.pkg) := appOf_none.mp hnone
  refine ⟨rfl, ?_, ?_, ?_, ?_, ?_⟩
  · show (c.apps ++ [_]).filter _ = _
    rw [List.filter_append, List.filter_cons_of_neg (by simp [clonedApp_pkg]), List.filter_nil, List.append_nil]
  · show (c.apps ++ [_]).map _ = _
    rw [if_neg hfresh, List.map_append]
    rfl
  · refine ⟨s, hs, rfl, _, List.mem_append_right _ List.mem_cons_self, rfl, ?_, ?_⟩
    · rw [hnone]
      rfl
    · rw [hnone]
      rfl
  · show ((c.apps ++ [_]).map _).Nodup
    rw [List.map_append, List.map_singleton, clonedApp_pkg, List.nodup_append]
    refine ⟨hvalid.packages, List.nodup_singleton _, ?_⟩
    rintro p hp q hq rfl
    obtain rfl : p = target := List.mem_singleton.mp hq
    exact hfresh hp
  · intro app happ g hg
    rcases List.mem_append.mp happ with happ | happ
    · exact hvalid.references app happ g hg
    · rw [List.mem_singleton.mp happ] at hg
      rcases clonedApp_group hg with hg | hg
      · exact hvalid.references s hs g hg
      · cases hg

/-- **Cloning tuning categories is exact**, whatever the categories selected. -/
theorem clone_exact (value : Value) (c : TuningConfig) (source target : Str) (copyMemory copyThreads : Bool)
    (h : configFromValue value = .ok c) :
    ((∃ next, cloneAppConfig c source target copyMemory copyThreads = .ok next) ↔
        Clonable c source target copyMemory copyThreads) ∧
      ∀ next, cloneAppConfig c source target copyMemory copyThreads = .ok next →
        ClonedConfig c next source target copyMemory copyThreads := by
  have hvalid := configFromValue_valid h
  by_cases hclonable : Clonable c source target copyMemory copyThreads
  · obtain ⟨s, hs, rfl, hok⟩ := cloneAppConfig_ok hvalid.packages hclonable
    refine ⟨⟨fun _ => hclonable, fun _ => ⟨_, hok⟩⟩, fun next hnext => ?_⟩
    obtain rfl := Except.ok.inj (hok.symm.trans hnext)
    cases hold : appOf c target with
    | some old => exact cloned_old hvalid hs hold
    | none => exact cloned_new hvalid hs hold
  · obtain ⟨error, herr⟩ := cloneAppConfig_error hvalid.packages hclonable
    refine ⟨⟨fun ⟨next, hnext⟩ => ?_, fun hcl => absurd hcl hclonable⟩, fun next hnext => ?_⟩
    · rw [herr] at hnext
      cases hnext
    · rw [herr] at hnext
      cases hnext

/-- The memory group of one package cloned to a new one. -/
theorem clone_exact_memory :
    (((∃ next, cloneAppConfig oneAppConfig "com.a".toList "com.b".toList true false = .ok next) ↔
        Clonable oneAppConfig "com.a".toList "com.b".toList true false) ∧
      ∀ next, cloneAppConfig oneAppConfig "com.a".toList "com.b".toList true false = .ok next →
        ClonedConfig oneAppConfig next "com.a".toList "com.b".toList true false) ∧
    Clonable oneAppConfig "com.a".toList "com.b".toList true false := by
  have hread : configFromValue (configValue oneAppConfig) = .ok oneAppConfig := by decide +kernel
  exact ⟨clone_exact _ _ _ _ _ _ hread, by decide, by decide, by decide⟩

end AppOptR
