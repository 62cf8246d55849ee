import AppOptR.Tuning.Apply
import AppOptR.Tuning.Correctness.Restart

/-!
# `Tuning.Correctness.Warnings` — what the page shows of the failures

Every task that is tuned may warn, again and again of the same thing. `warn_once` keeps one message a key, and the
last twenty of them: over any calls since a profile was set, `runCalls` leaves exactly these and nothing else
(`runCalls_warned`), whatever the profile says and the system answers (`tasks_warned`).
-/

namespace AppOptR

open Text Json

variable {store : TuningStore} {log : List (Str × Str)} {key message : Str}

/-- The warnings that have counted so far are `log`; the page shows the end of it. -/
structure Warned (store : TuningStore) (log : List (Str × Str)) : Prop where
  keys : store.warningKeys = log.map (·.1)
  distinct : (log.map (·.1)).Nodup
  shown : store.warnings = (log.map (·.2)).drop (log.length - 20)

theorem warned_replaceConfig (config : TuningConfig) (store : TuningStore) : Warned (replaceConfig config store) [] :=
  ⟨rfl, List.nodup_nil, rfl⟩

/-- The page has at most twenty messages to show. -/
theorem Warned.short (h : Warned store log) : store.warnings.length ≤ 20 := by
  rw [h.shown, List.length_drop, List.length_map]
  omega

@[simp] theorem warnOnce_file (key message : Str) (store : TuningStore) :
    (warnOnce key message store).file = store.file := by
  unfold warnOnce
  split <;> rfl

/-- A key that has come before. -/
theorem warnOnce_seen (h : Warned store log) (hseen : key ∈ log.map (·.1)) : warnOnce key message store = store := by
  unfold warnOnce
  rw [if_pos (by rwa [h.keys, List.contains_iff_mem])]

/-- A new key: its message is shown, and the oldest of more than twenty is not any more. -/
theorem warnOnce_new (h : Warned store log) (hnew : key ∉ log.map (·.1)) :
    Warned (warnOnce key message store) (log ++ [(key, message)]) := by
  unfold warnOnce
  rw [if_neg (by rwa [h.keys, List.contains_iff_mem])]
  refine ⟨by simp [h.keys], ?_, ?_⟩
  · rw [List.map_append]
    exact h.distinct.append (List.nodup_singleton _) (List.disjoint_singleton.mpr hnew)
  · have hend : ∀ n ≤ log.length,
        ((log ++ [(key, message)]).map (·.2)).drop n = (log.map (·.2)).drop n ++ [message] := by
      intro n hn
      rw [List.map_append, List.drop_append_of_le_length (by rwa [List.length_map])]
      rfl
    dsimp only
    rw [h.shown, List.length_append, List.length_drop, List.length_map, List.length_singleton, List.length_append,
      List.length_singleton]
    split
    · next hfull =>
      rw [← hend _ (Nat.sub_le _ _), List.tail_drop]
      congr 1
      omega
    · next hroom =>
      rw [← hend _ (Nat.sub_le _ _)]
      congr 1
      omega

/-- The warnings of some calls that count: those of a new key. -/
def firstWarnings : List Str → List TuneCall → List (Str × Str)
  | _, [] => []
  | seen, .warn key message :: calls =>
    if seen.contains key then firstWarnings seen calls
    else (key, message) :: firstWarnings (seen ++ [key]) calls
  | seen, _ :: calls => firstWarnings seen calls

/-- **A run of calls** adds the warnings of new keys, and leaves the profile and its file. -/
theorem runCalls_warned (h : Warned store log) (calls : List TuneCall) :
    Warned (runCalls calls store) (log ++ firstWarnings (log.map (·.1)) calls) ∧
      (runCalls calls store).config = store.config ∧ (runCalls calls store).file = store.file := by
  induction calls generalizing store log with
  | nil => exact ⟨by rwa [firstWarnings, List.append_nil], rfl, rfl⟩
  | cons call calls ih =>
    have hcons : runCalls (call :: calls) store = runCalls calls (runCall store call) := rfl
    rw [hcons]
    cases call with
    | control dir file value => exact ih h
    | setAttr tid attr => exact ih h
    | setPriority tid nice => exact ih h
    | warn key message =>
      rw [runCall, firstWarnings]
      split
      · next hseen =>
        rw [warnOnce_seen h (by simpa using hseen)]
        exact ih h
      · next hnew =>
        have hstep : Warned (warnOnce key message store) (log ++ [(key, message)]) :=
          warnOnce_new h (by simpa using hnew)
        obtain ⟨hwarned, hconfig, hfile⟩ := ih hstep
        rw [List.map_append, List.append_assoc] at hwarned
        exact ⟨hwarned, hconfig.trans (warnOnce_config _ _ _), hfile.trans (warnOnce_file _ _ _)⟩

/-- **What tuning leaves behind.** Over any tasks since the profile was set, the profile and its file are as they
    were, and the page shows the last twenty of the messages, one for each key. -/
theorem tasks_warned (env : TuneEnv) (config : TuningConfig) (store : TuningStore)
    (tasks : List (Int × Int × Str × Str)) :
    let calls := tasks.flatMap fun t => applyTaskCalls env config t.1 t.2.1 t.2.2.1 t.2.2.2
    let after := runCalls calls (replaceConfig config store)
    after.config = config ∧ after.file = store.file ∧ after.warnings.length ≤ 20 ∧
      Warned after (firstWarnings [] calls) := by
  intro calls after
  obtain ⟨hwarned, hconfig, hfile⟩ := runCalls_warned (warned_replaceConfig config store) calls
  exact ⟨hconfig, hfile, hwarned.short, hwarned⟩

end AppOptR
