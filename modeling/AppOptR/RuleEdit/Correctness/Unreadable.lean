import AppOptR.RuleEdit.Disk

/-!
# `RuleEdit.Correctness.Unreadable` — the rules file that cannot be read

Every operation reads the file with `unwrap_or_default`, so a file that is there but cannot be read as text
is edited as an empty one. Three of the five operations find nothing in an empty text and write nothing;
`rule_upsert` always has something to write, and so has a `rule_clone` that copies neither category
(`EditCall.edit_nil`). `unreadable_kept_iff` is the exact extent of the loss.
-/

namespace AppOptR

open Text

variable {call : EditCall} {d d' : Disk} {fault : Option WriteFault}

/-- The lines a call makes of an empty file. -/
def EditCall.fresh : EditCall → Option (List Str)
  | .upsert pkg thread cpus =>
    if thread = [] then some [pkg ++ '=' :: cpus]
    else some [bareOpenLine pkg, '\t' :: thread ++ '=' :: cpus, ['}']]
  | .clone _ _ false false => some []
  | _ => none

/-- **On an empty text** a call makes its fresh lines, or ends without a write. -/
theorem EditCall.edit_nil (fuel : Nat) (call : EditCall) (ls : List Str) :
    call.edit fuel [] = some (.ok ls) → call.fresh = some ls := by
  cases call with
  | upsert pkg thread cpus =>
    by_cases hth : thread = []
    · subst hth
      intro h
      exact congrArg some (Except.ok.inj (Option.some.inj h))
    · have hempty : thread.isEmpty = false := by simpa using hth
      simp only [edit, upsertLines, hempty, Bool.false_eq_true, if_false, fresh, hth]
      intro h
      exact congrArg some (Except.ok.inj (Option.some.inj h))
  | delete pkg thread =>
    cases thread <;> simp [edit, deleteLines, normalizeSingles, targetScan, scanPrefix, Target.singles,
      Target.locs]
  | deletePkg pkg =>
    cases fuel <;> simp [edit, deletePkgLines, deletePkgLoop, normalizeSingles, targetScan, scanPrefix,
      Target.singles, Target.anyLine]
  | rename old new =>
    simp [edit, renameLines, normalizeSingles, targetScan, scanPrefix, Target.singles, Target.anyLine]
  | clone source target copyPackage copyThreads =>
    cases copyPackage with
    | true => exact fun h => by cases h
    | false =>
      cases copyThreads with
      | true => exact fun h => by cases h
      | false => exact fun h => congrArg some (Except.ok.inj (Option.some.inj h))

theorem EditCall.edit_fresh (fuel : Nat) {call : EditCall} {ls : List Str} (h : call.fresh = some ls) :
    call.edit fuel [] = some (.ok ls) := by
  cases call with
  | upsert pkg thread cpus =>
    by_cases hth : thread = []
    · subst hth
      exact congrArg (fun ls => some (Except.ok ls)) (Option.some.inj h)
    · have hempty : thread.isEmpty = false := by simpa using hth
      simp only [fresh, hth, if_false] at h
      simp only [edit, upsertLines, hempty, Bool.false_eq_true, if_false]
      exact congrArg (fun ls => some (Except.ok ls)) (Option.some.inj h)
  | clone source target copyPackage copyThreads =>
    cases copyPackage with
    | true => cases h
    | false =>
      cases copyThreads with
      | true => cases h
      | false => exact congrArg (fun ls => some (Except.ok ls)) (Option.some.inj h)
  | delete pkg thread => cases h
  | deletePkg pkg => cases h
  | rename old new => cases h

/-- What the call may do to the file: whenever it is there and cannot be read as text, or the call returns
    anything but `Ok`, the bytes are the same. -/
def EditCall.Spares (fault : Option WriteFault) (d : Disk) (call : EditCall) : Prop :=
  ∀ fuel e d', call.run fuel fault d = some (e, d') →
    (d.file ≠ none ∧ d.readText = none) ∨ e ≠ .ok → d.SameFile d'

/-- The file is there and cannot be read, the call makes something of an empty file, the write goes
    through, and the bytes were not the written ones already. -/
def EditCall.Overwrites (fault : Option WriteFault) (d : Disk) (call : EditCall) : Prop :=
  ∃ f ls, d.file = some f ∧ d.readText = none ∧ call.fresh = some ls ∧ fault = none ∧
    f.bytes ≠ utf8 (unlines ls)

/-- A call that does not return `Ok` has not touched the file. -/
theorem EditCall.run_not_ok {fuel : Nat} {e : RuleEdit} (h : call.run fuel fault d = some (e, d'))
    (he : e ≠ .ok) : d.SameFile d' := by
  obtain ⟨edited, _, hrun⟩ := Option.map_eq_some_iff.mp h
  cases edited with
  | error err =>
    rw [Prod.mk.injEq] at hrun
    rw [← hrun.2]
    rfl
  | ok ls =>
    dsimp only at hrun
    cases fault with
    | none => exact absurd (congrArg Prod.fst hrun).symm he
    | some fault =>
      obtain ⟨_, hfile⟩ := fileWrite_fault fault d ls
      rw [hrun] at hfile
      rw [Disk.SameFile, hfile]

/-- **A file that cannot be read is lost exactly when** a call that makes something of an empty file writes
    it successfully. -/
theorem unreadable_kept_iff (fault : Option WriteFault) (d : Disk) (call : EditCall) :
    call.Spares fault d ↔ ¬ call.Overwrites fault d := by
  constructor
  · rintro h ⟨f, ls, hfile, hread, hfresh, rfl, hne⟩
    have hrun : call.run 0 none d = some (fileWrite none d ls) := by
      rw [EditCall.run, hread]
      exact congrArg _ (EditCall.edit_fresh 0 hfresh)
    have hsame := h 0 _ _ hrun (.inl ⟨by simp [hfile], hread⟩)
    rw [Disk.SameFile, hfile] at hsame
    exact hne (Option.some.inj hsame)
  · intro h fuel e d' hrun hcase
    by_cases he : e = .ok
    · obtain ⟨hfile, hread⟩ := hcase.resolve_right fun hne => hne he
      obtain ⟨f, hf⟩ := Option.ne_none_iff_exists'.mp hfile
      obtain ⟨edited, hed, hres⟩ := Option.map_eq_some_iff.mp hrun
      rw [hread] at hed
      cases edited with
      | error err =>
        rw [Prod.mk.injEq] at hres
        rw [← hres.2]
        rfl
      | ok ls =>
        dsimp only at hres
        have hfresh : call.fresh = some ls := call.edit_nil fuel ls hed
        cases fault with
        | some fault =>
          have := (fileWrite_fault fault d ls).1
          rw [hres, he] at this
          cases this
        | none =>
          -- the write went through: the bytes must have been these before
          have hbytes : f.bytes = utf8 (unlines ls) := by
            by_contra hne
            exact h ⟨f, ls, hf, hread, hfresh, rfl, hne⟩
          have hwritten : (fileWrite none d ls).2 = d' := congrArg Prod.snd hres
          rw [Disk.SameFile, ← hwritten, hf, Option.map_some, hbytes]
          rfl
    · exact EditCall.run_not_ok hrun he

/-- A file with one byte that is no UTF-8 is replaced by the new rule. -/
theorem unreadable_overwritten :
    ¬ (EditCall.upsert "com.a".toList [] "0".toList).Spares none { file := some ⟨[0xff], true⟩ } := by
  intro h
  have hsame := h 0 .ok { file := some ⟨utf8 "com.a=0\n".toList, true⟩ } (by decide +kernel)
    (.inl ⟨by simp, by decide +kernel⟩)
  revert hsame
  decide +kernel

end AppOptR
