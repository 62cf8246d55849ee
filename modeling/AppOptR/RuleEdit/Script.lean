import AppOptR.Lib.ListScript
import AppOptR.RuleEdit.Disk

/-!
# `RuleEdit.Script` — the edits, line by line

`RuleEdit.Ops` says which text an operation writes. What becomes of the single lines is told here, as a script:
every `lines[i] = …`, `remove`, `insert`, `splice` and `push` of the source is a step, in the order of the source.
`Reword` names the ways in which `rule_edit.rs` assigns to a line. The scripts follow the operations branch by
branch, and running one gives the lines of the operation (`RuleCall.script_run`).
-/

namespace AppOptR

open Text ListScript

/-- The lines `rule_edit.rs` assigns to `lines[i]`, by the expression on the right. -/
inductive Reword where
  | opened                         -- `format!("{} {{", lines[i].trim_end())`
  | blockLine (pkg : Str)          -- `with_comment(&bare_open_line(pkg), &lines[i])`
  | closing                        -- `with_comment("}", &lines[i])`
  | respec (cpus : Str)            -- `spec_swap(&lines[i], cpus)`
  | header (pkg cpus : Str)        -- `with_comment(&format!("{}={} {{", pkg, cpus), &lines[i])`
  | bare (pkg : Str)               -- `bare_open_line(pkg)`
  | rekey (old new : Str)          -- the rewrite of `rule_rename`
  deriving DecidableEq

/-- What is made of a line. -/
def Reword.act : Reword → Str → Str
  | .opened, l => trimEnd l ++ [' ', '{']
  | .blockLine pkg, l => withComment (bareOpenLine pkg) l
  | .closing, l => withComment ['}'] l
  | .respec cpus, l => specSwap l cpus
  | .header pkg cpus, l => withComment (pkg ++ '=' :: cpus ++ [' ', '{']) l
  | .bare pkg, _ => bareOpenLine pkg
  | .rekey old new, l => renameLine old new l

/-- A step on the lines: one is reworded or erased, or some are put in. -/
abbrev EditStep := Step Reword Str

/-- The lines after a script. -/
def runSteps (ls : List Str) (steps : List EditStep) : List Str := run Reword.act ls steps

/-! ## The scripts -/

/-- `line_remove`. -/
def removeStep (pkg : Str) (loc : ThreadLoc) : EditStep :=
  if loc.opens then .rewrite loc.idx (.blockLine pkg)
  else if loc.closed then .rewrite loc.idx .closing
  else .erase loc.idx

/-- `line_remove` on the locations of a list, from the last to the first. -/
def removeScript (pkg : Str) (locs : List ThreadLoc) : List EditStep := locs.reverse.map (removeStep pkg)

/-- `placeItems` step by step. -/
def placeScript (ls : List Str) (pkg : Str) (at_ : Nat) (items : List Str) : List EditStep :=
  let t := targetScan ls pkg
  match t.blockClose, t.pkgLine with
  | some close, _ => [.insert close items]
  | none, some (.standalone i) => [.rewrite i .opened, .insert (i + 1) (items ++ [['}']])]
  | none, _ => [.insert (min at_ ls.length) ([bareOpenLine pkg] ++ items ++ [['}']])]

/-- `normalize_singles` step by step. -/
def normalizeScript (ls : List Str) (pkg : Str) : List EditStep :=
  let t := targetScan ls pkg
  let items := t.singles.filterMap (singleItem ls)
  match items with
  | [] => []
  | first :: _ =>
    if normalizeBlocked t items then []
    else
      let removal := removeScript pkg (items.map (·.1))
      removal ++ placeScript (runSteps ls removal) pkg first.1.idx (items.map (·.2))

/-- The package-level half of `rule_upsert`. -/
def packageScript (ls : List Str) (t : Target) (pkg cpus : Str) : List EditStep :=
  match t.pkgLine with
  | some (.standalone i) | some (.openInline i) => [.rewrite i (.respec cpus)]
  | some (.barePending i) =>
    let head : EditStep := .rewrite i (.header pkg cpus)
    match t.blockOpen with
    | some opn =>
      if parseOuter (trim ((runSteps ls [head]).getD opn [])) = .bareOpen [] then [head, .erase opn] else [head]
    | none => [head]
  | some (.bareOpen i) => [.rewrite i (.header pkg cpus)]
  | none => [.insert ls.length [pkg ++ '=' :: cpus]]

/-- The thread half of `rule_upsert`. -/
def threadScript (ls : List Str) (t : Target) (pkg thread cpus : Str) : List EditStep :=
  let ruleLine := '\t' :: thread ++ '=' :: cpus
  match (t.locs thread).getLast? with
  | some last => .rewrite last.idx (.respec cpus) :: removeScript pkg (t.locs thread).dropLast
  | none =>
    match t.blockClose, t.pkgLine with
    | some close, _ => [.insert close [ruleLine]]
    | none, some (.standalone i) => [.rewrite i .opened, .insert (i + 1) [ruleLine, ['}']]]
    | none, _ => [.insert ls.length [bareOpenLine pkg, ruleLine, ['}']]]

/-- `rule_upsert` step by step. -/
def upsertScript (pkg thread cpus : Str) (ls : List Str) : List EditStep :=
  let normal := normalizeSingles ls pkg
  let t := targetScan normal pkg
  normalizeScript ls pkg ++
    if thread.isEmpty then packageScript normal t pkg cpus else threadScript normal t pkg thread cpus

/-- `rule_delete` step by step. -/
def deleteScript (pkg thread : Str) (ls : List Str) : List EditStep :=
  let t := targetScan (normalizeSingles ls pkg) pkg
  normalizeScript ls pkg ++
    if thread.isEmpty then
      match t.pkgLine with
      | some (.standalone i) => [.erase i]
      | some (.openInline i) => [.rewrite i (.bare pkg)]
      | _ => []
    else removeScript pkg (t.locs thread)

/-- One round of the loop of `rule_rename`. -/
def rekeyScript (old new : Str) (ls : List Str) : List EditStep :=
  (renameRound (targetScan ls old)).map fun i => .rewrite i (.rekey old new)

/-- The loop of `rule_rename`. -/
def rekeyLoopScript (old new : Str) : Nat → List Str → List EditStep
  | 0, _ => []
  | fuel + 1, ls =>
    match renameRound (targetScan ls old) with
    | [] => []
    | _ => rekeyScript old new ls ++ rekeyLoopScript old new fuel (runSteps ls (rekeyScript old new ls))

/-- `rule_rename` step by step. -/
def renameScript (fuel : Nat) (old new : Str) (ls : List Str) : List EditStep :=
  normalizeScript ls old ++ rekeyLoopScript old new fuel (normalizeSingles ls old)

/-- A call of `rule_upsert`, `rule_delete` or `rule_rename`. -/
inductive RuleCall where
  | upsert (pkg thread cpus : Str)
  | delete (pkg thread : Str)
  | rename (old new : Str)
  deriving DecidableEq

def RuleCall.call : RuleCall → EditCall
  | .upsert pkg thread cpus => .upsert pkg thread cpus
  | .delete pkg thread => .delete pkg thread
  | .rename old new => .rename old new

/-- The steps of a call. -/
def RuleCall.script (fuel : Nat) (ls : List Str) : RuleCall → List EditStep
  | .upsert pkg thread cpus => upsertScript pkg thread cpus ls
  | .delete pkg thread => deleteScript pkg thread ls
  | .rename old new => renameScript fuel old new ls

/-! ## Running them -/

variable {ls ls' : List Str} {pkg thread cpus old new : Str}

theorem modify_eq_set {α : Type*} (ls : List α) (i : Nat) (f : α → α) (d : α) :
    ls.modify i f = ls.set i (f (ls.getD i d)) := by
  by_cases hi : i < ls.length
  · rw [List.modify_eq_take_cons_drop hi, List.set_eq_take_cons_drop _ hi, List.getD_eq_getElem _ _ hi]
  · rw [List.modify_eq_self (Nat.le_of_not_lt hi), List.set_eq_of_length_le (Nat.le_of_not_lt hi)]

@[simp] theorem runSteps_nil : runSteps ls [] = ls := rfl

theorem runSteps_append (steps steps' : List EditStep) :
    runSteps ls (steps ++ steps') = runSteps (runSteps ls steps) steps' := run_append

@[simp] theorem runSteps_rewrite (i : Nat) (r : Reword) (steps : List EditStep) :
    runSteps ls (.rewrite i r :: steps) = runSteps (ls.set i (r.act (ls.getD i []))) steps := by
  show run Reword.act (ls.modify i r.act) steps = _
  rw [modify_eq_set ls i r.act []]
  rfl

@[simp] theorem runSteps_erase (i : Nat) (steps : List EditStep) :
    runSteps ls (.erase i :: steps) = runSteps (ls.eraseIdx i) steps := rfl

@[simp] theorem runSteps_insert (i : Nat) (chunk : List Str) (steps : List EditStep) :
    runSteps ls (.insert i chunk :: steps) = runSteps (spliceAt ls i chunk) steps := rfl

theorem spliceAt_end (ls chunk : List Str) : spliceAt ls ls.length chunk = ls ++ chunk := by simp [spliceAt]

theorem runSteps_removeStep (loc : ThreadLoc) (steps : List EditStep) :
    runSteps ls (removeStep pkg loc :: steps) = runSteps (lineRemove ls pkg loc) steps := by
  unfold removeStep lineRemove
  split
  · exact runSteps_rewrite ..
  · split
    · exact runSteps_rewrite ..
    · exact runSteps_erase ..

theorem runSteps_removeScript (locs : List ThreadLoc) :
    runSteps ls (removeScript pkg locs) = locs.reverse.foldl (fun ls loc => lineRemove ls pkg loc) ls := by
  unfold removeScript
  induction locs.reverse generalizing ls with
  | nil => rfl
  | cons loc locs ih => rw [List.map_cons, runSteps_removeStep, ih, List.foldl_cons]

/-- The steps put the items where `placeItems` does. -/
theorem runSteps_placeScript (at_ : Nat) (items : List Str) :
    runSteps ls (placeScript ls pkg at_ items) = placeItems ls pkg at_ items := by
  unfold placeScript placeItems
  dsimp only
  cases (targetScan ls pkg).blockClose with
  | some close => rfl
  | none =>
    cases (targetScan ls pkg).pkgLine with
    | none => rfl
    | some l =>
      cases l with
      | standalone i =>
        dsimp only
        rw [runSteps_rewrite]
        rfl
      | openInline i => rfl
      | bareOpen i => rfl
      | barePending i => rfl

/-- The steps normalise. -/
theorem runSteps_normalizeScript : runSteps ls (normalizeScript ls pkg) = normalizeSingles ls pkg := by
  unfold normalizeScript normalizeSingles
  dsimp only
  cases (targetScan ls pkg).singles.filterMap (singleItem ls) with
  | nil => rfl
  | cons first rest =>
    dsimp only
    split
    · rfl
    · have hremoved : runSteps ls (removeScript pkg ((first :: rest).map (·.1)))
          = (first :: rest).reverse.foldl (fun ls it => lineRemove ls pkg it.1) ls := by
        rw [runSteps_removeScript, ← List.map_reverse, List.foldl_map]
      rw [runSteps_append, runSteps_placeScript, hremoved]

/-- The steps of an upsert of the package. -/
theorem upsertPackage_script {t : Target} (h : upsertPackage ls t pkg cpus = .ok ls') :
    runSteps ls (packageScript ls t pkg cpus) = ls' := by
  unfold upsertPackage at h
  unfold packageScript
  cases hl : t.pkgLine with
  | none =>
    rw [hl] at h
    dsimp only at h ⊢
    split at h
    · cases h
    · rw [runSteps_insert, runSteps_nil, spliceAt_end]
      exact Except.ok.inj h
  | some l =>
    rw [hl] at h
    cases l with
    | standalone i => simpa [Reword.act] using h
    | openInline i => simpa [Reword.act] using h
    | bareOpen i => simpa [Reword.act] using h
    | barePending i =>
      dsimp only at h ⊢
      cases hopn : t.blockOpen with
      | none =>
        rw [hopn] at h
        simpa [Reword.act] using h
      | some opn =>
        rw [hopn] at h
        dsimp only at h ⊢
        rw [runSteps_rewrite, runSteps_nil]
        split
        · next hbrace =>
          rw [runSteps_rewrite, runSteps_erase, runSteps_nil]
          rw [Reword.act] at hbrace ⊢
          rw [if_pos hbrace] at h
          exact Except.ok.inj h
        · next hbrace =>
          rw [runSteps_rewrite, runSteps_nil]
          rw [Reword.act] at hbrace ⊢
          rw [if_neg hbrace] at h
          exact Except.ok.inj h

/-- The steps of an upsert of a thread. -/
theorem upsertThread_script {t : Target} (h : upsertThread ls t pkg thread cpus = .ok ls') :
    runSteps ls (threadScript ls t pkg thread cpus) = ls' := by
  unfold upsertThread at h
  unfold threadScript
  dsimp only at h ⊢
  cases hl : (t.locs thread).getLast? with
  | some last =>
    rw [hl] at h
    dsimp only at h ⊢
    rw [runSteps_rewrite, runSteps_removeScript]
    exact Except.ok.inj h
  | none =>
    rw [hl] at h
    dsimp only at h ⊢
    -- the fallback of the source, reached from four cases here
    have happend : (if t.unterminated then Except.error RuleEdit.malformed
        else .ok (ls ++ [bareOpenLine pkg, '\t' :: thread ++ '=' :: cpus, ['}']])) = .ok ls' →
        runSteps ls [.insert ls.length [bareOpenLine pkg, '\t' :: thread ++ '=' :: cpus, ['}']]] = ls' := by
      intro h
      rw [runSteps_insert, runSteps_nil, spliceAt_end]
      split at h
      · cases h
      · exact Except.ok.inj h
    cases hclose : t.blockClose with
    | some close =>
      rw [hclose] at h
      exact Except.ok.inj h
    | none =>
      rw [hclose] at h
      cases hline : t.pkgLine with
      | none =>
        rw [hline] at h
        exact happend h
      | some l =>
        rw [hline] at h
        cases l with
        | standalone i =>
          dsimp only
          rw [runSteps_rewrite, runSteps_insert, runSteps_nil]
          exact Except.ok.inj h
        | openInline i => exact happend h
        | bareOpen i => exact happend h
        | barePending i => exact happend h

/-- **`rule_upsert` is its steps.** -/
theorem upsertLines_script (h : upsertLines pkg thread cpus ls = .ok ls') :
    runSteps ls (upsertScript pkg thread cpus ls) = ls' := by
  unfold upsertLines at h
  unfold upsertScript
  dsimp only at h ⊢
  rw [runSteps_append, runSteps_normalizeScript]
  split at h
  · next hth =>
    rw [if_pos hth]
    exact upsertPackage_script h
  · next hth =>
    rw [if_neg hth]
    exact upsertThread_script h

/-- **`rule_delete` is its steps.** -/
theorem deleteLines_script (h : deleteLines pkg thread ls = .ok ls') :
    runSteps ls (deleteScript pkg thread ls) = ls' := by
  unfold deleteLines at h
  unfold deleteScript
  dsimp only at h ⊢
  rw [runSteps_append, runSteps_normalizeScript]
  split at h
  · next hth =>
    rw [if_pos hth]
    cases hline : (targetScan (normalizeSingles ls pkg) pkg).pkgLine with
    | none =>
      rw [hline] at h
      cases h
    | some l =>
      rw [hline] at h
      cases l with
      | standalone i => exact Except.ok.inj h
      | openInline i =>
        dsimp only
        rw [runSteps_rewrite, runSteps_nil]
        exact Except.ok.inj h
      | bareOpen i => cases h
      | barePending i => cases h
  · next hth =>
    rw [if_neg hth, runSteps_removeScript]
    split at h
    · cases h
    · exact Except.ok.inj h

/-- The steps of one round of `rule_rename`. -/
theorem runSteps_rekeyScript : runSteps ls (rekeyScript old new ls)
    = (renameRound (targetScan ls old)).foldl (fun ls i => ls.set i (renameLine old new (ls.getD i []))) ls := by
  unfold rekeyScript
  generalize renameRound (targetScan ls old) = is
  induction is generalizing ls with
  | nil => rfl
  | cons i is ih =>
    rw [List.map_cons, runSteps_rewrite, ih]
    rfl

/-- The steps of all rounds. -/
theorem renameLoop_script {fuel : Nat} (h : renameLoop old new fuel ls = some ls') :
    runSteps ls (rekeyLoopScript old new fuel ls) = ls' := by
  induction fuel generalizing ls with
  | zero => cases h
  | succ fuel ih =>
    unfold renameLoop at h
    unfold rekeyLoopScript
    cases hround : renameRound (targetScan ls old) with
    | nil =>
      rw [hround] at h
      exact Option.some.inj h
    | cons i is =>
      rw [hround] at h
      dsimp only at h ⊢
      rw [runSteps_append]
      refine ih ?_
      rw [runSteps_rekeyScript, hround]
      exact h

/-- **Running the script** of a call gives the lines that the call writes. -/
theorem RuleCall.script_run {fuel : Nat} (c : RuleCall) (h : c.call.edit fuel ls = some (.ok ls')) :
    runSteps ls (c.script fuel ls) = ls' := by
  cases c with
  | upsert pkg thread cpus => exact upsertLines_script (Option.some.inj h)
  | delete pkg thread => exact deleteLines_script (Option.some.inj h)
  | rename old new =>
    show runSteps ls (renameScript fuel old new ls) = ls'
    unfold renameScript
    rw [runSteps_append, runSteps_normalizeScript]
    exact renameLoop_script (renameLines_ok h).1

end AppOptR
