import AppOptR.Lib.Utf8
import AppOptR.RuleEdit.Ops

/-!
# `RuleEdit.Disk` — the edits, down to the bytes

`editFile` takes the text of the rules file as given and the write as one step. Here is what stands below:
the bytes at `path` and at `path.tmp`, the read that turns every failure into an empty text
(`read_to_string(path).unwrap_or_default()`), and the four stages of `file_write`, any of which can fail.
The five operations are one type of call, so that what they share is said once. The two levels meet in
`editRun_onText`: a run on the disk is the run on the text.
-/

namespace AppOptR

open Text

/-- A file: its bytes, and whether it can be opened and read. -/
structure DiskFile where
  bytes : List UInt8
  readable : Bool
  deriving DecidableEq

/-- What stands at `path` and at `path.tmp`. -/
structure Disk where
  file : Option DiskFile
  tmp : Option DiskFile := none
  deriving DecidableEq

/-- `fs::read_to_string(path)`. -/
def Disk.readText (d : Disk) : Option Str :=
  d.file.bind fun f => if f.readable then fromUtf8 f.bytes else none

/-- The stage at which `file_write` fails. `write_all` may get some bytes out before it does. -/
inductive WriteFault where
  | create
  | write (written : Nat)
  | sync
  | rename
  deriving DecidableEq

/-- The temporary file with these bytes. `File::create` keeps the mode of a file that is there. -/
def Disk.writeTmp (d : Disk) (bytes : List UInt8) : DiskFile :=
  { bytes, readable := (d.tmp.map (·.readable)).getD true }

/-- `file_write`. -/
def fileWrite (fault : Option WriteFault) (d : Disk) (ls : List Str) : RuleEdit × Disk :=
  let out := utf8 (unlines ls)
  match fault with
  | some .create => (.ioErr, d)
  | some (.write written) => (.ioErr, { d with tmp := some (d.writeTmp (out.take written)) })
  | some .sync | some .rename => (.ioErr, { d with tmp := some (d.writeTmp out) })
  | none => (.ok, { file := some (d.writeTmp out), tmp := none })

/-- A call of one of the five operations. -/
inductive EditCall where
  | upsert (pkg thread cpus : Str)
  | delete (pkg thread : Str)
  | deletePkg (pkg : Str)
  | rename (old new : Str)
  | clone (source target : Str) (copyPackage copyThreads : Bool)
  deriving DecidableEq

/-- What a call does to the lines; `none` is a loop that has not ended. -/
def EditCall.edit (fuel : Nat) (ls : List Str) : EditCall → Option LineEdit
  | .upsert pkg thread cpus => some (upsertLines pkg thread cpus ls)
  | .delete pkg thread => some (deleteLines pkg thread ls)
  | .deletePkg pkg => deletePkgLines fuel pkg ls
  | .rename old new => renameLines fuel old new ls
  | .clone source target copyPackage copyThreads =>
    some (cloneLines source target copyPackage copyThreads ls)

/-- The operation: read, edit, write. -/
def EditCall.run (fuel : Nat) (fault : Option WriteFault) (d : Disk) (call : EditCall) :
    Option (RuleEdit × Disk) :=
  (call.edit fuel (lines (d.readText.getD []))).map fun edited =>
    match edited with
    | .error e => (e, d)
    | .ok ls => fileWrite fault d ls

/-! ## Writing -/

/-- The rules file has the same bytes, or is absent in both. -/
def Disk.SameFile (d d' : Disk) : Prop := d.file.map (·.bytes) = d'.file.map (·.bytes)

instance (d d' : Disk) : Decidable (d.SameFile d') := inferInstanceAs (Decidable (_ = _))

/-- **Only the rename touches the file**: a write that fails leaves it alone. -/
theorem fileWrite_fault (fault : WriteFault) (d : Disk) (ls : List Str) :
    (fileWrite (some fault) d ls).1 = .ioErr ∧ (fileWrite (some fault) d ls).2.file = d.file := by
  cases fault <;> exact ⟨rfl, rfl⟩

/-- A file left at `path.tmp` can be read, so the next write makes a readable file of it. -/
def Disk.TmpReadable (d : Disk) : Prop := ∀ t ∈ d.tmp, t.readable = true

variable {d : Disk} {fuel : Nat} {fault : Option WriteFault} {call : EditCall}

theorem Disk.TmpReadable.writeTmp (h : d.TmpReadable) (bytes : List UInt8) : (d.writeTmp bytes).readable = true := by
  unfold Disk.writeTmp
  cases ht : d.tmp with
  | none => rfl
  | some t => exact h t ht

/-- A write leaves a temporary file that the next one can use, or none. -/
theorem Disk.TmpReadable.fileWrite (h : d.TmpReadable) (fault : Option WriteFault) (ls : List Str) :
    (fileWrite fault d ls).2.TmpReadable := by
  have hnew : ∀ bytes, ∀ t ∈ some (d.writeTmp bytes), t.readable = true := by
    intro bytes t ht
    obtain rfl := Option.some.inj ht
    exact h.writeTmp bytes
  cases fault with
  | none =>
    intro t ht
    cases ht
  | some fault =>
    cases fault with
    | create => exact h
    | write written => exact hnew _
    | sync => exact hnew _
    | rename => exact hnew _

/-- A read after a write: the text written, or the text of before. -/
theorem fileWrite_read (h : d.TmpReadable) (fault : Option WriteFault) (ls : List Str) :
    (fileWrite fault d ls).2.readText = if fault.isNone then some (unlines ls) else d.readText := by
  cases fault with
  | none =>
    have hread := h.writeTmp (utf8 (unlines ls))
    have hbytes : (d.writeTmp (utf8 (unlines ls))).bytes = utf8 (unlines ls) := rfl
    simp [fileWrite, Disk.readText, hread, hbytes, fromUtf8_utf8]
  | some fault =>
    rw [Disk.readText, (fileWrite_fault fault d ls).2]
    rfl

/-! ## The operations on the text

The web side asks only what the text of the file becomes. The step lemma is `run_onText`, and `editRun_onText`
is the run: whatever a failed write leaves at `path.tmp`, no later operation sees it. -/

/-- The operation as the handlers of the web side call it. -/
def EditCall.onText (fuel : Nat) (writeOk : Bool) (content : Option Str) :
    EditCall → Option (RuleEdit × Option Str)
  | .upsert pkg thread cpus => some (ruleUpsert writeOk content pkg thread cpus)
  | .delete pkg thread => some (ruleDelete writeOk content pkg thread)
  | .deletePkg pkg => ruleDeletePkg fuel writeOk content pkg
  | .rename old new => ruleRename fuel writeOk content old new
  | .clone source target copyPackage copyThreads =>
    some (ruleClone writeOk content source target copyPackage copyThreads)

/-- On texts a call is its edit of the lines, and the write. -/
theorem EditCall.onText_edit (fuel : Nat) (writeOk : Bool) (content : Option Str) (call : EditCall) :
    call.onText fuel writeOk content
      = (call.edit fuel (lines (content.getD []))).map fun edited => editFile (fun _ => edited) writeOk content := by
  cases call with
  | upsert pkg thread cpus => simp only [onText, EditCall.edit, Option.map_some, ruleUpsert, editFile]
  | delete pkg thread => simp only [onText, EditCall.edit, Option.map_some, ruleDelete, editFile]
  | deletePkg pkg => rw [onText, ruleDeletePkg, EditCall.edit]
  | rename old new => rw [onText, ruleRename, EditCall.edit]
  | clone source target copyPackage copyThreads =>
    simp only [onText, EditCall.edit, Option.map_some, ruleClone, editFile]

/-- **The operations are edits of the text**: a call on the disk returns and leaves behind what it does on
    the text alone. -/
theorem EditCall.run_onText (h : d.TmpReadable) :
    (call.run fuel fault d).map (fun r => (r.1, r.2.readText)) = call.onText fuel fault.isNone d.readText := by
  rw [onText_edit, EditCall.run, Option.map_map]
  refine Option.map_congr fun edited _ => ?_
  cases edited with
  | error e => rfl
  | ok ls =>
    have hread := fileWrite_read h fault ls
    cases fault with
    | none => exact Prod.ext rfl hread
    | some fault => exact Prod.ext (fileWrite_fault fault d ls).1 hread

/-- A call leaves a temporary file that can be read, if it finds one. -/
theorem EditCall.run_tmpReadable (h : d.TmpReadable) {e : RuleEdit} {d' : Disk}
    (hrun : call.run fuel fault d = some (e, d')) : d'.TmpReadable := by
  obtain ⟨edited, _, hedited⟩ := Option.map_eq_some_iff.mp hrun
  cases edited with
  | error err =>
    obtain ⟨-, rfl⟩ := Prod.mk.inj hedited
    exact h
  | ok ls =>
    have hd : (fileWrite fault d ls).2 = d' := congrArg Prod.snd hedited
    exact hd ▸ h.fileWrite fault ls

/-- A run of operations on the disk, each with the failure of its write; nothing when a loop does not end. -/
def editRun (fuel : Nat) : Disk → List (Option WriteFault × EditCall) → Option (List RuleEdit × Disk)
  | d, [] => some ([], d)
  | d, (fault, call) :: calls =>
    (call.run fuel fault d).bind fun (e, d) => (editRun fuel d calls).map fun (es, d) => (e :: es, d)

/-- The same run on the text. -/
def textRun (fuel : Nat) : Option Str → List (Option WriteFault × EditCall) → Option (List RuleEdit × Option Str)
  | content, [] => some ([], content)
  | content, (fault, call) :: calls =>
    (call.onText fuel fault.isNone content).bind fun (e, content) =>
      (textRun fuel content calls).map fun (es, content) => (e :: es, content)

/-- **No run shows its temporary files**: results and text are those of the run on the text alone. -/
theorem editRun_onText (h : d.TmpReadable) (calls : List (Option WriteFault × EditCall)) :
    (editRun fuel d calls).map (fun r => (r.1, r.2.readText)) = textRun fuel d.readText calls := by
  induction calls generalizing d with
  | nil => rfl
  | cons c calls ih =>
    obtain ⟨fault, call⟩ := c
    rw [textRun, ← EditCall.run_onText h, editRun]
    cases hrun : call.run fuel fault d with
    | none => rfl
    | some r =>
      obtain ⟨e, d'⟩ := r
      rw [Option.map_some, Option.bind_some, Option.bind_some]
      dsimp only
      rw [← ih (EditCall.run_tmpReadable h hrun), Option.map_map, Option.map_map]
      rfl

end AppOptR
