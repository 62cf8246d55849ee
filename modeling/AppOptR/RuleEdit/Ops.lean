import AppOptR.RuleEdit.Scan

/-!
# `RuleEdit.Ops` — the edits of `rule_edit.rs`

The five line rewrites (`withComment`, `specSwap`, `lineRemove`, `bareOpenLine`, `normalizeSingles`) and
the operations built on them. An operation is a function on the lines of the file: an early `return` is an
`error`, and the lines handed to `file_write` are the result. `editFile` puts the file around it.

The loops of `rule_delete_pkg` and `rule_rename` have no counter in the source. Here they take fuel, and
`none` is a loop that has not ended yet.
-/

namespace AppOptR

open Text

/-- `RuleEdit`. -/
inductive RuleEdit where
  | ok
  | notFound
  | conflict
  | malformed
  | ioErr
  deriving DecidableEq

/-- The lines an operation writes, or the result it returns without writing. -/
abbrev LineEdit := Except RuleEdit (List Str)

/-! ## Rewriting lines -/

def bareOpenLine (pkg : Str) : Str :=
  if '=' ∈ pkg then pkg ++ ['=', ' ', '{'] else pkg ++ [' ', '{']

/-- The new line with the trailing comment of the old one. -/
def withComment (newLine old : Str) : Str :=
  match commentAt old with
  | some at_ => newLine ++ old.drop at_
  | none => newLine

/-- A character that ends a value: white space or a brace. -/
def valueEnd (c : Char) : Bool := isWhitespace c || c = '{' || c = '}'

def specSwap (raw cpus : Str) : Str :=
  let cut := (commentAt raw).getD raw.length
  match splitLast '=' (raw.take cut) with
  -- no `=` before the comment: the line is left as it is
  | none => raw
  | some (l, rhs) =>
    let val := trimStart rhs
    let lead := rhs.take (rhs.length - val.length)
    -- what ends a value is kept, everything else behind the first word is dropped
    let tail := (val.dropWhile fun c => !valueEnd c).filter valueEnd
    l ++ '=' :: lead ++ cpus ++ tail ++ raw.drop cut

def lineRemove (ls : List Str) (pkg : Str) (loc : ThreadLoc) : List Str :=
  -- a line whose brace is still needed leaves the brace
  if loc.opens then ls.set loc.idx (withComment (bareOpenLine pkg) (ls.getD loc.idx []))
  else if loc.closed then ls.set loc.idx (withComment ['}'] (ls.getD loc.idx []))
  else ls.eraseIdx loc.idx

/-- `Vec::splice` of an empty range: put `chunk` before index `i`. -/
def spliceAt (ls : List Str) (i : Nat) (chunk : List Str) : List Str :=
  ls.take i ++ chunk ++ ls.drop i

/-! ## Normalising single-line rules -/

/-- The block line `normalize_singles` makes of the single-line rule at `loc`. -/
def singleItem (ls : List Str) (loc : ThreadLoc) : Option (ThreadLoc × Str) :=
  let rawLine := trim (ls.getD loc.idx [])
  let raw := stripComment rawLine
  let body := ((stripSuffix '{' raw).map trimEnd).getD raw
  (splitSingleLine body).map fun (_, th, cp) => (loc, withComment ('\t' :: th ++ '=' :: cp) rawLine)

/-- The guard under which `normalize_singles` leaves the lines alone: the block it would fill has no end. -/
def normalizeBlocked (t : Target) (items : List (ThreadLoc × Str)) : Bool :=
  t.blockClose.isNone &&
    (items.any (fun it => it.1.opens) ||
      match t.pkgLine with
      | none | some (.standalone _) => false
      | _ => true)

/-- Where the collected lines go: into the block, under the header, or into a new block at `at_`. -/
def placeItems (ls : List Str) (pkg : Str) (at_ : Nat) (items : List Str) : List Str :=
  let t := targetScan ls pkg
  match t.blockClose, t.pkgLine with
  | some close, _ => spliceAt ls close items
  | none, some (.standalone i) =>
    spliceAt (ls.set i (trimEnd (ls.getD i []) ++ [' ', '{'])) (i + 1) (items ++ [['}']])
  | none, _ => spliceAt ls (min at_ ls.length) ([bareOpenLine pkg] ++ items ++ [['}']])

/-- `normalize_singles`. The source sorts the items by line; the scan lists them in that order. -/
def normalizeSingles (ls : List Str) (pkg : Str) : List Str :=
  let t := targetScan ls pkg
  let items := t.singles.filterMap (singleItem ls)
  match items with
  | [] => ls
  | first :: _ =>
    if normalizeBlocked t items then ls
    else
      -- from the last one up, so that the smaller indices stay right
      let removed := items.reverse.foldl (fun ls it => lineRemove ls pkg it.1) ls
      placeItems removed pkg first.1.idx (items.map (·.2))

/-! ## Adding or changing a rule -/

/-- The package-level half of `rule_upsert`. -/
def upsertPackage (ls : List Str) (t : Target) (pkg cpus : Str) : LineEdit :=
  match t.pkgLine with
  | some (.standalone i) => .ok (ls.set i (specSwap (ls.getD i []) cpus))
  | some (.barePending i) =>
    let ls := ls.set i (withComment (pkg ++ '=' :: cpus ++ [' ', '{']) (ls.getD i []))
    match t.blockOpen with
    | some opn => .ok (if parseOuter (trim (ls.getD opn [])) = .bareOpen [] then ls.eraseIdx opn else ls)
    | none => .ok ls
  | some (.openInline i) => .ok (ls.set i (specSwap (ls.getD i []) cpus))
  | some (.bareOpen i) =>
    .ok (ls.set i (withComment (pkg ++ '=' :: cpus ++ [' ', '{']) (ls.getD i [])))
  | none => if t.unterminated then .error .malformed else .ok (ls ++ [pkg ++ '=' :: cpus])

/-- The thread half of `rule_upsert`. -/
def upsertThread (ls : List Str) (t : Target) (pkg thread cpus : Str) : LineEdit :=
  let ruleLine := '\t' :: thread ++ '=' :: cpus
  let locs := t.locs thread
  match locs.getLast? with
  | some last =>
    -- the last rule of the thread gets the spec, the others go
    let ls := ls.set last.idx (specSwap (ls.getD last.idx []) cpus)
    .ok (locs.dropLast.reverse.foldl (fun ls loc => lineRemove ls pkg loc) ls)
  | none =>
    match t.blockClose, t.pkgLine with
    | some close, _ => .ok (spliceAt ls close [ruleLine])
    | none, some (.standalone i) =>
      .ok (spliceAt (ls.set i (trimEnd (ls.getD i []) ++ [' ', '{'])) (i + 1) [ruleLine, ['}']])
    | none, _ =>
      if t.unterminated then .error .malformed
      else .ok (ls ++ [bareOpenLine pkg, ruleLine, ['}']])

def upsertLines (pkg thread cpus : Str) (ls : List Str) : LineEdit :=
  let ls := normalizeSingles ls pkg
  let t := targetScan ls pkg
  if thread.isEmpty then upsertPackage ls t pkg cpus else upsertThread ls t pkg thread cpus

/-! ## Removing rules -/

def deleteLines (pkg thread : Str) (ls : List Str) : LineEdit :=
  let ls := normalizeSingles ls pkg
  let t := targetScan ls pkg
  if thread.isEmpty then
    match t.pkgLine with
    | some (.standalone i) => .ok (ls.eraseIdx i)
    -- the header loses its spec and keeps its block
    | some (.openInline i) => .ok (ls.set i (bareOpenLine pkg))
    | _ => .error .notFound
  else if t.locs thread = [] then .error .notFound
  else .ok ((t.locs thread).reverse.foldl (fun ls loc => lineRemove ls pkg loc) ls)

def PkgLine.idx : PkgLine → Nat
  | .standalone i | .openInline i | .bareOpen i | .barePending i => i

/-- The last line of the range that `rule_delete_pkg` removes for an open block. -/
def blockEnd (t : Target) (opn : Nat) : Nat :=
  (t.blockClose.or (((t.threads.map (·.2)).filter (!·.single)).map (·.idx)).max?).getD opn

/-- The line indices one round of `rule_delete_pkg` removes, in ascending order. -/
def deleteRound (t : Target) : List Nat :=
  let header := (t.pkgLine.map PkgLine.idx).toList
  let block := match t.blockOpen with
    | some opn => List.range' opn (blockEnd t opn + 1 - opn)
    | none => []
  ((header ++ block ++ t.singles.map (·.idx)).insertionSort (· ≤ ·)).dedup

/-- The loop of `rule_delete_pkg`, with the flag `removed`. -/
def deletePkgLoop (pkg : Str) : Nat → List Str → Bool → Option (List Str × Bool)
  | 0, _, _ => none
  | fuel + 1, ls, removed =>
    let t := targetScan ls pkg
    if !t.anyLine then some (ls, removed)
    else deletePkgLoop pkg fuel ((deleteRound t).reverse.foldl (fun ls i => ls.eraseIdx i) ls) true

def deletePkgLines (fuel : Nat) (pkg : Str) (ls : List Str) : Option LineEdit :=
  (deletePkgLoop pkg fuel (normalizeSingles ls pkg) false).map fun (ls, removed) =>
    if removed then .ok ls else .error .notFound

/-! ## Renaming -/

/-- `str::strip_prefix`. -/
def stripPrefix (p s : Str) : Option Str := if p.isPrefixOf s then some (s.drop p.length) else none

/-- What one line becomes when its package key is rewritten. -/
def renameLine (old new line : Str) : Str :=
  match stripPrefix old (trim line) with
  | none => line
  | some rest =>
    -- a name with an `=` needs one behind it, or the line would be read as a pair
    let tail :=
      if '=' ∈ new then
        if trim rest = [] ∨ trim rest = ['='] then ['=']
        else if trim rest = ['{'] then ['=', ' ', '{']
        else rest
      else rest
    new ++ tail

/-- The lines one round of `rule_rename` rewrites. -/
def renameRound (t : Target) : List Nat :=
  t.singles.map (·.idx) ++ (t.pkgLine.map PkgLine.idx).toList

/-- The loop of `rule_rename`. -/
def renameLoop (old new : Str) : Nat → List Str → Option (List Str)
  | 0, _ => none
  | fuel + 1, ls =>
    match renameRound (targetScan ls old) with
    | [] => some ls
    | idxs =>
      renameLoop old new fuel (idxs.foldl (fun ls i => ls.set i (renameLine old new (ls.getD i []))) ls)

def renameLines (fuel : Nat) (old new : Str) (ls : List Str) : Option LineEdit :=
  let ls := normalizeSingles ls old
  -- the lines are normalised before the two checks
  if !(targetScan ls old).anyLine then some (.error .notFound)
  else if (targetScan ls new).anyLine then some (.error .conflict)
  else (renameLoop old new fuel ls).map .ok

/-- A rename that writes: the loop has ended, and nothing stood under the new name. -/
theorem renameLines_ok {fuel : Nat} {old new : Str} {ls ls' : List Str}
    (h : renameLines fuel old new ls = some (.ok ls')) :
    renameLoop old new fuel (normalizeSingles ls old) = some ls' ∧
      (targetScan (normalizeSingles ls old) new).anyLine = false := by
  unfold renameLines at h
  dsimp only at h
  split at h
  · cases h
  · split at h
    · cases h
    · next hnone =>
      obtain ⟨out, hloop, hout⟩ := Option.map_eq_some_iff.mp h
      rw [← Except.ok.inj hout]
      exact ⟨hloop, by simpa using hnone⟩

theorem renameLines_error {fuel : Nat} {old new : Str} {ls : List Str} {e : RuleEdit}
    (h : renameLines fuel old new ls = some (.error e)) : e = .notFound ∨ e = .conflict := by
  unfold renameLines at h
  dsimp only at h
  split at h
  · exact .inl (Except.error.inj (Option.some.inj h)).symm
  · split at h
    · exact .inr (Except.error.inj (Option.some.inj h)).symm
    · obtain ⟨_, _, hout⟩ := Option.map_eq_some_iff.mp h
      cases hout

/-! ## Cloning -/

/-- What a clone takes over from the source: `package_cpus` and `threads`. -/
structure CloneRules where
  packageCpus : Option Str
  threads : List (Str × Str)

def clonePackageSpec (ls : List Str) (target : Target) : Option Str :=
  match target.pkgLine with
  | some (.standalone i) | some (.openInline i) =>
    match parseOuter (trim (ls.getD i [])) with
    | .rule _ cpus _ => some cpus
    | _ => none
  | _ => none

def cloneThreadSpec (ls : List Str) (loc : ThreadLoc) : Option Str :=
  let line := trim (ls.getD loc.idx [])
  if loc.single then
    let raw := stripComment line
    let body := ((stripSuffix '{' raw).map trimEnd).getD raw
    (splitSingleLine body).map fun (_, _, cpus) => cpus
  else (splitRuleLine line).map fun (_, cpus, _) => cpus

/-- `clone_prepare`: the lines after both normalisations, and the rules to copy. The source sorts the
    thread entries by line; the scan lists them in that order. -/
def clonePrepare (source target : Str) (copyPackage copyThreads : Bool) (ls : List Str) :
    Except RuleEdit (List Str × CloneRules) :=
  let ls := normalizeSingles (normalizeSingles ls source) target
  let sourceRules := targetScan ls source
  let targetRules := targetScan ls target
  if sourceRules.unterminated || targetRules.unterminated then .error .malformed
  -- a clone never adds to rules that are there
  else if targetRules.anyLine then .error .conflict
  else
    let packageCpus := clonePackageSpec ls sourceRules
    if copyPackage && packageCpus.isNone then .error .notFound
    else
      let threads := sourceRules.threads.filterMap fun (thread, loc) =>
        (cloneThreadSpec ls loc).map fun cpus => (thread, cpus)
      if copyThreads && threads.isEmpty then .error .notFound
      else
        .ok (ls, { packageCpus := if copyPackage then packageCpus else none,
                   threads := if copyThreads then threads else [] })

/-- `clone_append`: a blank line unless there is one, then the package line or the block. -/
def cloneAppend (ls : List Str) (target : Str) (rules : CloneRules) : List Str :=
  let gap := if ls ≠ [] ∧ trim (ls.getLastD []) ≠ [] then [[]] else []
  let chunk :=
    if rules.threads.isEmpty then
      match rules.packageCpus with
      | some cpus => [target ++ '=' :: cpus]
      | none => []
    else
      let header := match rules.packageCpus with
        | some cpus => target ++ '=' :: cpus ++ [' ', '{']
        | none => bareOpenLine target
      header :: rules.threads.map (fun (thread, cpus) => '\t' :: thread ++ '=' :: cpus) ++ [['}']]
  ls ++ gap ++ chunk

def cloneLines (source target : Str) (copyPackage copyThreads : Bool) (ls : List Str) : LineEdit :=
  (clonePrepare source target copyPackage copyThreads ls).map fun (ls, rules) =>
    cloneAppend ls target rules

/-! ## The file around an edit -/

/-- The pattern all operations share: read the file (unreadable text counts as empty), edit the lines,
    write them to a temporary file and rename it. `writeOk` is the outcome of that last part. The new
    content of the file comes with the result. -/
def editFile (edit : List Str → LineEdit) (writeOk : Bool) (content : Option Str) :
    RuleEdit × Option Str :=
  match edit (lines (content.getD [])) with
  | .error e => (e, content)
  | .ok ls => if writeOk then (.ok, some (unlines ls)) else (.ioErr, content)

def ruleUpsert (writeOk : Bool) (content : Option Str) (pkg thread cpus : Str) : RuleEdit × Option Str :=
  editFile (upsertLines pkg thread cpus) writeOk content

def ruleDelete (writeOk : Bool) (content : Option Str) (pkg thread : Str) : RuleEdit × Option Str :=
  editFile (deleteLines pkg thread) writeOk content

def ruleDeletePkg (fuel : Nat) (writeOk : Bool) (content : Option Str) (pkg : Str) :
    Option (RuleEdit × Option Str) :=
  (deletePkgLines fuel pkg (lines (content.getD []))).map fun e => editFile (fun _ => e) writeOk content

def ruleRename (fuel : Nat) (writeOk : Bool) (content : Option Str) (old new : Str) :
    Option (RuleEdit × Option Str) :=
  (renameLines fuel old new (lines (content.getD []))).map fun e => editFile (fun _ => e) writeOk content

/-- `rule_clone`. -/
def ruleClone (writeOk : Bool) (content : Option Str) (source target : Str)
    (copyPackage copyThreads : Bool) : RuleEdit × Option Str :=
  editFile (cloneLines source target copyPackage copyThreads) writeOk content

end AppOptR
