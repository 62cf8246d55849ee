import AppOptR.Config.Load

/-!
# `RuleEdit.Scan` — `target_scan`

The rule editor's own pass over the lines of a rules file: where the header, the first block and the
thread rules of one package stand. It is a second, separately written state machine over the line grammar
of `Config.Line`; that it reads the lines as the loader does is proved in `RuleEdit.Correctness.Lockstep`.

`threads` is a `HashMap<String, Vec<ThreadLoc>>` in the source. Here it is the list of its entries in the
order of the pushes: `locs` is `get`, and every use of the map's iteration order in the source is followed
by a sort on the line index or does not depend on it.
-/

namespace AppOptR

open Text

/-- The first header line of the package, by its shape. -/
inductive PkgLine where
  | standalone (i : Nat)
  | openInline (i : Nat)
  | bareOpen (i : Nat)
  | barePending (i : Nat)
  deriving DecidableEq

structure ThreadLoc where
  idx : Nat
  single : Bool
  closed : Bool
  opens : Bool
  deriving DecidableEq

structure Target where
  pkgLine : Option PkgLine := none
  blockOpen : Option Nat := none
  blockClose : Option Nat := none
  threads : List (Str × ThreadLoc) := []
  unterminated : Bool := false
  deriving DecidableEq

namespace Target

/-- The closure `block_open`: remember the opening line until a block has been closed. -/
def openBlock (t : Target) (i : Nat) : Target :=
  if t.blockClose.isNone then { t with blockOpen := some i } else t

/-- `if t.pkg_line.is_none() { t.pkg_line = Some(..) }`. -/
def notePkgLine (t : Target) (l : PkgLine) : Target :=
  if t.pkgLine.isNone then { t with pkgLine := some l } else t

def pushThread (t : Target) (name : Str) (loc : ThreadLoc) : Target :=
  { t with threads := t.threads ++ [(name, loc)] }

/-- `threads.get(name)`. -/
def locs (t : Target) (name : Str) : List ThreadLoc :=
  (t.threads.filter fun e => e.1 = name).map (·.2)

def singles (t : Target) : List ThreadLoc := (t.threads.map (·.2)).filter (·.single)

def anyLine (t : Target) : Bool := t.pkgLine.isSome || !t.singles.isEmpty

end Target

/-- The locals of the loop of `target_scan`. -/
structure ScanState where
  t : Target := {}
  pending : Option Nat := none
  inBlock : Bool := false
  targetBlock : Bool := false

/-- `in_block = false`, then the closure `block_close`. -/
def ScanState.closeBlock (s : ScanState) (i : Nat) : ScanState :=
  { s with
    inBlock := false
    targetBlock := false
    t := if s.targetBlock && s.t.blockClose.isNone then { s.t with blockClose := some i } else s.t }

/-- One iteration of the loop of `target_scan`, on the line of index `l.2`. -/
def scanLine (ls : List Str) (pkg : Str) (s : ScanState) (l : Str × Nat) : ScanState :=
  let i := l.2
  let p := trim l.1
  if skipped p then s
  else if s.inBlock then
    if closeLike p then s.closeBlock i
    else match splitRuleLine p with
      | some (name, _, closed) =>
        -- the entry is pushed before the brace behind it closes the block
        let s :=
          if s.targetBlock && !name.isEmpty then
            { s with t := s.t.pushThread name { idx := i, single := false, closed, opens := false } }
          else s
        if closed then s.closeBlock i else s
      | none => if '}' ∈ p then s.closeBlock i else s
  else match parseOuter p with
    | .single pg th _ opens =>
      let t :=
        if pg = pkg ∧ th ≠ [] then
          s.t.pushThread th { idx := i, single := true, closed := false, opens }
        else s.t
      if opens then
        { s with
          pending := none
          inBlock := true
          targetBlock := s.targetBlock || pg = pkg
          t := if pg = pkg then t.openBlock i else t }
      else { s with pending := none, t }
    | .rule pg _ opens =>
      if opens then
        { s with
          pending := none
          inBlock := true
          targetBlock := s.targetBlock || pg = pkg
          t := if pg = pkg then (s.t.openBlock i).notePkgLine (.openInline i) else s.t }
      else
        { s with
          pending := none
          t := if pg = pkg then s.t.notePkgLine (.standalone i) else s.t }
    | .bareOpen owner =>
      if owner ≠ [] then
        { s with
          pending := none
          inBlock := true
          targetBlock := s.targetBlock || owner = pkg
          t := if owner = pkg then (s.t.openBlock i).notePkgLine (.bareOpen i) else s.t }
      else match s.pending with
        | none => s
        | some pi =>
          -- the header line is read a second time, for its key
          let own := parseOuter (trim (ls.getD pi [])) = .pending pkg
          { s with
            pending := none
            inBlock := true
            targetBlock := s.targetBlock || decide own
            t := if own then (s.t.openBlock i).notePkgLine (.barePending pi) else s.t }
    -- only the index is kept, not the key
    | .pending _ => { s with pending := some i }
    | .junk => { s with pending := none }

/-- The loop of `target_scan` over some first lines of `ls`. -/
def scanPrefix (ls : List Str) (pkg : Str) (pre : List Str) : ScanState :=
  pre.zipIdx.foldl (scanLine ls pkg) {}

def targetScan (ls : List Str) (pkg : Str) : Target :=
  let s := scanPrefix ls pkg ls
  { s.t with unterminated := s.inBlock }

theorem scanPrefix_concat (ls : List Str) (pkg : Str) (pre : List Str) (l : Str) :
    scanPrefix ls pkg (pre ++ [l]) = scanLine ls pkg (scanPrefix ls pkg pre) (l, pre.length) := by
  simp [scanPrefix, List.zipIdx_append]

end AppOptR
