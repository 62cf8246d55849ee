import AppOptR.RuleEdit.Correctness.Changed
import AppOptR.RuleEdit.Disk

/-!
# `RuleEdit.Book` — a rules file as its own editor writes it

What the editor is for, apart from lines and braces: a *book* is a list of package entries, each a spec for
the package, a block of thread specs, or both, in file order and with the empty lines a clone leaves between
them. `Book.text` lays a book out as lines, `Book.edit` says what each of the five operations does to it, and
`Book.rules` which rules it states. A book has no comment lines. That the operations of `RuleEdit.Ops` do to the
lines what `Book.edit` does to the book is proved in `BookUpsert`, `BookRemove` and `BookClone`, and for whole
runs in `BookRun`, all of them under `RuleEdit.Correctness`.
-/

namespace AppOptR

open Text

/-! ## Books -/

/-- A spec as a line holds it. A swap keeps the blanks inside the old spec, and they stay behind the new
    one as `pad`. -/
structure SpecText where
  cpus : Str
  pad : Str
  deriving DecidableEq

/-- A spec just written. -/
def SpecText.fresh (cpus : Str) : SpecText := ⟨cpus, []⟩

/-- What is stated of a package: a spec alone, or a block, with or without a spec of the package. -/
inductive Body where
  | line (s : SpecText)
  | block (s : Option SpecText) (threads : List (Str × SpecText))
  deriving DecidableEq

/-- An empty line, or what is stated of a package. -/
inductive Item where
  | gap
  | entry (pkg : Str) (body : Body)
  deriving DecidableEq

/-- A rules file, top to bottom. -/
abbrev Book := List Item

/-! ## The text -/

def SpecText.text (s : SpecText) : Str := s.cpus ++ s.pad

/-- The header line of an entry. -/
def Body.header (pkg : Str) : Body → Str
  | .line s => pkg ++ '=' :: s.text
  | .block (some s) _ => pkg ++ '=' :: (s.text ++ [' ', '{'])
  | .block none _ => pkg ++ [' ', '{']

/-- The line of a thread in a block. -/
def threadLine (t : Str × SpecText) : Str := '\t' :: (t.1 ++ '=' :: t.2.text)

/-- The lines under the header. -/
def Body.inner : Body → List Str
  | .line _ => []
  | .block _ threads => threads.map threadLine ++ [['}']]

def Body.text (pkg : Str) (body : Body) : List Str := body.header pkg :: body.inner

def Item.text : Item → List Str
  | .gap => [[]]
  | .entry pkg body => body.text pkg

/-- The lines of a book. -/
def Book.text (b : Book) : List Str := b.flatMap Item.text

/-! ## What a book says -/

def Item.pkg? : Item → Option Str
  | .gap => none
  | .entry pkg _ => some pkg

def Book.pkgs (b : Book) : List Str := b.filterMap Item.pkg?

/-- The entry of a package. -/
def Book.find (pkg : Str) : Book → Option Body
  | [] => none
  | .gap :: b => Book.find pkg b
  | .entry p body :: b => if p = pkg then some body else Book.find pkg b

/-- The specs of a body, by thread; the empty name is the package itself. -/
def Body.specs : Body → List (Str × Str)
  | .line s => [([], s.cpus)]
  | .block s threads => (s.toList.map fun s => ([], s.cpus)) ++ threads.map fun t => (t.1, t.2.cpus)

def Item.rules : Item → List (Str × Str × Str)
  | .gap => []
  | .entry pkg body => body.specs.map fun s => (pkg, s.1, s.2)

/-- The rules of a book, as package, thread and spec. -/
def Book.rules (b : Book) : List (Str × Str × Str) := b.flatMap Item.rules

/-! ## Editing a book -/

/-- The spec in place of another one. -/
def SpecText.swap (s : SpecText) (cpus : Str) : SpecText :=
  ⟨cpus, (s.cpus.dropWhile fun c => !valueEnd c).filter valueEnd ++ s.pad⟩

/-- The spec of a thread put in place, or at the end of the block. -/
def setThread (thread cpus : Str) : List (Str × SpecText) → List (Str × SpecText)
  | [] => [(thread, .fresh cpus)]
  | (t, s) :: threads =>
    if t = thread then (t, s.swap cpus) :: threads else (t, s) :: setThread thread cpus threads

/-- A body with a spec put in place; a spec alone becomes a block when a thread joins it. -/
def Body.upsert (thread cpus : Str) : Body → Body
  | .line s =>
    if thread = [] then .line (s.swap cpus)
    else .block (some (.fresh s.cpus)) [(thread, .fresh cpus)]
  | .block s threads =>
    if thread = [] then .block (some ((s.map fun s => s.swap cpus).getD (.fresh cpus))) threads
    else .block s (setThread thread cpus threads)

/-- A body without the spec of a thread, or without the package's own; `some none` when nothing is left. -/
def Body.delete (thread : Str) : Body → Option (Option Body)
  | .line _ => if thread = [] then some none else none
  | .block s threads =>
    if thread = [] then (if s.isSome then some (some (.block none threads)) else none)
    else if (threads.map (·.1)).contains thread then
      some (some (.block s (threads.filter fun t => t.1 ≠ thread)))
    else none

/-- Put `items` in place of the entry of a package. -/
def Book.replace (pkg : Str) (items : Body → List Item) : Book → Book
  | [] => []
  | .gap :: b => .gap :: Book.replace pkg items b
  | .entry p body :: b =>
    if p = pkg then items body ++ b else .entry p body :: Book.replace pkg items b

/-- A body that was not there. -/
def Body.fresh (thread cpus : Str) : Body :=
  if thread = [] then .line (.fresh cpus) else .block none [(thread, .fresh cpus)]

/-- An upsert never fails. -/
def Book.upsert (pkg thread cpus : Str) (b : Book) : Book :=
  match b.find pkg with
  | some body => b.replace pkg fun _ => [.entry pkg (body.upsert thread cpus)]
  | none => b ++ [.entry pkg (.fresh thread cpus)]

/-- A delete of one spec; an entry that says nothing any more goes. -/
def Book.delete (pkg thread : Str) (b : Book) : Except RuleEdit Book :=
  match (b.find pkg).bind (Body.delete thread) with
  | some body => .ok (b.replace pkg fun _ => (body.map fun body => .entry pkg body).toList)
  | none => .error .notFound

/-- A delete of the entry. -/
def Book.deletePkg (pkg : Str) (b : Book) : Except RuleEdit Book :=
  match b.find pkg with
  | some _ => .ok (b.replace pkg fun _ => [])
  | none => .error .notFound

/-- What a rename makes of a body: the blanks behind a header without a block go. -/
def Body.renamed : Body → Body
  | .line s => .line (.fresh s.cpus)
  | .block s threads => .block s threads

/-- A rename to a package that is not there. -/
def Book.rename (old new : Str) (b : Book) : Except RuleEdit Book :=
  match b.find old, b.find new with
  | none, _ => .error .notFound
  | some _, some _ => .error .conflict
  | some _, none => .ok (b.replace old fun body => [.entry new body.renamed])

def Body.pkgSpec : Body → Option SpecText
  | .line s => some s
  | .block s _ => s

def Body.threadSpecs : Body → List (Str × SpecText)
  | .line _ => []
  | .block _ threads => threads

/-- The body of a clone: the categories asked for, if the source states each. -/
def Body.clone (copyPackage copyThreads : Bool) (body : Body) : Option Body :=
  let threads := body.threadSpecs.map fun t => (t.1, SpecText.fresh t.2.cpus)
  if copyThreads && threads.isEmpty then none
  else if copyThreads then
    if copyPackage then body.pkgSpec.map fun s => .block (some (.fresh s.cpus)) threads
    else some (.block none threads)
  else body.pkgSpec.map fun s => .line (.fresh s.cpus)

/-- An empty line ends the book, or there is none. -/
def Book.endsBlank (b : Book) : Bool := b.getLast?.all fun i => i = .gap

/-- A clone goes to the end of the book, behind an empty line. -/
def Book.clone (source target : Str) (copyPackage copyThreads : Bool) (b : Book) :
    Except RuleEdit Book :=
  if (b.find target).isSome then .error .conflict
  else match (b.find source).bind (Body.clone copyPackage copyThreads) with
    | some body => .ok (b ++ (if b.endsBlank then [] else [.gap]) ++ [.entry target body])
    | none => .error .notFound

/-- What an operation does to a book. -/
def Book.edit (b : Book) : EditCall → Except RuleEdit Book
  | .upsert pkg thread cpus => .ok (b.upsert pkg thread cpus)
  | .delete pkg thread => b.delete pkg thread
  | .deletePkg pkg => b.deletePkg pkg
  | .rename old new => b.rename old new
  | .clone source target copyPackage copyThreads => b.clone source target copyPackage copyThreads

/-! ## Books in order -/

variable {topo : CpuTopology} {b : Book} {pkg thread cpus : Str} {body : Body} {s : SpecText}

/-- A spec that stays on its line. -/
structure Printable (topo : CpuTopology) (cpus : Str) : Prop extends Spec topo cpus where
  clean : ∀ c ∈ cpus, isControl c = false

/-- A spec on its line can be read back. -/
structure SpecText.Ok (topo : CpuTopology) (s : SpecText) : Prop where
  spec : Printable topo s.cpus
  blank : Blank s.pad
  clean : ∀ c ∈ s.pad, isControl c = false

/-- A name the web API admits, without the characters of the line grammar. -/
structure Title (max : Nat) (s : Str) : Prop where
  name : Name max s
  plain : PlainName s

/-- Every thread once, each under a title and with a spec that can be read back. -/
structure Body.Ok (topo : CpuTopology) (body : Body) : Prop where
  spec : ∀ s ∈ body.pkgSpec, s.Ok topo
  threads : ∀ t ∈ body.threadSpecs, Title maxThreadLen t.1 ∧ t.2.Ok topo
  distinct : (body.threadSpecs.map (·.1)).Nodup

def Item.Ok (topo : CpuTopology) : Item → Prop
  | .gap => True
  | .entry pkg body => Title maxPkgLen pkg ∧ body.Ok topo

/-- One entry a package, one line a thread, and nothing on a line that the grammar could misread. -/
structure Book.Ok (topo : CpuTopology) (b : Book) : Prop where
  items : ∀ i ∈ b, i.Ok topo
  distinct : b.pkgs.Nodup

/-- A call whose new names are titles and whose spec stays on its line. A name that is only looked up or
    removed may be anything. -/
def EditCall.Admitted (topo : CpuTopology) : EditCall → Prop
  | .upsert pkg thread cpus =>
    Title maxPkgLen pkg ∧ (thread ≠ [] → Title maxThreadLen thread) ∧ Printable topo cpus
  | .delete _ _ | .deletePkg _ => True
  | .rename _ new => Title maxPkgLen new
  | .clone _ target copyPackage copyThreads => Title maxPkgLen target ∧ (copyPackage || copyThreads) = true

end AppOptR
