import AppOptR.RuleEdit.Correctness.BookRun
import AppOptR.Web.Server

/-!
# `Web.Desk` — what the page edits

The web side without files, statics and reloads: a *desk* is the book of rules, the tuning configuration, and the
pair of both that the daemon works with (`shown`). `Deed` is what an accepted request asks for, `Desk.serve` what the
desk makes of it; a clone is a single step of both sides. `Web.Correctness.Desk` proves that the server's handlers
do to their files and statics what the desk says. Only requests are steps: the loader thread makes no reload of
its own between them.
-/

namespace AppOptR

open Text Json

/-- What the page edits, and what the daemon works with. -/
structure Desk where
  book : Book
  tuning : TuningConfig
  /-- What was last loaded. -/
  shown : Book × TuningConfig

/-- What an accepted request asks for. -/
inductive Deed where
  | edit (call : EditCall)
  | clone (args : CloneArgs)
  | setTuning (config : TuningConfig)
  deriving DecidableEq

/-- What a body asks a handler for, if the checks that come before the first look at a file accept it. -/
def deedIn (topo : CpuTopology) (body : Option Value) : Option Api → Option Deed
  | some .rule =>
    (ruleApiArgs body (some topo)).toOption.map fun (pkg, thread, cpus) => .edit (.upsert pkg thread cpus)
  | some .ruleDel =>
    (ruleDelApiArgs body).toOption.map fun (pkg, thread, all) =>
      .edit (if all then .deletePkg pkg else .delete pkg thread)
  | some .ruleRename => (ruleRenameApiArgs body).toOption.join.map fun (old, new) => .edit (.rename old new)
  | some .ruleClone => (ruleCloneApiArgs body).toOption.map .clone
  | some .tuningSet => (tuningSetArgs body).toOption.map .setTuning
  | _ => none

/-- What a request asks for. -/
def deedOf (parseJson : List UInt8 → Option Value) (topo : CpuTopology) (req : Request) : Option Deed :=
  if !originOk req then none else deedIn topo (parseJson req.body) (apiOf req.method req.path)

/-- The status of an edit's result. -/
def editStatus : RuleEdit → Nat
  | .ok => 200
  | .notFound => 404
  | .conflict | .malformed => 409
  | .ioErr => 500

namespace Desk

/-- A reload, if the file can be loaded. -/
def reload (io : ServerIo) (d : Desk) : Desk := if io.metadataOk then { d with shown := (d.book, d.tuning) } else d

/-- An edit of the rules; where it is written, it is loaded. -/
def edit (io : ServerIo) (d : Desk) (call : EditCall) : Desk × Nat :=
  match d.book.edit call with
  | .error e => (d, editStatus e)
  | .ok book => if io.writeOk then (reload io { d with book := book.written }, 200) else (d, 500)

/-- The CPU side of a clone, as far as it is asked for. -/
def cloneBook (d : Desk) (args : CloneArgs) : Except RuleEdit Book :=
  if args.copyCpu then (d.book.clone args.source args.target args.cpuPackage args.cpuThreads).map Book.written
  else .ok d.book

/-- The tuning side of a clone. -/
def cloneTuning (d : Desk) (args : CloneArgs) : Result TuningConfig :=
  if args.copyTuning then cloneAppConfig d.tuning args.source args.target args.tuningMemory args.tuningThreads
  else .ok d.tuning

/-- Both sides, or none of them; where only the second write fails, the first stays and nothing is loaded. -/
def clone (io : ServerIo) (d : Desk) (args : CloneArgs) : Desk × Nat :=
  match d.cloneBook args, d.cloneTuning args with
  | .error e, _ => (d, editStatus e)
  | .ok _, .error e => (d, if containsStr "目标应用".toList e then 409 else 404)
  | .ok book, .ok tuning =>
    if args.copyCpu && !io.writeOk then (d, 500)
    else if args.copyTuning && io.tuning.error.isSome then ({ d with book }, 500)
    else (reload io { d with book, tuning }, 200)

/-- A new tuning configuration; where it is written, it is loaded. -/
def setTuning (io : ServerIo) (d : Desk) (config : TuningConfig) : Desk × Nat :=
  if io.tuning.error.isSome then (d, 500) else (reload io { d with tuning := config }, 200)

/-- What the desk makes of a deed, and the status it answers. -/
def serve (io : ServerIo) (d : Desk) : Deed → Desk × Nat
  | .edit call => d.edit io call
  | .clone args => d.clone io args
  | .setTuning config => d.setTuning io config

/-- One request, and the status of its response where it asks for a deed. -/
def step (parseJson : List UInt8 → Option Value) (topo : CpuTopology) (d : Desk) (c : Request × ServerIo) :
    Desk × List Nat :=
  match deedOf parseJson topo c.1 with
  | none => (d, [])
  | some deed => ((d.serve c.2 deed).1, [(d.serve c.2 deed).2])

end Desk

/-- The rules of a package as the page shows them. -/
def Book.shown (topo : CpuTopology) (pkg : Str) (b : Book) : List RuleItem :=
  (b.rules.filter fun e => e.1 = pkg).map fun e => ⟨e.2.1, specName (parseCpuSpec e.2.2 topo) topo⟩

/-- The new names of a deed have none of the characters of the line grammar, and its spec stays on its line. -/
def Deed.Plain : Deed → Prop
  | .edit (.upsert pkg thread cpus) => PlainName pkg ∧ PlainName thread ∧ ∀ c ∈ cpus, isControl c = false
  | .edit (.rename _ new) => PlainName new
  | .clone args => args.copyCpu = true → PlainName args.target
  | .edit _ | .setTuning _ => True

/-- The daemon's configuration is what the loader makes of a book and a tuning configuration. -/
structure Loaded (topo : CpuTopology) (cfg : AppConfig) (book : Book) (tuning : TuningConfig) : Prop where
  topology : cfg.topo = topo
  rules : cfg.rules.map AffinityRule.view = book.rules.map (parsed topo)
  pkgs : cfg.pkgs = (book.rules.map (·.1)).toFinset ∪ appPackageNames tuning
  threads : cfg.hasThreadRules
    = ((book.rules.filter fun e => !e.2.1.isEmpty).map (·.1)).toFinset ∪ threadRulePackages tuning

/-- A request whose deed is plain, and which does not name another rules file. -/
structure Fair (parseJson : List UInt8 → Option Value) (topo : CpuTopology) (req : Request) : Prop where
  plain : ∀ deed ∈ deedOf parseJson topo req, deed.Plain
  stays : apiOf req.method req.path = some .configSet →
    ∀ v ∈ parseJson req.body, (v.index "config_file".toList).asStr = none

/-- The server holds what the desk says. -/
structure Server.Holds (topo : CpuTopology) (s : Server) (d : Desk) : Prop where
  present : s.content.isSome = true
  file : lines (s.content.getD []) = d.book.text
  ok : d.book.Ok topo
  tuning : s.tuning.config = d.tuning
  shown : ∃ cfg, s.current = some cfg ∧ Loaded topo cfg d.shown.1 d.shown.2

end AppOptR
