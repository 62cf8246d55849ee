import AppOptR.Lib.Text
import AppOptR.Lib.Utf8
import AppOptR.Lib.Lossy
import AppOptR.Lib.Json
import AppOptR.Lib.Mealy
import AppOptR.Cpuset
import AppOptR.Lib.Runs
import AppOptR.Config.Line
import AppOptR.Tuning.Config
import AppOptR.Tuning.Correctness.RoundTrip
import AppOptR.Config.Outline
import AppOptR.Config.Load
import AppOptR.Config.Frame
import AppOptR.Config.Rewrite
import AppOptR.ProcFs
import AppOptR.RuleMatch
import AppOptR.Ebpf.Whitelist
import AppOptR.Ebpf.Correctness.Attribution
import AppOptR.RuleEdit.Scan
import AppOptR.RuleEdit.Ops
import AppOptR.RuleEdit.Correctness.Lockstep
import AppOptR.RuleEdit.Written
import AppOptR.Web.RuleApi
import AppOptR.RuleEdit.Correctness.Store
import AppOptR.Tuning.Store
import AppOptR.Tuning.Correctness.Agreement
import AppOptR.Cache
import AppOptR.ProcWalk
import AppOptR.ProcMode
import AppOptR.ProcMode.Correctness.Discovery
import AppOptR.Ebpf.Events
import AppOptR.Ebpf.Correctness.OwnAffinity
import AppOptR.Ebpf.Kernel
import AppOptR.Ebpf.Correctness.Coverage
import AppOptR.MainLoop
import AppOptR.MainLoop.Correctness.Handover
import AppOptR.Config.Reload
import AppOptR.Config.Watch
import AppOptR.Config.Correctness.Watched
import AppOptR.Config.Correctness.TuningListed
import AppOptR.RuleEdit.Correctness.Anatomy
import AppOptR.RuleEdit.Correctness.Changed
import AppOptR.RuleEdit.Correctness.DeletePackage
import AppOptR.RuleEdit.Correctness.DeleteRule
import AppOptR.RuleEdit.Correctness.RenameEnds
import AppOptR.RuleEdit.Correctness.Unreadable
import AppOptR.RuleEdit.Correctness.RenameCarries
import AppOptR.RuleEdit.Correctness.Clone
import AppOptR.RuleMatch.Correctness.Documented
import AppOptR.Tuning.Correctness.MemoryLimit
import AppOptR.Tuning.Correctness.CloneExact
import AppOptR.Cpuset.Ranges
import AppOptR.Web.RulesJson
import AppOptR.RuleEdit.Correctness.SpecSwap
import AppOptR.RuleEdit.Correctness.Idempotent
import AppOptR.Config.Correctness.TrailingComments
import AppOptR.Web.Settings
import AppOptR.Web.Correctness.Settings
import AppOptR.Cpuset.Canonical
import AppOptR.Cpuset.CoreTypes
import AppOptR.Lib.ListScript
import AppOptR.RuleEdit.Script
import AppOptR.RuleEdit.Correctness.Comments
import AppOptR.RuleEdit.Correctness.OtherPackages
import AppOptR.RuleEdit.Book
import AppOptR.RuleEdit.Correctness.BookScan
import AppOptR.RuleEdit.Correctness.BookLoad
import AppOptR.RuleEdit.Correctness.BookUpsert
import AppOptR.RuleEdit.Correctness.BookRemove
import AppOptR.RuleEdit.Correctness.BookClone
import AppOptR.RuleEdit.Correctness.BookRun
import AppOptR.RuleEdit.Correctness.Ledger
import AppOptR.Tuning.Apply
import AppOptR.Tuning.Correctness.Confinement
import AppOptR.Tuning.Correctness.Scheduling
import AppOptR.Tuning.Correctness.Restart
import AppOptR.Tuning.Correctness.Warnings
import AppOptR.Web.Http
import AppOptR.Web.Correctness.Http
import AppOptR.Web.Correctness.Pipeline
import AppOptR.Lib.TopK
import AppOptR.Web.Suggest
import AppOptR.Web.Server
import AppOptR.Web.Correctness.Requests
import AppOptR.Web.Correctness.Served
import AppOptR.Web.Desk
import AppOptR.Web.Correctness.Desk
