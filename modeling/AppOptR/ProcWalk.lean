import AppOptR.Cache

/-!
# `ProcWalk` — walking over `/proc`

`proc_walk` of `apply_affinity.rs`. A directory of `/proc` is what the walk reads of it, with the answers
of the system to the calls made for each thread. Only entries named by a number are listed: the source
passes over the others.
-/

namespace AppOptR

open Text

/-- One entry of `/proc/<pid>/task`. -/
structure ThreadDir where
  tid : Int
  comm : Option (List UInt8)
  sys : Sys

/-- One entry of `/proc`; `tasks` is what `task_tids` finds, when the directory can be read. -/
structure ProcDir where
  pid : Int
  cmdline : Option (List UInt8)
  comm : Option (List UInt8)
  tasks : Option (List ThreadDir)

/-- `read_cmdline(pid).or_else(|| tid_comm(pid))`. -/
def ProcDir.name (dir : ProcDir) : Option Str := (readCmdline dir.cmdline).or (tidComm dir.comm)

/-- The name `proc_tasks` and `full_scan` pass on: read only when the package has thread rules. -/
def ThreadDir.name (hasThreadRules : Bool) (t : ThreadDir) : Str :=
  if hasThreadRules then (tidComm t.comm).getD [] else []

/-- The locals of `proc_walk`. -/
structure WalkAcc (σ : Type) where
  count : Nat := 0
  total : Nat := 0
  state : σ

section
variable {σ : Type} (cfg : AppConfig) (filter : Int → Bool) (f : ProcDir → Str → Bool → σ → σ)

/-- One turn of the loop of `proc_walk`. -/
def procWalkStep (acc : WalkAcc σ) (dir : ProcDir) : WalkAcc σ :=
  let acc := { acc with total := acc.total + 1 }
  if !filter dir.pid then acc
  else
    match dir.name with
    | none => acc
    | some pkg =>
      if pkg ∈ cfg.pkgs then
        { acc with count := acc.count + 1,
                   state := f dir pkg (decide (pkg ∈ cfg.hasThreadRules)) acc.state }
      else acc

/-- `proc_walk`: how many processes matched and how many there are, and the state the closure `f` has been
    folded over. -/
def procWalk (entries : Option (List ProcDir)) (s : σ) : WalkAcc σ :=
  match entries with
  | none => { state := s }
  | some dirs => dirs.foldl (procWalkStep cfg filter f) { state := s }

end

/-! ## The calls a walk makes -/

/-- One call of `task_apply`. -/
structure TaskCall where
  tid : Int
  pid : Int
  pkg : Str
  comm : Str
  sys : Sys

/-- The calls for the threads of one process. -/
def ProcDir.calls (dir : ProcDir) (pkg : Str) (hasThreadRules : Bool) : List TaskCall :=
  (dir.tasks.getD []).map fun t =>
    { tid := t.tid, pid := dir.pid, pkg, comm := t.name hasThreadRules, sys := t.sys }

/-- The package a process is taken for. -/
def ProcDir.target (cfg : AppConfig) (dir : ProcDir) : Option Str :=
  dir.name.filter fun pkg => pkg ∈ cfg.pkgs

/-- The calls a walk over `dirs` makes, in order. -/
def walkCalls (cfg : AppConfig) (filter : Int → Bool) (dirs : List ProcDir) : List TaskCall :=
  (dirs.filter fun dir => filter dir.pid).flatMap fun dir =>
    (dir.target cfg).elim [] fun pkg => dir.calls pkg (decide (pkg ∈ cfg.hasThreadRules))

section
variable {σ : Type} {cfg : AppConfig} {filter : Int → Bool} {f : ProcDir → Str → Bool → σ → σ}
  {g : σ → TaskCall → σ}

theorem procWalkStep_spec (cfg : AppConfig) (filter : Int → Bool)
    (hf : ∀ dir pkg has s, f dir pkg has s = (dir.calls pkg has).foldl g s)
    (acc : WalkAcc σ) (dir : ProcDir) :
    (procWalkStep cfg filter f acc dir).total = acc.total + 1 ∧
    (procWalkStep cfg filter f acc dir).state = (walkCalls cfg filter [dir]).foldl g acc.state := by
  unfold procWalkStep walkCalls ProcDir.target
  cases hfil : filter dir.pid with
  | false => simp [hfil]
  | true =>
    cases hname : dir.name with
    | none => simp [hfil, hname]
    | some pkg =>
      by_cases hp : pkg ∈ cfg.pkgs
      · simp [hfil, hname, Option.filter, hp, hf]
      · simp [hfil, hname, Option.filter, hp]

/-- **A walk is its calls**: where the closure makes the calls of one process, the walk makes those of
    all, and counts every directory. -/
theorem procWalk_spec (cfg : AppConfig) (filter : Int → Bool)
    (hf : ∀ dir pkg has s, f dir pkg has s = (dir.calls pkg has).foldl g s)
    (dirs : List ProcDir) (s : σ) :
    (procWalk cfg filter f (some dirs) s).total = dirs.length ∧
    (procWalk cfg filter f (some dirs) s).state = (walkCalls cfg filter dirs).foldl g s := by
  have run : ∀ acc : WalkAcc σ,
      (dirs.foldl (procWalkStep cfg filter f) acc).total = acc.total + dirs.length ∧
      (dirs.foldl (procWalkStep cfg filter f) acc).state = (walkCalls cfg filter dirs).foldl g acc.state := by
    induction dirs with
    | nil => exact fun acc => ⟨rfl, rfl⟩
    | cons dir dirs ih =>
      intro acc
      obtain ⟨htotal, hstate⟩ := procWalkStep_spec cfg filter hf acc dir
      obtain ⟨iht, ihs⟩ := ih (procWalkStep cfg filter f acc dir)
      have hcalls : walkCalls cfg filter (dir :: dirs)
          = walkCalls cfg filter [dir] ++ walkCalls cfg filter dirs := by
        rw [walkCalls, ← List.singleton_append, List.filter_append, List.flatMap_append]
        rfl
      rw [List.foldl_cons, iht, ihs, htotal, hstate, hcalls, List.foldl_append, List.length_cons]
      exact ⟨by omega, rfl⟩
  obtain ⟨htotal, hstate⟩ := run { state := s }
  exact ⟨by rw [procWalk, htotal]; simp, by rw [procWalk, hstate]⟩

/-- A call of a walk is one for a thread of a process that the filter lets through, for its package. -/
theorem mem_walkCalls {dirs : List ProcDir} {c : TaskCall} :
    c ∈ walkCalls cfg filter dirs ↔
      ∃ dir ∈ dirs, filter dir.pid = true ∧
        ∃ pkg, dir.target cfg = some pkg ∧ c ∈ dir.calls pkg (decide (pkg ∈ cfg.hasThreadRules)) := by
  unfold walkCalls
  rw [List.mem_flatMap]
  constructor
  · rintro ⟨dir, hdir, hc⟩
    obtain ⟨hmem, hfil⟩ := List.mem_filter.mp hdir
    cases ht : dir.target cfg with
    | none =>
      rw [ht] at hc
      cases hc
    | some pkg =>
      rw [ht] at hc
      exact ⟨dir, hmem, hfil, pkg, ht, hc⟩
  · rintro ⟨dir, hmem, hfil, pkg, ht, hc⟩
    refine ⟨dir, List.mem_filter.mpr ⟨hmem, hfil⟩, ?_⟩
    rw [ht]
    exact hc

theorem mem_calls {dir : ProcDir} {pkg : Str} {has : Bool} {c : TaskCall} (h : c ∈ dir.calls pkg has) :
    c.pid = dir.pid ∧ c.pkg = pkg ∧ ∃ t ∈ dir.tasks.getD [], c.tid = t.tid ∧ c.comm = t.name has := by
  obtain ⟨t, ht, rfl⟩ := List.mem_map.mp h
  exact ⟨rfl, rfl, t, ht, rfl, rfl⟩

/-- The package of a process is a configured one. -/
theorem target_mem {dir : ProcDir} {pkg : Str} (h : dir.target cfg = some pkg) : pkg ∈ cfg.pkgs := by
  obtain ⟨_, hp⟩ := Option.filter_eq_some_iff.mp h
  simpa using hp

end
end AppOptR
