import AppOptR.Config.Outline

/-!
# `Config.Load` — `load_config`

The loader of `config.rs`: a fold over the lines of the rules file with three variables (`in_block`,
`cur_pkg`, `pending_pkg`), a rule list and a failure count, followed by the sets of packages it publishes.
What a line does to the three variables does not depend on the rules read so far, so the fold is a machine
over them (`loadCtlStep`) whose actions `loadAct` carries out.

The environment: the outcome of creating a cpuset directory is a parameter, free for every line and name;
the two reads of the tuning snapshot are parameters, free to differ.
-/

namespace AppOptR

open Text

/-- `AffinityRule`: a rule as it is loaded; a rule of the package itself has an empty thread. -/
structure AffinityRule where
  pkg : Str
  thread : Str
  threadPattern : Str
  cpusetDir : Str
  cpus : CpuSet
  deriving DecidableEq

/-- `AppConfig`: the rules, the packages they are about, and the topology they were read with. -/
structure AppConfig where
  rules : List AffinityRule
  pkgs : Finset Str
  hasThreadRules : Finset Str
  topo : CpuTopology

/-- `CString::new(s).unwrap_or_default()`: the empty string when there is a NUL inside. -/
def cstringOrDefault (s : Str) : Str := if '\x00' ∈ s then [] else s

/-- `add_rule`: the rule it pushes, or nothing where the source returns `false`. -/
def addRule (createCpusetDir : Str → Bool) (topo : CpuTopology) (pkg thread cpusSpec : Str) :
    Option AffinityRule :=
  if pkg.isEmpty || maxPkgLen ≤ byteLen pkg || maxThreadLen ≤ byteLen thread then none
  else if (pkg ++ thread).any isControl then none
  else if !specLike cpusSpec then none
  else
    let set := parseCpuSpec cpusSpec topo
    if set.count = 0 then none
    else
      -- only a package rule has a directory
      let cpusetDir :=
        if thread.isEmpty then
          let dirName := set.toRangeString
          if topo.cpusetEnabled then (if createCpusetDir dirName then dirName else []) else []
        else []
      some { pkg, thread, threadPattern := cstringOrDefault thread, cpusetDir, cpus := set }

/-! ## The line loop -/

/-- The variables of the line loop that decide how the next line is read. -/
structure LoadCtl where
  curPkg : Str := []
  pendingPkg : Str := []
  inBlock : Bool := false
  deriving DecidableEq

/-- What a line makes the loader do: call `add_rule`, or count a failure. -/
inductive LoadAct where
  | addRule (pkg thread cpus : Str)
  | fail
  deriving DecidableEq

/-- A header still waiting when another outer line arrives counts as one failure. -/
def danglingFail (c : LoadCtl) : List LoadAct := if c.pendingPkg.isEmpty then [] else [.fail]

/-- One turn of the loop in `load_config`, as far as the lines go: where it stands, and what it is to do. -/
def loadCtlStep (c : LoadCtl) (line : Str) : LoadCtl × List LoadAct :=
  let p := trim line
  if skipped p then (c, [])
  else if c.inBlock then
    if closeLike p then ({ c with inBlock := false, curPkg := [] }, [])
    else match splitRuleLine p with
      | some (thread, cpus, closed) =>
        (if closed then { c with inBlock := false, curPkg := [] } else c,
          [.addRule c.curPkg thread cpus])
      | none =>
        -- no rule: a `}` anywhere in the line, even in a comment, ends the block
        (if '}' ∈ p then { c with inBlock := false, curPkg := [] } else c, [.fail])
  else match parseOuter p with
    | .single pkg thread cpus opens =>
      (if opens then { curPkg := pkg, pendingPkg := [], inBlock := true } else { c with pendingPkg := [] },
        danglingFail c ++ [.addRule pkg thread cpus])
    | .rule pkg cpus opens =>
      (if opens then { curPkg := pkg, pendingPkg := [], inBlock := true } else { c with pendingPkg := [] },
        danglingFail c ++ [.addRule pkg [] cpus])
    | .bareOpen pkg =>
      -- a lone brace opens the block of the header that waits
      let owner := if pkg.isEmpty then c.pendingPkg else pkg
      let acts := if pkg.isEmpty then [] else danglingFail c
      if owner.isEmpty then (c, acts ++ [.fail])
      else ({ curPkg := owner, pendingPkg := [], inBlock := true }, acts)
    | .pending pkg => ({ c with pendingPkg := pkg }, danglingFail c)
    -- the header that waited is dropped without a failure of its own
    | .junk => ({ c with pendingPkg := [] }, [.fail])

/-- The variables of the line loop. -/
structure LoadState where
  ctl : LoadCtl := {}
  rules : List AffinityRule := []
  failCnt : Nat := 0
  deriving DecidableEq

section
variable (createCpusetDir : Nat → Str → Bool) (topo : CpuTopology)

/-- What it does of that: a failure is counted, a rule is added if its spec names a CPU that is there. -/
def loadAct (i : Nat) (st : LoadState) : LoadAct → LoadState
  | .fail => { st with failCnt := st.failCnt + 1 }
  | .addRule pkg thread cpus =>
    match addRule (createCpusetDir i) topo pkg thread cpus with
    | some rule => { st with rules := st.rules ++ [rule] }
    | none => { st with failCnt := st.failCnt + 1 }

/-- One iteration of the line loop, on the line of index `l.2`. -/
def loadLine (st : LoadState) (l : Str × Nat) : LoadState :=
  let (ctl, acts) := loadCtlStep st.ctl l.1
  acts.foldl (loadAct createCpusetDir topo l.2) { st with ctl }

/-- The loop of `load_config`. -/
def loadLines (ls : List Str) : LoadState :=
  ls.zipIdx.foldl (loadLine createCpusetDir topo) {}

/-- `fail_cnt` as it is stored in `PARSE_FAILS`: a block or header left open at the end counts too. -/
def parseFails (st : LoadState) : Nat :=
  if st.ctl.inBlock || !st.ctl.pendingPkg.isEmpty then st.failCnt + 1 else st.failCnt

/-- The configuration `load_config` builds from a text, with the two reads of the tuning snapshot. -/
def configOf (appPackageNames threadRulePackages : Finset Str) (content : Str) : AppConfig :=
  let rules := (loadLines createCpusetDir topo (lines content)).rules
  { rules
    pkgs := (rules.map (·.pkg)).toFinset ∪ appPackageNames
    hasThreadRules :=
      ((rules.filter fun r => !r.thread.isEmpty).map (·.pkg)).toFinset ∪ threadRulePackages
    topo }

end

/-- The configuration of a file with one package rule. -/
def oneRule : AppConfig := configOf (fun _ _ => true) quadTopology ∅ ∅ "com.a=0\n".toList

/-- A rule as it is compared: without the CPU directory, which depends on the file system. -/
def AffinityRule.view (r : AffinityRule) : Str × Str × CpuSet := (r.pkg, r.thread, r.cpus)

/-- The rules of one package, in file order, as the pairs a client compares. -/
def rulesFor (q : Str) (rules : List AffinityRule) : List (Str × CpuSet) :=
  (rules.filter fun r => r.pkg = q).map fun r => (r.thread, r.cpus)

/-! ## The calls of `add_rule`

The trace of the line loop: which line calls `add_rule` with what. `loadLines_rules` says that the rules
are the calls that `add_rule` accepts, so a statement about the calls is one about the loader. -/

/-- A call of `add_rule`: the index of the line, and the arguments. -/
structure AddCall where
  line : Nat
  pkg : Str
  thread : Str
  cpus : Str
  deriving DecidableEq

/-- The arguments of a call of `add_rule`. -/
def addArgs : LoadAct → List (Str × Str × Str)
  | .addRule pkg thread cpus => [(pkg, thread, cpus)]
  | .fail => []

/-- A numbered argument triple as a call. -/
def AddCall.ofEntry (e : Nat × Str × Str × Str) : AddCall := ⟨e.1, e.2.1, e.2.2.1, e.2.2.2⟩

/-- The calls of `add_rule` for a text, in order, each with the number of its line. -/
def addCalls (ls : List Str) : List AddCall :=
  ((Mealy.emit (Mealy.indexed loadCtlStep) {} ls.zipIdx).flatMap (Mealy.tag addArgs)).map AddCall.ofEntry

/-- The control variables after the last line. -/
def loadCtl (ls : List Str) : LoadCtl := Mealy.final loadCtlStep {} ls

/-- What `add_rule` makes of a call. -/
def AddCall.rule (createCpusetDir : Nat → Str → Bool) (topo : CpuTopology) (c : AddCall) :
    Option AffinityRule :=
  addRule (createCpusetDir c.line) topo c.pkg c.thread c.cpus

section
variable (createCpusetDir : Nat → Str → Bool) (topo : CpuTopology)

theorem loadAct_ctl (i : Nat) (acts : List LoadAct) (st : LoadState) :
    (acts.foldl (loadAct createCpusetDir topo i) st).ctl = st.ctl := by
  induction acts generalizing st with
  | nil => rfl
  | cons a acts ih =>
    rw [List.foldl_cons, ih]
    cases a with
    | fail => rfl
    | addRule pkg thread cpus => simp only [loadAct]; split <;> rfl

theorem loadAct_rules (i : Nat) (acts : List LoadAct) (st : LoadState) :
    (acts.foldl (loadAct createCpusetDir topo i) st).rules
      = st.rules ++ (((acts.flatMap addArgs).map fun e => (i, e)).map AddCall.ofEntry).filterMap
          (AddCall.rule createCpusetDir topo) := by
  induction acts generalizing st with
  | nil => simp
  | cons a acts ih =>
    rw [List.foldl_cons, ih]
    -- an action appends what `add_rule` accepts, a failure nothing
    cases a with
    | fail => rfl
    | addRule pkg thread cpus =>
      simp only [loadAct, List.flatMap_cons, addArgs, List.cons_append, List.nil_append, List.map_cons,
        List.filterMap_cons, AddCall.ofEntry, AddCall.rule]
      cases addRule (createCpusetDir i) topo pkg thread cpus with
      | none => rfl
      | some r => simp

theorem foldl_loadLine (ls : List (Str × Nat)) (st : LoadState) :
    (ls.foldl (loadLine createCpusetDir topo) st).ctl
      = Mealy.final (Mealy.indexed loadCtlStep) st.ctl ls ∧
    (ls.foldl (loadLine createCpusetDir topo) st).rules
      = st.rules ++ (((Mealy.emit (Mealy.indexed loadCtlStep) st.ctl ls).flatMap
          (Mealy.tag addArgs)).map AddCall.ofEntry).filterMap (AddCall.rule createCpusetDir topo) := by
  induction ls generalizing st with
  | nil => simp
  | cons l ls ih =>
    have hctl : (loadLine createCpusetDir topo st l).ctl = (loadCtlStep st.ctl l.1).1 :=
      loadAct_ctl _ _ _ _ _
    have hrules := loadAct_rules createCpusetDir topo l.2
      (loadCtlStep st.ctl l.1).2 { st with ctl := (loadCtlStep st.ctl l.1).1 }
    obtain ⟨ihc, ihr⟩ := ih (loadLine createCpusetDir topo st l)
    rw [List.foldl_cons, ihc, ihr, hctl]
    refine ⟨rfl, ?_⟩
    rw [Mealy.emit_cons, List.flatMap_append, List.map_append, List.filterMap_append, ← List.append_assoc]
    show (loadLine createCpusetDir topo st l).rules ++ _ = _
    refine congrArg (· ++ _) (hrules.trans ?_)
    rw [← Mealy.flatMap_tag]
    rfl

/-- **The rules are the calls `add_rule` accepts**, in file order. -/
theorem loadLines_rules (ls : List Str) :
    (loadLines createCpusetDir topo ls).rules
      = (addCalls ls).filterMap (AddCall.rule createCpusetDir topo) := by
  rw [loadLines, (foldl_loadLine createCpusetDir topo ls.zipIdx {}).2]
  rfl

/-- `add_rule` keeps no rule without CPUs. -/
theorem loadLines_cpus {ls : List Str} {rule : AffinityRule}
    (h : rule ∈ (loadLines createCpusetDir topo ls).rules) : rule.cpus.count ≠ 0 := by
  rw [loadLines_rules] at h
  obtain ⟨c, _, hc⟩ := List.mem_filterMap.mp h
  unfold AddCall.rule addRule at hc
  split at hc
  · cases hc
  split at hc
  · cases hc
  split at hc
  · cases hc
  dsimp only at hc
  split at hc
  · cases hc
  · next hcount =>
    cases hc
    exact hcount

end

/-! ## The loader refines the outline

Until a bare `{` stands under a header with an empty key, the three variables are the place, and the calls
of `add_rule` are the entries of the outline. -/

/-- The loader's variables at a place. -/
def ctlAt : Place → LoadCtl
  | .outside waiting => { curPkg := [], pendingPkg := waiting.getD [], inBlock := false }
  | .inside owner => { curPkg := owner, pendingPkg := [], inBlock := true }

/-- The entries of one line of the outline. -/
def entryView (l : Place × Role) : List (Str × Str × Str) := entry l.1 l.2

theorem addArgs_danglingFail (c : LoadCtl) (acts : List LoadAct) :
    (danglingFail c ++ acts).flatMap addArgs = acts.flatMap addArgs := by
  unfold danglingFail
  split <;> rfl

/-- **The step diagram, outside.** -/
theorem load_step_outside {waiting : Option Str} {line : Str} (hs : skipped (trim line) = false)
    (hc : ¬ Clash (.outside waiting) line) :
    loadCtlStep (ctlAt (.outside waiting)) line
      = (ctlAt (nextPlace (.outside waiting) (.outer (parseOuter (trim line)))),
          (loadCtlStep (ctlAt (.outside waiting)) line).2) ∧
    (loadCtlStep (ctlAt (.outside waiting)) line).2.flatMap addArgs
      = entry (.outside waiting) (.outer (parseOuter (trim line))) := by
  have hrole : roleOf (.outside waiting) line = .outer (parseOuter (trim line)) := roleOf_outside hs
  unfold Clash at hc
  rw [hrole] at hc
  simp only [loadCtlStep, hs, Bool.false_eq_true, if_false, ctlAt]
  cases hp : parseOuter (trim line) with
  | single pkg thread cpus opens =>
    refine ⟨?_, addArgs_danglingFail _ _⟩
    cases opens <;> rfl
  | rule pkg cpus opens =>
    refine ⟨?_, addArgs_danglingFail _ _⟩
    cases opens <;> rfl
  | pending pkg => exact ⟨rfl, by simp only [danglingFail]; split <;> rfl⟩
  | junk => exact ⟨rfl, rfl⟩
  | bareOpen pkg =>
    -- the one line whose reading depends on what waits
    cases pkg with
    | cons a pkg =>
      refine ⟨rfl, ?_⟩
      simp only [List.isEmpty_cons, Bool.false_eq_true, if_false, danglingFail]
      split <;> rfl
    | nil =>
      cases waiting with
      | none => exact ⟨rfl, rfl⟩
      | some key =>
        cases key with
        | nil => exact absurd ⟨rfl, by rw [hp]⟩ hc
        | cons a key => exact ⟨rfl, rfl⟩

/-- **The step diagram, inside.** -/
theorem load_step_inside (owner : Str) {line : Str} (hs : skipped (trim line) = false) :
    loadCtlStep (ctlAt (.inside owner)) line
      = (ctlAt (nextPlace (.inside owner) (insideRole (trim line))),
          (loadCtlStep (ctlAt (.inside owner)) line).2) ∧
    (loadCtlStep (ctlAt (.inside owner)) line).2.flatMap addArgs
      = entry (.inside owner) (insideRole (trim line)) := by
  simp only [loadCtlStep, hs, Bool.false_eq_true, if_false, ctlAt, if_true, insideRole]
  by_cases hcl : closeLike (trim line) = true
  · simp only [hcl, if_true]
    exact ⟨rfl, rfl⟩
  · simp only [hcl]
    cases splitRuleLine (trim line) with
    | some r =>
      obtain ⟨thread, cpus, closed⟩ := r
      cases closed <;> exact ⟨rfl, rfl⟩
    | none =>
      by_cases hb : '}' ∈ trim line
      · simp only [hb, if_true]
        exact ⟨rfl, rfl⟩
      · simp only [hb, if_false]
        exact ⟨rfl, rfl⟩

theorem load_sim : Mealy.Sim outlineStep loadCtlStep (fun place line => ¬ Clash place line)
    (fun place c => c = ctlAt place) entryView addArgs := by
  have step : ∀ {place : Place} {line : Str}, ¬ Clash place line →
      (loadCtlStep (ctlAt place) line).1 = ctlAt (nextPlace place (roleOf place line)) ∧
      (loadCtlStep (ctlAt place) line).2.flatMap addArgs = entry place (roleOf place line) := by
    intro place line hc
    by_cases hs : skipped (trim line) = true
    · rw [roleOf_skipped hs]
      simp only [loadCtlStep, hs, if_true]
      cases place <;> exact ⟨rfl, rfl⟩
    · have hs' : skipped (trim line) = false := by simpa using hs
      cases place with
      | outside waiting =>
        obtain ⟨h1, h2⟩ := load_step_outside hs' hc
        rw [roleOf_outside hs']
        exact ⟨congrArg Prod.fst h1, h2⟩
      | inside owner =>
        obtain ⟨h1, h2⟩ := load_step_inside owner hs'
        rw [roleOf_inside hs']
        exact ⟨congrArg Prod.fst h1, h2⟩
  constructor
  · rintro place c line rfl hc
    exact (step hc).1
  · rintro place c line rfl hc
    rw [(step hc).2]
    simp [outlineStep, entryView]

/-- The entries of a text, numbered by line. -/
def outlineEntries (ls : List Str) : List AddCall :=
  ((Mealy.emit (Mealy.indexed outlineStep) Place.start ls.zipIdx).flatMap
    (Mealy.tag entryView)).map AddCall.ofEntry

/-- **The loader refines the outline.** On a text without a clash it ends at the outline's place, and has
    called `add_rule` for exactly the outline's entries. -/
theorem load_refines {ls : List Str} (h : ClashFree ls) :
    loadCtl ls = ctlAt (placeAfter ls) ∧ addCalls ls = outlineEntries ls := by
  refine ⟨(load_sim.run (s := Place.start) rfl h).1, ?_⟩
  have hrun := (load_sim.indexed.run (s := Place.start) (t := {}) rfl (Mealy.along_indexed (k := 0) h)).2
  rw [addCalls, outlineEntries, hrun]

end AppOptR
