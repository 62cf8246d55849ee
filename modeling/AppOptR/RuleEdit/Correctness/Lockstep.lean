import AppOptR.RuleEdit.Scan

/-!
# `RuleEdit.Correctness.Lockstep` — the editor's scan and the loader read the same file

`target_scan` keeps its own `in_block`, `target_block` and `pending`; the loader keeps `in_block`,
`cur_pkg` and `pending_pkg`. Both are compared with the outline (`Config.Outline`): `ScanAt` says which
place of the outline the scan's variables stand for, `scan_step` that one line without a clash is the
outline's step, and `scan_refines` runs this over a text. With `load_refines` the two readers agree line by
line (`reads_alike`), as far as the first clash; at a clash they part (`clash_parts`).
-/

namespace AppOptR

open Text

variable {ls pre : List Str} {pkg line : Str} {place : Place} {s : ScanState} {i : Nat}

/-! ## One line of the scan -/

/-- The scan's variables at a place: `pending` is the index of the waiting header, which still reads as
    one. -/
structure ScanAt (ls : List Str) (pkg : Str) (place : Place) (s : ScanState) : Prop where
  inBlock : s.inBlock = true ↔ ∃ owner, place = .inside owner
  target : s.targetBlock = true ↔ place = .inside pkg
  waiting : ∀ key, place = .outside (some key) →
    ∃ pi, s.pending = some pi ∧ parseOuter (trim (ls.getD pi [])) = .pending key
  idle : (∀ key, place ≠ .outside (some key)) → s.pending = none

/-- What the scan makes of a line, by its role: `scanLine` without the text. -/
def noteRole (pkg : Str) (s : ScanState) (i : Nat) (place : Place) : Role → ScanState
  | .skip | .idle => s
  | .close => s.closeBlock i
  | .thread name _ closed =>
    let s :=
      if place = .inside pkg then
        { s with t := s.t.pushThread name { idx := i, single := false, closed, opens := false } }
      else s
    if closed then s.closeBlock i else s
  | .outer (.single pg th _ opens) =>
    let t :=
      if pg = pkg then s.t.pushThread th { idx := i, single := true, closed := false, opens } else s.t
    { s with
      pending := none
      inBlock := opens
      targetBlock := opens && decide (pg = pkg)
      t := if opens && decide (pg = pkg) then t.openBlock i else t }
  | .outer (.rule pg _ opens) =>
    { s with
      pending := none
      inBlock := opens
      targetBlock := opens && decide (pg = pkg)
      t :=
        if pg = pkg then
          if opens then (s.t.openBlock i).notePkgLine (.openInline i) else s.t.notePkgLine (.standalone i)
        else s.t }
  | .outer (.bareOpen pg) =>
    if pg ≠ [] then
      { s with
        pending := none
        inBlock := true
        targetBlock := decide (pg = pkg)
        t := if pg = pkg then (s.t.openBlock i).notePkgLine (.bareOpen i) else s.t }
    else match place, s.pending with
      | .outside (some key), some pi =>
        { s with
          pending := none
          inBlock := true
          targetBlock := decide (key = pkg)
          t := if key = pkg then (s.t.openBlock i).notePkgLine (.barePending pi) else s.t }
      | _, _ => s
  | .outer (.pending _) => { s with pending := some i }
  | .outer .junk => { s with pending := none }

theorem ScanAt.outside {waiting : Option Str} (h : ScanAt ls pkg (.outside waiting) s) :
    s.inBlock = false ∧ s.targetBlock = false := by
  constructor
  · rw [Bool.eq_false_iff]
    intro hb
    obtain ⟨owner, ho⟩ := h.inBlock.mp hb
    cases ho
  · rw [Bool.eq_false_iff]
    intro hb
    cases h.target.mp hb

theorem ScanAt.inside {owner : Str} (h : ScanAt ls pkg (.inside owner) s) :
    s.inBlock = true ∧ s.targetBlock = decide (owner = pkg) ∧ s.pending = none := by
  refine ⟨h.inBlock.mpr ⟨owner, rfl⟩, ?_, h.idle (by simp)⟩
  by_cases ho : owner = pkg
  · rw [h.target.mpr (by rw [ho])]
    simp [ho]
  · have hf : s.targetBlock = false := by
      rw [Bool.eq_false_iff]
      intro hb
      exact ho (Place.inside.inj (h.target.mp hb))
    simp [hf, ho]

/-- **The scan's step is the outline's.** Without a clash, the scan does with a line what its role asks. -/
theorem scan_step (h : ScanAt ls pkg place s) (hc : ¬ Clash place line) :
    scanLine ls pkg s (line, i) = noteRole pkg s i place (roleOf place line) := by
  by_cases hs : skipped (trim line) = true
  · rw [roleOf_skipped hs]
    simp only [scanLine, hs, if_true, noteRole]
  have hs' : skipped (trim line) = false := by simpa using hs
  cases place with
  | inside owner =>
    -- the two flags are the ones of the place, so they can be put in
    obtain ⟨hin, htgt, _⟩ := h.inside
    rw [roleOf_inside hs']
    obtain ⟨t, pending, inBlock, targetBlock⟩ := s
    dsimp only at hin htgt
    subst hin htgt
    simp only [scanLine, hs', Bool.false_eq_true, if_false, if_true, insideRole]
    by_cases hcl : closeLike (trim line) = true
    · simp only [hcl, if_true, noteRole]
    · simp only [hcl]
      cases hr : splitRuleLine (trim line) with
      | none => by_cases hb : '}' ∈ trim line <;> simp [hb, noteRole]
      | some r =>
        obtain ⟨name, cpus, closed⟩ := r
        have hname : name ≠ [] := splitRuleLine_key hr
        by_cases ho : owner = pkg <;> simp [noteRole, ho, hname]
  | outside waiting =>
    obtain ⟨hin, htgt⟩ := h.outside
    have hrole : roleOf (.outside waiting) line = .outer (parseOuter (trim line)) := roleOf_outside hs'
    rw [hrole]
    unfold Clash at hc
    rw [hrole] at hc
    obtain ⟨t, pending, inBlock, targetBlock⟩ := s
    dsimp only at hin htgt
    subst hin htgt
    simp only [scanLine, hs', Bool.false_eq_true, if_false]
    cases hp : parseOuter (trim line) with
    | single pg th cpus opens =>
      obtain ⟨_, hth⟩ := parseOuter_single hp
      cases opens <;> by_cases ho : pg = pkg <;> simp [noteRole, ho, hth]
    | rule pg cpus opens =>
      cases opens <;> by_cases ho : pg = pkg <;> simp [noteRole, ho]
    | pending key => rfl
    | junk => rfl
    | bareOpen pg =>
      by_cases hpg : pg = []
      · subst hpg
        simp only [noteRole, ne_eq, not_true_eq_false, if_false]
        cases waiting with
        | none =>
          have hp' : pending = none := h.idle (by simp)
          rw [hp']
        | some key =>
          -- the second reading of the header line gives the key that waits
          obtain ⟨pi, hpi, hkey⟩ := h.waiting key rfl
          dsimp only at hpi
          simp only [hpi, hkey, OuterLine.pending.injEq, Bool.false_or]
      · by_cases ho : pg = pkg
        · subst ho
          simp [noteRole, hpg]
        · simp [noteRole, hpg, ho]

/-- The scan's variables follow the outline's place. -/
theorem ScanAt.next (h : ScanAt ls pkg place s) (hi : ls.getD i [] = line) :
    ScanAt ls pkg (nextPlace place (roleOf place line)) (noteRole pkg s i place (roleOf place line)) := by
  by_cases hs : skipped (trim line) = true
  · rw [roleOf_skipped hs]
    exact h
  have hs' : skipped (trim line) = false := by simpa using hs
  -- a closed block leaves no header waiting
  have closed_at : ∀ s : ScanState, s.pending = none → ScanAt ls pkg (.outside none) (s.closeBlock i) := by
    intro s hp
    exact ⟨by simp [ScanState.closeBlock], by simp [ScanState.closeBlock], by simp, fun _ => hp⟩
  cases place with
  | inside owner =>
    obtain ⟨hin, htgt, hpend⟩ := h.inside
    rw [roleOf_inside hs']
    cases hr : insideRole (trim line) with
    | close => exact closed_at s hpend
    | thread name cpus closed =>
      cases closed with
      | true =>
        refine closed_at _ ?_
        split <;> exact hpend
      | false =>
        simp only [noteRole, nextPlace, Bool.false_eq_true, if_false]
        split
        · exact ⟨h.inBlock, h.target, h.waiting, h.idle⟩
        · exact h
    | idle => exact h
    | skip => exact h
    | outer l => exact absurd hr (insideRole_ne_outer _ _)
  | outside waiting =>
    obtain ⟨hin, htgt⟩ := h.outside
    rw [roleOf_outside hs']
    cases hp : parseOuter (trim line) with
    | single pg th cpus opens =>
      cases opens <;> exact ⟨by simp [noteRole, nextPlace], by simp [noteRole, nextPlace],
        by simp [nextPlace], fun _ => rfl⟩
    | rule pg cpus opens =>
      cases opens <;> exact ⟨by simp [noteRole, nextPlace], by simp [noteRole, nextPlace],
        by simp [nextPlace], fun _ => rfl⟩
    | pending key =>
      refine ⟨by simp [noteRole, nextPlace, hin], by simp [noteRole, nextPlace, htgt], ?_, by simp [nextPlace]⟩
      intro key' hk
      simp only [nextPlace, Place.outside.injEq, Option.some.injEq] at hk
      exact ⟨i, rfl, by rw [hi, hp, hk]⟩
    | junk =>
      exact ⟨by simp [noteRole, nextPlace, hin], by simp [noteRole, nextPlace, htgt],
        by simp [nextPlace], fun _ => rfl⟩
    | bareOpen pg =>
      by_cases hpg : pg = []
      · subst hpg
        cases waiting with
        | none => simpa [noteRole, nextPlace] using h
        | some key =>
          obtain ⟨pi, hpi, _⟩ := h.waiting key rfl
          simp only [noteRole, nextPlace, ne_eq, not_true_eq_false, if_false, hpi]
          exact ⟨by simp, by simp, by simp, fun _ => rfl⟩
      · simp only [noteRole, nextPlace, ne_eq, hpg, not_false_eq_true, if_true]
        exact ⟨by simp, by simp, by simp, fun _ => rfl⟩

/-! ## A whole text -/

theorem scanAt_start : ScanAt ls pkg Place.start {} :=
  ⟨by simp [Place.start], by simp [Place.start], by simp [Place.start], fun _ => rfl⟩

theorem getD_after {pre post : List Str} (line : Str) :
    (pre ++ line :: post).getD pre.length [] = line := by simp

/-- **The scan refines the outline.** Over the first lines of a text without a clash, the scan's variables
    stand for the outline's place. -/
theorem scan_refines (pkg : Str) {pre : List Str} (post : List Str) (hc : ClashFree pre) :
    ScanAt (pre ++ post) pkg (placeAfter pre) (scanPrefix (pre ++ post) pkg pre) := by
  induction pre using List.reverseRecOn generalizing post with
  | nil => exact scanAt_start
  | append_singleton pre line ih =>
    obtain ⟨hpre, hline⟩ := clashFree_concat.mp hc
    have h := ih (line :: post) hpre
    have hget : (pre ++ line :: post).getD pre.length [] = line := getD_after line
    rw [placeAfter_concat, scanPrefix_concat, List.append_assoc]
    show ScanAt (pre ++ line :: post) pkg _ (scanLine (pre ++ line :: post) pkg
      (scanPrefix (pre ++ line :: post) pkg pre) (line, pre.length))
    rw [scan_step h hline]
    exact h.next hget

/-! ## The fields of the result -/

/-- The thread entry the scan makes of a numbered line. -/
def threadOf (pkg : Str) : Nat × Place × Role → List (Str × ThreadLoc)
  | (i, place, .thread name _ closed) =>
    if place = .inside pkg then [(name, { idx := i, single := false, closed, opens := false })] else []
  | (i, _, .outer (.single pg th _ opens)) =>
    if pg = pkg then [(th, { idx := i, single := true, closed := false, opens })] else []
  | _ => []

@[simp] theorem Target.openBlock_threads (t : Target) (i : Nat) : (t.openBlock i).threads = t.threads := by
  unfold Target.openBlock; split <;> rfl

@[simp] theorem Target.notePkgLine_threads (t : Target) (l : PkgLine) :
    (t.notePkgLine l).threads = t.threads := by
  unfold Target.notePkgLine; split <;> rfl

@[simp] theorem ScanState.closeBlock_threads (s : ScanState) (i : Nat) :
    (s.closeBlock i).t.threads = s.t.threads := by
  unfold ScanState.closeBlock; dsimp only; split <;> rfl

@[simp] theorem Target.openBlock_pkgLine (t : Target) (i : Nat) : (t.openBlock i).pkgLine = t.pkgLine := by
  unfold Target.openBlock; split <;> rfl

@[simp] theorem ScanState.closeBlock_pkgLine (s : ScanState) (i : Nat) :
    (s.closeBlock i).t.pkgLine = s.t.pkgLine := by
  unfold ScanState.closeBlock; dsimp only; split <;> rfl

theorem Target.notePkgLine_isSome (t : Target) (l : PkgLine) : (t.notePkgLine l).pkgLine.isSome := by
  unfold Target.notePkgLine
  cases h : t.pkgLine <;> simp [h]

theorem noteRole_threads (pkg : Str) (s : ScanState) (i : Nat) (place : Place) (role : Role) :
    (noteRole pkg s i place role).t.threads = s.t.threads ++ threadOf pkg (i, place, role) := by
  cases role with
  | skip => simp [noteRole, threadOf]
  | idle => simp [noteRole, threadOf]
  | close => simp [noteRole, threadOf]
  | thread name cpus closed =>
    by_cases hp : place = .inside pkg <;> cases closed <;>
      simp [noteRole, threadOf, hp, Target.pushThread]
  | outer l =>
    cases l with
    | single pg th cpus opens =>
      by_cases ho : pg = pkg <;> cases opens <;> simp [noteRole, threadOf, ho, Target.pushThread]
    | rule pg cpus opens =>
      by_cases ho : pg = pkg <;> cases opens <;> simp [noteRole, threadOf, ho]
    | pending key => simp [noteRole, threadOf]
    | junk => simp [noteRole, threadOf]
    | bareOpen pg =>
      simp only [noteRole, threadOf, List.append_nil]
      split
      · dsimp only; split <;> simp
      · split
        · dsimp only; split <;> simp
        · rfl

/-- A header that has been noted stays noted, and a rule header of the package is one. -/
theorem noteRole_pkgLine {role : Role} (h : s.t.pkgLine.isSome ∨ ∃ cpus opens,
    role = .outer (.rule pkg cpus opens)) : (noteRole pkg s i place role).t.pkgLine.isSome := by
  cases role with
  | skip => simpa [noteRole] using h
  | idle => simpa [noteRole] using h
  | close => simpa [noteRole] using h
  | thread name cpus closed =>
    by_cases hp : place = .inside pkg <;> cases closed <;>
      simpa [noteRole, hp, Target.pushThread] using h
  | outer l =>
    cases l with
    | single pg th cpus opens =>
      by_cases ho : pg = pkg <;> cases opens <;> simpa [noteRole, ho, Target.pushThread] using h
    | rule pg cpus opens =>
      by_cases ho : pg = pkg
      · cases opens <;> simp [noteRole, ho, Target.notePkgLine_isSome]
      · simpa [noteRole, ho] using h
    | pending key => simpa [noteRole] using h
    | junk => simpa [noteRole] using h
    | bareOpen pg =>
      have hsome : s.t.pkgLine.isSome := by simpa using h
      simp only [noteRole]
      split
      · dsimp only; split
        · exact Target.notePkgLine_isSome _ _
        · exact hsome
      · split
        · dsimp only; split
          · exact Target.notePkgLine_isSome _ _
          · exact hsome
        · exact hsome

/-- **The thread entries of the scan are those of the outline**, in line order. -/
theorem scan_threads (pkg : Str) {pre : List Str} (post : List Str) (hc : ClashFree pre) :
    (scanPrefix (pre ++ post) pkg pre).t.threads = (outlineAt pre).flatMap (threadOf pkg) := by
  induction pre using List.reverseRecOn generalizing post with
  | nil => rfl
  | append_singleton pre line ih =>
    obtain ⟨hpre, hline⟩ := clashFree_concat.mp hc
    have hat := scan_refines pkg (line :: post) hpre
    rw [scanPrefix_concat, outlineAt_concat, List.flatMap_append, List.append_assoc]
    show (scanLine (pre ++ line :: post) pkg
      (scanPrefix (pre ++ line :: post) pkg pre) (line, pre.length)).t.threads = _
    rw [scan_step hat hline, noteRole_threads, ih (line :: post) hpre]
    simp

theorem scan_pkgLine {pre : List Str} (post : List Str) (hc : ClashFree pre)
    (h : ∃ e ∈ outlineAt pre, ∃ cpus opens, e.2.2 = .outer (.rule pkg cpus opens)) :
    (scanPrefix (pre ++ post) pkg pre).t.pkgLine.isSome := by
  induction pre using List.reverseRecOn generalizing post with
  | nil => simp [outlineAt] at h
  | append_singleton pre line ih =>
    obtain ⟨hpre, hline⟩ := clashFree_concat.mp hc
    have hat := scan_refines pkg (line :: post) hpre
    rw [scanPrefix_concat, List.append_assoc]
    show (scanLine (pre ++ line :: post) pkg
      (scanPrefix (pre ++ line :: post) pkg pre) (line, pre.length)).t.pkgLine.isSome
    rw [scan_step hat hline]
    apply noteRole_pkgLine
    rw [outlineAt_concat] at h
    obtain ⟨e, he, hrule⟩ := h
    rcases List.mem_append.mp he with he | he
    · exact .inl (ih (line :: post) hpre ⟨e, he, hrule⟩)
    · rw [List.mem_singleton] at he
      subst he
      exact .inr hrule

/-! ## The two readers side by side -/

/-- The lines at which the loader calls `add_rule` for a package and thread. -/
def callLines (ls : List Str) (pkg thread : Str) : List Nat :=
  ((addCalls ls).filter fun c => c.pkg = pkg ∧ c.thread = thread).map (·.line)

/-- The scan for `pkg` and the loader read the lines alike. -/
structure ReadsAlike (ls : List Str) (pkg : Str) : Prop where
  threads : ∀ thread, thread ≠ [] →
    ((targetScan ls pkg).locs thread).map (·.idx) = callLines ls pkg thread ∧
      (callLines ls pkg thread).Pairwise (· < ·)
  pkgLine : callLines ls pkg [] ≠ [] → (targetScan ls pkg).pkgLine.isSome
  unterminated : (targetScan ls pkg).unterminated = (loadCtl ls).inBlock

/-- The entries of a numbered line, as calls. -/
def callsOf (e : Nat × Place × Role) : List AddCall := (Mealy.tag entryView e).map AddCall.ofEntry

theorem outlineEntries_eq (ls : List Str) : outlineEntries ls = (outlineAt ls).flatMap callsOf := by
  rw [outlineEntries, List.map_flatMap]
  rfl

/-- A numbered line calls for a thread of `pkg` exactly when the scan makes a thread entry of it. -/
theorem threadOf_callsOf {thread : Str} (hth : thread ≠ []) (e : Nat × Place × Role) :
    (((threadOf pkg e).filter fun t => t.1 = thread).map fun t => t.2.idx)
      = ((callsOf e).filter fun c => c.pkg = pkg ∧ c.thread = thread).map (·.line) := by
  obtain ⟨i, place, role⟩ := e
  cases role with
  | skip => rfl
  | idle => rfl
  | close => rfl
  | thread name cpus closed =>
    cases place with
    | outside waiting => rfl
    | inside owner =>
      by_cases ho : owner = pkg <;> by_cases hn : name = thread <;>
        simp [threadOf, callsOf, Mealy.tag, entryView, entry, AddCall.ofEntry, ho, hn]
  | outer l =>
    cases l with
    | single pg th cpus opens =>
      by_cases ho : pg = pkg <;> by_cases hn : th = thread <;>
        simp [threadOf, callsOf, Mealy.tag, entryView, entry, AddCall.ofEntry, ho, hn]
    | rule pg cpus opens =>
      simp [threadOf, callsOf, Mealy.tag, entryView, entry, AddCall.ofEntry, Ne.symm hth]
    | bareOpen pg => rfl
    | pending key => rfl
    | junk => rfl

/-- A line calls `add_rule` at most once, with its own number. -/
theorem callsOf_lines (i : Nat) (place : Place) (role : Role) :
    (callsOf (i, place, role)).map (·.line) = [] ∨ (callsOf (i, place, role)).map (·.line) = [i] := by
  cases role with
  | thread name cpus closed =>
    cases place with
    | outside waiting => exact .inl rfl
    | inside owner => exact .inr rfl
  | outer l =>
    cases l with
    | single => exact .inr rfl
    | rule => exact .inr rfl
    | bareOpen => exact .inl rfl
    | pending => exact .inl rfl
    | junk => exact .inl rfl
  | skip => exact .inl rfl
  | idle => exact .inl rfl
  | close => exact .inl rfl

theorem outlineEntries_ascending (ls : List Str) :
    ((outlineEntries ls).map (·.line)).Pairwise (· < ·) ∧
      ∀ i ∈ (outlineEntries ls).map (·.line), i < ls.length := by
  induction ls using List.reverseRecOn with
  | nil => exact ⟨List.Pairwise.nil, by simp [outlineEntries]⟩
  | append_singleton pre line ih =>
    obtain ⟨hsorted, hlt⟩ := ih
    rw [outlineEntries_eq, outlineAt_concat, List.flatMap_append, ← outlineEntries_eq, List.map_append,
      List.flatMap_singleton]
    rcases callsOf_lines pre.length (placeAfter pre) (roleOf (placeAfter pre) line) with h | h
    · rw [h, List.append_nil]
      exact ⟨hsorted, fun i hi => by simpa using Nat.lt_succ_of_lt (hlt i hi)⟩
    · rw [h]
      refine ⟨List.pairwise_append.mpr ⟨hsorted, List.pairwise_singleton _ _, ?_⟩, ?_⟩
      · intro i hi j hj
        rw [List.mem_singleton.mp hj]
        exact hlt i hi
      · intro i hi
        rw [List.length_append, List.length_singleton]
        rcases List.mem_append.mp hi with hi | hi
        · exact Nat.lt_succ_of_lt (hlt i hi)
        · rw [List.mem_singleton.mp hi]
          exact Nat.lt_succ_self _

/-- A call without a thread comes from a rule header of the package. -/
theorem rule_of_callsOf {ls : List Str} {c : AddCall} {e : Nat × Place × Role} (he : e ∈ outlineAt ls)
    (hc : c ∈ callsOf e) (hth : c.thread = []) :
    ∃ cpus opens, e.2.2 = .outer (.rule c.pkg cpus opens) := by
  -- an entry of the outline is a line read at some place
  have hrole : ∃ place line, e.2 = (place, roleOf place line) := by
    induction ls using List.reverseRecOn with
    | nil => simp [outlineAt] at he
    | append_singleton pre line ih =>
      rw [outlineAt_concat] at he
      rcases List.mem_append.mp he with he | he
      · exact ih he
      · rw [List.mem_singleton.mp he]
        exact ⟨_, _, rfl⟩
  obtain ⟨i, place, role⟩ := e
  obtain ⟨place', line, hpr⟩ := hrole
  simp only [Prod.mk.injEq] at hpr
  obtain ⟨rfl, rfl⟩ := hpr
  have hs : skipped (trim line) = false := by
    by_contra hs
    rw [roleOf_skipped (by simpa using hs)] at hc
    simp [callsOf, Mealy.tag, entryView, entry] at hc
  cases place with
  | inside owner =>
    rw [roleOf_inside hs] at hc
    unfold insideRole at hc
    split at hc
    · simp [callsOf, Mealy.tag, entryView, entry] at hc
    · split at hc
      · next hr =>
        simp only [callsOf, Mealy.tag, entryView, entry, List.map_cons, List.map_nil, List.mem_singleton] at hc
        rw [hc] at hth
        exact absurd hth (splitRuleLine_key hr)
      · split at hc <;> simp [callsOf, Mealy.tag, entryView, entry] at hc
  | outside waiting =>
    rw [roleOf_outside hs] at hc ⊢
    cases hp : parseOuter (trim line) with
    | single pg th cpus opens =>
      rw [hp] at hc
      simp only [callsOf, Mealy.tag, entryView, entry, List.map_cons, List.map_nil, List.mem_singleton] at hc
      rw [hc] at hth
      exact absurd hth (parseOuter_single hp).2
    | rule pg cpus opens =>
      rw [hp] at hc
      simp only [callsOf, Mealy.tag, entryView, entry, List.map_cons, List.map_nil, List.mem_singleton] at hc
      rw [hc]
      exact ⟨cpus, opens, rfl⟩
    | bareOpen pg => rw [hp] at hc; simp [callsOf, Mealy.tag, entryView, entry] at hc
    | pending key => rw [hp] at hc; simp [callsOf, Mealy.tag, entryView, entry] at hc
    | junk => rw [hp] at hc; simp [callsOf, Mealy.tag, entryView, entry] at hc

/-- **Lock step.** On lines without a clash the two readers agree. -/
theorem reads_alike (hc : ClashFree ls) : ReadsAlike ls pkg := by
  have hcalls : addCalls ls = (outlineAt ls).flatMap callsOf :=
    (load_refines hc).2.trans (outlineEntries_eq ls)
  have hat := scan_refines pkg [] hc
  have hthreads := scan_threads pkg [] hc
  rw [List.append_nil] at hat hthreads
  refine ⟨?_, ?_, ?_⟩
  · intro thread hth
    constructor
    · show (List.map _ (List.filter _ (scanPrefix ls pkg ls).t.threads)).map _ = _
      rw [hthreads, callLines, hcalls, List.filter_flatMap, List.filter_flatMap, List.map_flatMap,
        List.map_flatMap, List.map_flatMap]
      congr 1
      funext e
      rw [← threadOf_callsOf hth, List.map_map]
      rfl
    · rw [callLines, (load_refines hc).2]
      exact (outlineEntries_ascending ls).1.sublist (List.filter_sublist.map _)
  · -- a package call comes from a header, and the scan notes the first
    intro hne
    obtain ⟨c, hmem⟩ := List.exists_mem_of_ne_nil _ hne
    obtain ⟨c, hcm, _⟩ := List.mem_map.mp hmem
    obtain ⟨hcm, hpt⟩ := List.mem_filter.mp hcm
    simp only [decide_eq_true_eq] at hpt
    rw [hcalls] at hcm
    obtain ⟨e, he, hce⟩ := List.mem_flatMap.mp hcm
    have hrule := rule_of_callsOf he hce hpt.2
    rw [hpt.1] at hrule
    have := scan_pkgLine [] hc ⟨e, he, hrule⟩
    rw [List.append_nil] at this
    exact this
  · show (scanPrefix ls pkg ls).inBlock = _
    rw [(load_refines hc).1]
    cases hplace : placeAfter ls with
    | inside owner => rw [hplace] at hat; exact hat.inside.1
    | outside waiting => rw [hplace] at hat; exact hat.outside.1

/-- **At a clash they part.** The editor is inside a block, the loader is not. -/
theorem clash_parts {pre : List Str} {line : Str} (hpre : ClashFree pre)
    (hc : Clash (placeAfter pre) line) : ¬ ReadsAlike (pre ++ [line]) pkg := by
  intro halike
  obtain ⟨hplace, hrole⟩ := hc
  have hs : skipped (trim line) = false := by
    by_contra hs
    rw [roleOf_skipped (by simpa using hs)] at hrole
    cases hrole
  rw [hplace, roleOf_outside hs, Role.outer.injEq] at hrole
  have hat := scan_refines pkg [line] hpre
  rw [hplace] at hat
  obtain ⟨pi, hpi, _⟩ := hat.waiting [] rfl
  have heditor : (targetScan (pre ++ [line]) pkg).unterminated = true := by
    show (scanPrefix (pre ++ [line]) pkg (pre ++ [line])).inBlock = true
    rw [scanPrefix_concat]
    simp only [scanLine, hs, hat.outside.1, hrole, hpi, Bool.false_eq_true, if_false, ne_eq,
      not_true_eq_false]
  have hloader : (loadCtl (pre ++ [line])).inBlock = false := by
    have hpre' : loadCtl pre = ctlAt (.outside (some [])) := by rw [← hplace]; exact (load_refines hpre).1
    have hstep : loadCtl (pre ++ [line]) = (loadCtlStep (loadCtl pre) line).1 := Mealy.final_append
    rw [hstep, hpre']
    simp [loadCtlStep, hs, ctlAt, hrole]
  rw [halike.unterminated, hloader] at heditor
  cases heditor

/-- **The rule editor and the loader read a file alike up to the first empty header.** Where no bare `{`
    stands under a line `=`, they agree for every package; where one does, they disagree on the text that
    ends with it, whatever the package. -/
theorem scan_reads_alike (text pkg : Str) :
    (ClashFree (lines text) → ReadsAlike (lines text) pkg) ∧
    (¬ ClashFree (lines text) → ∃ n, ¬ ReadsAlike ((lines text).take n) pkg) := by
  refine ⟨reads_alike, fun h => ?_⟩
  obtain ⟨pre, line, post, hls, hpre, hline⟩ := Mealy.not_along h
  refine ⟨pre.length + 1, ?_⟩
  rw [hls, List.append_cons, List.take_left' (by simp)]
  exact clash_parts hpre (not_not.mp hline)

theorem scan_reads_alike_block :
    ReadsAlike (lines "a \x7b\n\tT=0\n\x7d\n".toList) "a".toList ∧
      ∃ n, ¬ ReadsAlike ((lines "=\n\x7b\n".toList).take n) "a".toList :=
  ⟨(scan_reads_alike _ _).1 (by decide +kernel),
    (scan_reads_alike _ _).2 (by decide +kernel)⟩

/-- Under an empty header the editor misses the thread rule on line 3, which the loader takes. -/
theorem empty_header_misread :
    ¬ ReadsAlike (lines "=\n\x7b\na \x7b\nT=0\n\x7d\n".toList) "a".toList := by
  intro h
  have hT := (h.threads "T".toList (by decide)).1
  revert hT
  decide +kernel

end AppOptR
