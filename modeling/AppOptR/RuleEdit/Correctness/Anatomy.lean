import AppOptR.Config.Rewrite
import AppOptR.RuleEdit.Ops
import AppOptR.RuleEdit.Correctness.Lockstep

/-!
# `RuleEdit.Correctness.Anatomy` — where the scan says a package stands

`Lockstep` says that the scan reads the lines as the outline does. Here is what follows for the positions
it returns: `blockOpen` and `blockClose` are the two ends of the first block of the package (`Block`,
`OpenBlock` when the file ends inside it), `pkgLine` is a header line of the package (`PkgLine.Standing`),
and the header and the block belong together (`Anatomy.opener`) unless the block was opened by a
single-line rule. Each is an invariant of the scan, kept by every line.
-/

namespace AppOptR

open Text

variable {pkg line : Str} {ls pre more : List Str} {i o c : Nat} {r : Role}

/-! ## Lines and stretches of a text -/

/-- Line `i` does `r`. -/
def LineAt (ls : List Str) (i : Nat) (r : Role) : Prop :=
  ∃ pre line post, ls = pre ++ line :: post ∧ pre.length = i ∧ roleOf (placeAfter pre) line = r

theorem LineAt.append (h : LineAt ls i r) (more : List Str) : LineAt (ls ++ more) i r := by
  obtain ⟨pre, line, post, rfl, hi, hr⟩ := h
  exact ⟨pre, line, post ++ more, by simp, hi, hr⟩

/-- A line of the first part of a text. -/
theorem LineAt.of_append (h : LineAt (ls ++ more) i r) (hi : i < ls.length) : LineAt ls i r := by
  obtain ⟨pre, line, post, hls, rfl, hr⟩ := h
  rcases List.append_eq_append_iff.mp hls with ⟨c, hc, _⟩ | ⟨c, hc, hpost⟩
  · rw [hc, List.length_append] at hi
    omega
  · cases c with
    | nil =>
      rw [hc, List.append_nil] at hi
      omega
    | cons x c =>
      rw [List.cons_append, List.cons.injEq] at hpost
      exact ⟨pre, line, c, by rw [hc, hpost.1], rfl, hr⟩

theorem LineAt.last (hr : roleOf (placeAfter ls) line = r) : LineAt (ls ++ [line]) ls.length r :=
  ⟨ls, line, [], rfl, rfl, hr⟩

theorem lineAt_iff : LineAt ls i r ↔ ∃ place, (i, place, r) ∈ outlineAt ls := by
  constructor
  · rintro ⟨pre, line, post, hls, rfl, rfl⟩
    exact ⟨placeAfter pre, mem_outlineAt.mpr ⟨pre, line, post, hls, rfl⟩⟩
  · rintro ⟨place, h⟩
    obtain ⟨pre, line, post, hls, he⟩ := mem_outlineAt.mp h
    simp only [Prod.mk.injEq] at he
    obtain ⟨rfl, rfl, rfl⟩ := he
    exact ⟨pre, line, post, hls, rfl, rfl⟩

/-- The line at a position, cut out of the text. -/
theorem LineAt.split (h : LineAt ls i r) :
    i < ls.length ∧ ls = ls.take i ++ ls.getD i [] :: ls.drop (i + 1) ∧
      roleOf (placeAfter (ls.take i)) (ls.getD i []) = r := by
  obtain ⟨pre, line, post, rfl, rfl, hr⟩ := h
  refine ⟨by simp, by simp, ?_⟩
  rw [List.take_left' rfl, getD_after]
  exact hr

theorem LineAt.unique {r' : Role} (h : LineAt ls i r) (h' : LineAt ls i r') : r = r' := by
  rw [← h.split.2.2, ← h'.split.2.2]

/-- An outer line stands outside every block, and is no blank line. -/
theorem outer_place {place : Place} {l : OuterLine} (h : roleOf place line = .outer l) :
    (∃ w, place = .outside w) ∧ skipped (trim line) = false ∧ parseOuter (trim line) = l := by
  have hs : skipped (trim line) = false := by
    by_contra hs
    rw [roleOf_skipped (by simpa using hs)] at h
    cases h
  cases place with
  | inside owner =>
    rw [roleOf_inside hs] at h
    exact absurd h (insideRole_ne_outer _ _)
  | outside w =>
    rw [roleOf_outside hs, Role.outer.injEq] at h
    exact ⟨⟨w, rfl⟩, hs, h⟩

/-- From inside the block of `pkg`, the lines stay there. -/
def StaysIn (pkg : Str) (body : List Str) : Prop :=
  Mealy.Along outlineStep (fun place line => nextPlace place (roleOf place line) = .inside pkg)
    (.inside pkg) body

theorem StaysIn.place {body : List Str} (h : StaysIn pkg body) : placeFrom (.inside pkg) body = .inside pkg := by
  have hstep : ∀ place line, place = .inside pkg →
      nextPlace place (roleOf place line) = .inside pkg → (outlineStep place line).1 = .inside pkg :=
    fun _ _ _ hnext => hnext
  exact Mealy.invariant hstep h rfl

theorem StaysIn.concat {body : List Str} (h : StaysIn pkg body)
    (hl : nextPlace (.inside pkg) (roleOf (.inside pkg) line) = .inside pkg) : StaysIn pkg (body ++ [line]) := by
  refine Mealy.along_append.mpr ⟨h, ?_, trivial⟩
  show nextPlace (placeFrom (.inside pkg) body) (roleOf (placeFrom (.inside pkg) body) line) = _
  rw [h.place]
  exact hl

/-- The lines of a block concern nobody but its owner. -/
theorem StaysIn.seen {q : Str} {body : List Str} (h : StaysIn pkg body) (hq : pkg ≠ q) :
    seen q (.inside pkg) body = [] := by
  induction body with
  | nil => rfl
  | cons line body ih =>
    have hnext : nextPlace (.inside pkg) (roleOf (.inside pkg) line) = .inside pkg := h.1
    have hrest : StaysIn pkg body := by
      have := h.2
      rw [show (outlineStep (.inside pkg) line).1 = .inside pkg from hnext] at this
      exact this
    rw [seen_cons, entriesFor_inside hq, hnext]
    exact ih hrest

theorem StaysIn.cons_iff {body : List Str} :
    StaysIn pkg (line :: body)
      ↔ nextPlace (.inside pkg) (roleOf (.inside pkg) line) = .inside pkg ∧ StaysIn pkg body := by
  constructor
  · rintro ⟨hl, hrest⟩
    replace hl : nextPlace (.inside pkg) (roleOf (.inside pkg) line) = .inside pkg := hl
    rw [show (outlineStep (.inside pkg) line).1 = .inside pkg from hl] at hrest
    exact ⟨hl, hrest⟩
  · rintro ⟨hl, hrest⟩
    refine ⟨hl, ?_⟩
    rw [show (outlineStep (.inside pkg) line).1 = .inside pkg from hl]
    exact hrest

/-- The text ends inside a block of `pkg` that line `o` opened, its first. -/
def OpenBlock (pkg : Str) (ls : List Str) (o : Nat) : Prop :=
  ∃ pre opener body, ls = pre ++ opener :: body ∧ pre.length = o ∧ (∃ w, placeAfter pre = .outside w) ∧
    nextPlace (placeAfter pre) (roleOf (placeAfter pre) opener) = .inside pkg ∧ StaysIn pkg body ∧
    ∀ n, placeAfter (pre.take n) ≠ .inside pkg

/-- Lines `o` to `c` are a block of `pkg`, its first. -/
def Block (pkg : Str) (ls : List Str) (o c : Nat) : Prop :=
  ∃ pre opener body closer post, ls = pre ++ opener :: (body ++ closer :: post) ∧ pre.length = o ∧
    o + 1 + body.length = c ∧ (∃ w, placeAfter pre = .outside w) ∧
    nextPlace (placeAfter pre) (roleOf (placeAfter pre) opener) = .inside pkg ∧ StaysIn pkg body ∧
    nextPlace (.inside pkg) (roleOf (.inside pkg) closer) = .outside none ∧
    ∀ n, placeAfter (pre.take n) ≠ .inside pkg

theorem Block.append (h : Block pkg ls o c) (more : List Str) : Block pkg (ls ++ more) o c := by
  obtain ⟨pre, opener, body, closer, post, rfl, h⟩ := h
  exact ⟨pre, opener, body, closer, post ++ more, by simp, h⟩

theorem OpenBlock.place (h : OpenBlock pkg ls o) : placeAfter ls = .inside pkg := by
  obtain ⟨pre, opener, body, rfl, _, _, hopen, hbody, _⟩ := h
  rw [placeAfter, Mealy.final_append]
  show placeFrom (nextPlace (placeAfter pre) (roleOf (placeAfter pre) opener)) body = _
  rw [hopen]
  exact hbody.place

/-- The place right before the end of a block. -/
theorem Block.place (h : Block pkg ls o c) : c < ls.length ∧ placeAfter (ls.take c) = .inside pkg := by
  obtain ⟨pre, opener, body, closer, post, rfl, rfl, rfl, _, hopen, hbody, _⟩ := h
  have hsplit : pre ++ opener :: (body ++ closer :: post) = (pre ++ opener :: body) ++ closer :: post := by
    simp
  refine ⟨by simp only [List.length_append, List.length_cons]; omega, ?_⟩
  rw [hsplit, List.take_left' (by simp only [List.length_append, List.length_cons]; omega)]
  rw [placeAfter, Mealy.final_append]
  show placeFrom (nextPlace (placeAfter pre) (roleOf (placeAfter pre) opener)) body = _
  rw [hopen]
  exact hbody.place

/-! ## The block -/

/-- What the scan knows of the first block of `pkg` after the lines `ls`. -/
structure BlockFound (pkg : Str) (ls : List Str) (blockOpen blockClose : Option Nat) : Prop where
  closed : ∀ c, blockClose = some c → ∃ o, blockOpen = some o ∧ Block pkg ls o c
  opened : ∀ o, blockOpen = some o → blockClose = none → OpenBlock pkg ls o
  unseen : blockOpen = none → ∀ n, placeAfter (ls.take n) ≠ .inside pkg

theorem BlockFound.start : BlockFound pkg [] none none := by
  refine ⟨by simp, by simp, fun _ n => ?_⟩
  rw [List.take_nil]
  exact fun h => by cases h

theorem take_concat_cases (ls : List Str) (line : Str) (n : Nat) :
    (ls ++ [line]).take n = ls.take n ∨ (ls ++ [line]).take n = ls ++ [line] := by
  by_cases hn : n ≤ ls.length
  · exact .inl (List.take_append_of_le_length hn)
  · refine .inr (List.take_of_length_le ?_)
    rw [List.length_append, List.length_singleton]
    omega

/-- A line that neither opens nor closes a block of `pkg`. -/
theorem BlockFound.same {bo bc : Option Nat} (h : BlockFound pkg ls bo bc)
    (hnext : nextPlace (placeAfter ls) (roleOf (placeAfter ls) line) = .inside pkg
      ↔ placeAfter ls = .inside pkg) : BlockFound pkg (ls ++ [line]) bo bc := by
  refine ⟨fun c hc => ?_, fun o ho hc => ?_, fun ho n => ?_⟩
  · obtain ⟨o, ho, hb⟩ := h.closed c hc
    exact ⟨o, ho, hb.append _⟩
  · have hopen := h.opened o ho hc
    have hin : placeAfter ls = .inside pkg := hopen.place
    have hstay := hnext.mpr hin
    rw [hin] at hstay
    obtain ⟨pre, opener, body, rfl, hlen, hout, hto, hbody, hfirst⟩ := hopen
    exact ⟨pre, opener, body ++ [line], by simp, hlen, hout, hto, hbody.concat hstay, hfirst⟩
  · rcases take_concat_cases ls line n with ht | ht
    · rw [ht]
      exact h.unseen ho n
    · rw [ht, placeAfter_concat, Ne, hnext]
      have := h.unseen ho ls.length
      rwa [List.take_length] at this

/-- A line that opens a block of `pkg`. -/
theorem BlockFound.open {bo bc : Option Nat} (h : BlockFound pkg ls bo bc)
    (hout : ∃ w, placeAfter ls = .outside w)
    (hnext : nextPlace (placeAfter ls) (roleOf (placeAfter ls) line) = .inside pkg) :
    BlockFound pkg (ls ++ [line]) (if bc.isNone then some ls.length else bo) bc := by
  cases bc with
  | some c =>
    obtain ⟨o, ho, hb⟩ := h.closed c rfl
    refine ⟨fun c' hc' => ⟨o, ho, ?_⟩, by simp, fun hn => ?_⟩
    · rw [← Option.some.inj hc']
      exact hb.append _
    · simp only [Option.isNone_some, Bool.false_eq_true, if_false] at hn
      rw [hn] at ho
      cases ho
  | none =>
    have hbo : bo = none := by
      cases bo with
      | none => rfl
      | some o =>
        obtain ⟨w, hw⟩ := hout
        have := (h.opened o rfl rfl).place
        rw [hw] at this
        cases this
    refine ⟨by simp, fun o ho _ => ?_, by simp⟩
    rw [Option.isNone_none, if_pos rfl, Option.some.injEq] at ho
    exact ⟨ls, line, [], rfl, ho, hout, hnext, trivial, h.unseen hbo⟩

/-- A line that closes a block of `pkg`. -/
theorem BlockFound.close {bo bc : Option Nat} (h : BlockFound pkg ls bo bc)
    (hin : placeAfter ls = .inside pkg)
    (hnext : nextPlace (placeAfter ls) (roleOf (placeAfter ls) line) = .outside none) :
    BlockFound pkg (ls ++ [line]) bo (if bc.isNone then some ls.length else bc) := by
  cases bc with
  | some c =>
    obtain ⟨o, ho, hb⟩ := h.closed c rfl
    refine ⟨fun c' hc' => ⟨o, ho, ?_⟩, by simp, fun hn => ?_⟩
    · simp only [Option.isNone_some, Bool.false_eq_true, if_false, Option.some.injEq] at hc'
      rw [← hc']
      exact hb.append _
    · rw [hn] at ho
      cases ho
  | none =>
    cases bo with
    | none =>
      have := h.unseen rfl ls.length
      rw [List.take_length] at this
      exact absurd hin this
    | some o =>
      obtain ⟨pre, opener, body, rfl, hlen, hout, hto, hbody, hfirst⟩ := h.opened o rfl rfl
      rw [hin] at hnext
      refine ⟨fun c hc => ⟨o, rfl, pre, opener, body, line, [], by simp, hlen, ?_, hout, hto, hbody,
        hnext, hfirst⟩, by simp, by simp⟩
      simp only [Option.isNone_none, if_true, Option.some.injEq, List.length_append,
        List.length_cons] at hc
      omega

/-! ## The header -/

/-- The header line and the brace under it that open the block at `o`. -/
def PendingOpen (pkg : Str) (ls : List Str) (i o : Nat) : Prop :=
  ∃ pre header mid brace post, ls = pre ++ header :: (mid ++ brace :: post) ∧ pre.length = i ∧
    i + 1 + mid.length = o ∧ roleOf (placeAfter pre) header = .outer (.pending pkg) ∧
    (∀ l ∈ mid, skipped (trim l) = true) ∧
    roleOf (.outside (some pkg)) brace = .outer (.bareOpen [])

theorem PendingOpen.append (h : PendingOpen pkg ls i o) (more : List Str) :
    PendingOpen pkg (ls ++ more) i o := by
  obtain ⟨pre, header, mid, brace, post, rfl, h⟩ := h
  exact ⟨pre, header, mid, brace, post ++ more, by simp, h⟩

/-- The header opens the block at `o`. -/
def PkgLine.Opens (pkg : Str) (ls : List Str) (o : Nat) : PkgLine → Prop
  | .standalone _ => False
  | .openInline i => i = o ∧ ∃ cpus, LineAt ls i (.outer (.rule pkg cpus true))
  | .bareOpen i => i = o ∧ pkg ≠ [] ∧ LineAt ls i (.outer (.bareOpen pkg))
  | .barePending i => PendingOpen pkg ls i o

theorem PkgLine.Opens.append {h : PkgLine} (ho : h.Opens pkg ls o) (more : List Str) :
    h.Opens pkg (ls ++ more) o := by
  cases h with
  | standalone i => exact ho
  | openInline i =>
    obtain ⟨rfl, cpus, hl⟩ := ho
    exact ⟨rfl, cpus, hl.append _⟩
  | bareOpen i => exact ⟨ho.1, ho.2.1, ho.2.2.append _⟩
  | barePending i => exact PendingOpen.append ho _

/-- A header line of `pkg`: a rule that stands alone, or one that opens a block. -/
def PkgLine.Standing (pkg : Str) (ls : List Str) : PkgLine → Prop
  | .standalone i => ∃ cpus, LineAt ls i (.outer (.rule pkg cpus false))
  | h => ∃ o, h.Opens pkg ls o

theorem PkgLine.Opens.standing {h : PkgLine} (ho : h.Opens pkg ls o) : h.Standing pkg ls := by
  cases h with
  | standalone i => exact False.elim ho
  | openInline i => exact ⟨o, ho⟩
  | bareOpen i => exact ⟨o, ho⟩
  | barePending i => exact ⟨o, ho⟩

theorem PkgLine.Standing.append {h : PkgLine} (hs : h.Standing pkg ls) (more : List Str) :
    h.Standing pkg (ls ++ more) := by
  cases h with
  | standalone i =>
    obtain ⟨cpus, hl⟩ := hs
    exact ⟨cpus, hl.append _⟩
  | openInline i => exact ⟨hs.choose, hs.choose_spec.append _⟩
  | bareOpen i => exact ⟨hs.choose, hs.choose_spec.append _⟩
  | barePending i => exact ⟨hs.choose, PendingOpen.append hs.choose_spec _⟩

def PkgLine.isStandalone : PkgLine → Bool
  | .standalone _ => true
  | _ => false

/-- What the scan knows of the first header of `pkg`, and how it goes with the block. -/
structure HeaderFound (pkg : Str) (ls : List Str) (pkgLine : Option PkgLine) (blockOpen : Option Nat) :
    Prop where
  standing : ∀ h, pkgLine = some h → h.Standing pkg ls
  opener : ∀ o, blockOpen = some o →
    (∃ th cpus, LineAt ls o (.outer (.single pkg th cpus true))) ∨
      ∃ h, pkgLine = some h ∧ (h.isStandalone = true ∨ h.Opens pkg ls o)
  alone : blockOpen = none → ∀ h, pkgLine = some h → h.isStandalone = true

theorem HeaderFound.start : HeaderFound pkg [] none none := ⟨by simp, by simp, by simp⟩

theorem HeaderFound.append {pl : Option PkgLine} {bo : Option Nat} (h : HeaderFound pkg ls pl bo)
    (more : List Str) : HeaderFound pkg (ls ++ more) pl bo := by
  refine ⟨fun l hl => (h.standing l hl).append _, fun o ho => ?_, h.alone⟩
  rcases h.opener o ho with ⟨th, cpus, hl⟩ | ⟨l, hl, hs | hs⟩
  · exact .inl ⟨th, cpus, hl.append _⟩
  · exact .inr ⟨l, hl, .inl hs⟩
  · exact .inr ⟨l, hl, .inr (hs.append _)⟩

/-- The line opens a block of `pkg` as a single-line rule. -/
theorem HeaderFound.open_single {pl : Option PkgLine} {bo bc : Option Nat} {th cpus : Str}
    (h : HeaderFound pkg ls pl bo)
    (hl : LineAt (ls ++ [line]) ls.length (.outer (.single pkg th cpus true))) :
    HeaderFound pkg (ls ++ [line]) pl (if bc.isNone then some ls.length else bo) := by
  have h' := h.append [line]
  cases bc with
  | some c => exact h'
  | none =>
    refine ⟨h'.standing, fun o ho => .inl ⟨th, cpus, ?_⟩, by simp⟩
    rw [Option.isNone_none, if_pos rfl, Option.some.injEq] at ho
    rw [← ho]
    exact hl

/-- The line opens a block of `pkg` under the header `l`. -/
theorem HeaderFound.open_header {pl : Option PkgLine} {bo bc : Option Nat} {l : PkgLine}
    (h : HeaderFound pkg ls pl bo) (hb : BlockFound pkg ls bo bc)
    (hout : ∃ w, placeAfter ls = .outside w) (hl : l.Opens pkg (ls ++ [line]) ls.length) :
    HeaderFound pkg (ls ++ [line]) (if pl.isNone then some l else pl)
      (if bc.isNone then some ls.length else bo) := by
  have h' := h.append [line]
  -- outside, a block that was opened has been closed
  have hbo : bc = none → bo = none := by
    rintro rfl
    cases bo with
    | none => rfl
    | some o =>
      obtain ⟨w, hw⟩ := hout
      have := (hb.opened o rfl rfl).place
      rw [hw] at this
      cases this
  have hsome : (if bc.isNone then some ls.length else bo) ≠ none := by
    cases bc with
    | none => simp
    | some c =>
      obtain ⟨o, ho, _⟩ := hb.closed c rfl
      simp [ho]
  refine ⟨fun l' hl' => ?_, fun o ho => ?_, fun hn => absurd hn hsome⟩
  · cases pl with
    | none =>
      rw [Option.isNone_none, if_pos rfl, Option.some.injEq] at hl'
      rw [← hl']
      exact hl.standing
    | some l₀ =>
      exact h'.standing l' hl'
  · cases bc with
    | none =>
      rw [Option.isNone_none, if_pos rfl, Option.some.injEq] at ho
      subst ho
      cases pl with
      -- the first header of the package opens its first block itself
      | none => exact .inr ⟨l, rfl, .inr hl⟩
      -- an earlier header stands alone, since nothing was opened under it
      | some l₀ => exact .inr ⟨l₀, rfl, .inl (h.alone (hbo rfl) l₀ rfl)⟩
    | some c =>
      rcases h'.opener o ho with hs | ⟨l₀, hl₀, hs⟩
      · exact .inl hs
      · subst hl₀
        exact .inr ⟨l₀, rfl, hs⟩

/-- The line is a rule of `pkg` that stands alone. -/
theorem HeaderFound.standalone {pl : Option PkgLine} {bo : Option Nat} {cpus : Str}
    (h : HeaderFound pkg ls pl bo) (hl : LineAt (ls ++ [line]) ls.length (.outer (.rule pkg cpus false))) :
    HeaderFound pkg (ls ++ [line]) (if pl.isNone then some (.standalone ls.length) else pl) bo := by
  have h' := h.append [line]
  cases pl with
  | some l₀ => exact h'
  | none =>
    refine ⟨fun l hl' => ?_, fun o ho => ?_, fun _ l hl' => ?_⟩
    · rw [Option.isNone_none, if_pos rfl, Option.some.injEq] at hl'
      rw [← hl']
      exact ⟨cpus, hl⟩
    · rcases h'.opener o ho with hs | ⟨l, hl', _⟩
      · exact .inl hs
      · cases hl'
    · rw [Option.isNone_none, if_pos rfl, Option.some.injEq] at hl'
      rw [← hl']
      rfl

/-! ## The scan -/

/-- Where the scan says `pkg` stands, after the lines `ls`. -/
structure Anatomy (pkg : Str) (ls : List Str) (s : ScanState) : Prop where
  block : BlockFound pkg ls s.t.blockOpen s.t.blockClose
  header : HeaderFound pkg ls s.t.pkgLine s.t.blockOpen
  waiting : ∀ key, placeAfter ls = .outside (some key) → ∃ pre header mid, ls = pre ++ header :: mid ∧
    s.pending = some pre.length ∧ roleOf (placeAfter pre) header = .outer (.pending key) ∧
    ∀ l ∈ mid, skipped (trim l) = true

@[simp] theorem Target.openBlock_blockClose (t : Target) (i : Nat) :
    (t.openBlock i).blockClose = t.blockClose := by
  unfold Target.openBlock; split <;> rfl

@[simp] theorem Target.openBlock_blockOpen (t : Target) (i : Nat) :
    (t.openBlock i).blockOpen = if t.blockClose.isNone then some i else t.blockOpen := by
  unfold Target.openBlock; split <;> rfl

@[simp] theorem Target.notePkgLine_blockClose (t : Target) (l : PkgLine) :
    (t.notePkgLine l).blockClose = t.blockClose := by
  unfold Target.notePkgLine; split <;> rfl

@[simp] theorem Target.notePkgLine_blockOpen (t : Target) (l : PkgLine) :
    (t.notePkgLine l).blockOpen = t.blockOpen := by
  unfold Target.notePkgLine; split <;> rfl

@[simp] theorem Target.notePkgLine_pkgLine (t : Target) (l : PkgLine) :
    (t.notePkgLine l).pkgLine = if t.pkgLine.isNone then some l else t.pkgLine := by
  unfold Target.notePkgLine; split <;> rfl

theorem ScanState.closeBlock_blockOpen (s : ScanState) (i : Nat) :
    (s.closeBlock i).t.blockOpen = s.t.blockOpen := by
  unfold ScanState.closeBlock; dsimp only; split <;> rfl

theorem ScanState.closeBlock_blockClose (s : ScanState) (i : Nat) :
    (s.closeBlock i).t.blockClose
      = if s.targetBlock && s.t.blockClose.isNone then some i else s.t.blockClose := by
  unfold ScanState.closeBlock; dsimp only; split <;> rfl

/-- A line at which the scan notes no header and no end of a block. -/
theorem Anatomy.quiet {s s' : ScanState} (h : Anatomy pkg ls s)
    (hopen : s'.t.blockOpen = s.t.blockOpen) (hclose : s'.t.blockClose = s.t.blockClose)
    (hline : s'.t.pkgLine = s.t.pkgLine)
    (hnext : nextPlace (placeAfter ls) (roleOf (placeAfter ls) line) = .inside pkg
      ↔ placeAfter ls = .inside pkg) :
    BlockFound pkg (ls ++ [line]) s'.t.blockOpen s'.t.blockClose ∧
      HeaderFound pkg (ls ++ [line]) s'.t.pkgLine s'.t.blockOpen := by
  rw [hopen, hclose, hline]
  exact ⟨h.block.same hnext, h.header.append _⟩

/-- A line that closes a block. -/
theorem Anatomy.closing {s s₀ : ScanState} {text : List Str} (h : Anatomy pkg ls s)
    (hat : ScanAt text pkg (placeAfter ls) s) (htarget : s₀.targetBlock = s.targetBlock)
    (hopen : s₀.t.blockOpen = s.t.blockOpen) (hclose : s₀.t.blockClose = s.t.blockClose)
    (hline : s₀.t.pkgLine = s.t.pkgLine)
    (hnext : nextPlace (placeAfter ls) (roleOf (placeAfter ls) line) = .outside none) :
    BlockFound pkg (ls ++ [line]) (s₀.closeBlock ls.length).t.blockOpen
        (s₀.closeBlock ls.length).t.blockClose ∧
      HeaderFound pkg (ls ++ [line]) (s₀.closeBlock ls.length).t.pkgLine
        (s₀.closeBlock ls.length).t.blockOpen := by
  rw [ScanState.closeBlock_blockOpen, ScanState.closeBlock_blockClose, ScanState.closeBlock_pkgLine,
    htarget, hopen, hclose, hline]
  refine ⟨?_, h.header.append _⟩
  by_cases hin : placeAfter ls = .inside pkg
  · rw [hat.target.mpr hin, Bool.true_and]
    exact h.block.close hin hnext
  · have htgt : s.targetBlock = false := by
      rw [Bool.eq_false_iff]
      exact fun ht => hin (hat.target.mp ht)
    rw [htgt, Bool.false_and, if_neg Bool.false_ne_true]
    exact h.block.same (by simp [hnext, hin])

/-- **The step lemma.** -/
theorem Anatomy.next {s : ScanState} {text : List Str} (h : Anatomy pkg ls s)
    (hat : ScanAt text pkg (placeAfter ls) s) :
    Anatomy pkg (ls ++ [line])
      (noteRole pkg s ls.length (placeAfter ls) (roleOf (placeAfter ls) line)) := by
  -- the header that waits is the last line that was not skipped
  have hwaiting : ∀ key, placeAfter (ls ++ [line]) = .outside (some key) →
      ∃ pre header mid, ls ++ [line] = pre ++ header :: mid ∧
        (noteRole pkg s ls.length (placeAfter ls) (roleOf (placeAfter ls) line)).pending
          = some pre.length ∧
        roleOf (placeAfter pre) header = .outer (.pending key) ∧ ∀ l ∈ mid, skipped (trim l) = true := by
    intro key hkey
    rw [placeAfter_concat] at hkey
    rcases nextPlace_line_waiting hkey with hw | ⟨hs, hp⟩
    · obtain ⟨k, hk⟩ : ∃ k, roleOf (placeAfter ls) line = .outer (.pending k) := by
        revert hw
        generalize roleOf (placeAfter ls) line = r
        intro hw
        cases r with
        | outer l =>
          cases l with
          | pending k => exact ⟨k, rfl⟩
          | _ => cases hw
        | _ => cases hw
      rw [hk] at hkey
      obtain rfl : k = key := by simpa [nextPlace] using hkey
      exact ⟨ls, line, [], rfl, by rw [hk]; rfl, hk, by simp⟩
    · obtain ⟨pre, header, mid, hls, hpend, hrole, hmid⟩ := h.waiting key hp
      refine ⟨pre, header, mid ++ [line], by rw [hls]; simp, by rw [hs]; exact hpend, hrole, ?_⟩
      intro l hl
      rcases List.mem_append.mp hl with hl | hl
      · exact hmid l hl
      · rw [List.mem_singleton.mp hl]
        by_contra hn
        rw [hp, roleOf_outside (by simpa using hn)] at hs
        cases hs
  -- what is left is about the block and the header, by the line's role
  suffices hboth : BlockFound pkg (ls ++ [line])
        (noteRole pkg s ls.length (placeAfter ls) (roleOf (placeAfter ls) line)).t.blockOpen
        (noteRole pkg s ls.length (placeAfter ls) (roleOf (placeAfter ls) line)).t.blockClose ∧
      HeaderFound pkg (ls ++ [line])
        (noteRole pkg s ls.length (placeAfter ls) (roleOf (placeAfter ls) line)).t.pkgLine
        (noteRole pkg s ls.length (placeAfter ls) (roleOf (placeAfter ls) line)).t.blockOpen from
    ⟨hboth.1, hboth.2, hwaiting⟩
  cases hr : roleOf (placeAfter ls) line with
  | skip => exact h.quiet rfl rfl rfl (by rw [hr]; rfl)
  | idle => exact h.quiet rfl rfl rfl (by rw [hr]; rfl)
  | close => exact h.closing hat rfl rfl rfl rfl (by rw [hr]; rfl)
  | thread name cpus closed =>
    cases closed with
    | false =>
      by_cases hin : placeAfter ls = .inside pkg
      · simp only [noteRole, hin, if_true, Bool.false_eq_true, if_false]
        exact h.quiet rfl rfl rfl (by rw [hr]; rfl)
      · simp only [noteRole, hin, if_false, Bool.false_eq_true]
        exact h.quiet rfl rfl rfl (by rw [hr]; rfl)
    | true =>
      by_cases hin : placeAfter ls = .inside pkg
      · simp only [noteRole, hin, if_true]
        exact h.closing hat rfl rfl rfl rfl (by rw [hr]; rfl)
      · simp only [noteRole, hin, if_false, if_true]
        exact h.closing hat rfl rfl rfl rfl (by rw [hr]; rfl)
  | outer l =>
    obtain ⟨w, hw⟩ := (outer_place hr).1
    -- a line that leads elsewhere than into the block of `pkg` is no event
    have hnot : ∀ p, p ≠ .inside pkg → nextPlace (placeAfter ls) (roleOf (placeAfter ls) line) = p →
        (nextPlace (placeAfter ls) (roleOf (placeAfter ls) line) = .inside pkg
          ↔ placeAfter ls = .inside pkg) := by
      intro p hp hnext
      rw [hnext, hw]
      simp [hp]
    have hlast := @LineAt.last _ ls _ hr
    cases l with
    | pending key => exact h.quiet rfl rfl rfl (hnot (.outside (some key)) (by simp) (by rw [hr]; rfl))
    | junk => exact h.quiet rfl rfl rfl (hnot (.outside none) (by simp) (by rw [hr]; rfl))
    | single pg th cpus opens =>
      cases opens with
      | false =>
        by_cases ho : pg = pkg <;> simp only [noteRole, ho, if_true, if_false, Bool.false_and,
          Bool.false_eq_true] <;>
          exact h.quiet rfl rfl rfl (hnot (.outside none) (by simp) (by rw [hr]; rfl))
      | true =>
        by_cases ho : pg = pkg
        · subst ho
          have hnext : nextPlace (placeAfter ls) (roleOf (placeAfter ls) line) = .inside pg := by
            rw [hr]; rfl
          have hb := h.block.open ⟨w, hw⟩ hnext
          have hh := @HeaderFound.open_single _ _ _ _ _ s.t.blockClose _ _ h.header hlast
          simpa [noteRole, Target.pushThread] using And.intro hb hh
        · simp only [noteRole, ho, if_false, decide_false, Bool.and_false, Bool.false_eq_true]
          exact h.quiet rfl rfl rfl (hnot (.inside pg) (by simpa using ho) (by rw [hr]; rfl))
    | rule pg cpus opens =>
      by_cases ho : pg = pkg
      · subst ho
        cases opens with
        | false =>
          have hb := h.block.same (hnot (.outside none) (by simp) (by rw [hr]; rfl))
          simpa [noteRole] using And.intro hb (h.header.standalone hlast)
        | true =>
          have hnext : nextPlace (placeAfter ls) (roleOf (placeAfter ls) line) = .inside pg := by
            rw [hr]; rfl
          have hb := h.block.open ⟨w, hw⟩ hnext
          have hh := h.header.open_header h.block ⟨w, hw⟩ (l := .openInline ls.length)
            ⟨rfl, cpus, hlast⟩
          simpa [noteRole] using And.intro hb hh
      · have hne : (if opens then Place.inside pg else .outside none) ≠ .inside pkg := by
          cases opens
          · simp
          · simpa using ho
        simp only [noteRole, ho, if_false]
        exact h.quiet rfl rfl rfl (hnot _ hne (by rw [hr]; rfl))
    | bareOpen pg =>
      by_cases hpg : pg = []
      · subst hpg
        cases w with
        | none =>
          rw [hw]
          simp only [noteRole, ne_eq, not_true_eq_false, if_false]
          exact h.quiet rfl rfl rfl (hnot (.outside none) (by simp) (by rw [hr, hw]; rfl))
        | some key =>
          -- the lone brace opens the block of the header that waits
          obtain ⟨pre, header, mid, hls, hpend, hrole, hmid⟩ := h.waiting key hw
          have hnext : nextPlace (placeAfter ls) (roleOf (placeAfter ls) line) = .inside key := by
            rw [hr, hw]; rfl
          by_cases ho : key = pkg
          · subst ho
            have hb := h.block.open ⟨_, hw⟩ hnext
            have hopens : PendingOpen key (ls ++ [line]) pre.length ls.length := by
              refine ⟨pre, header, mid, line, [], by rw [hls]; simp, rfl, ?_, hrole, hmid, ?_⟩
              · rw [hls, List.length_append, List.length_cons]
                omega
              · rw [← hw]
                exact hr
            have hh := h.header.open_header h.block ⟨_, hw⟩ (l := .barePending pre.length) hopens
            rw [hw]
            simpa [noteRole, hpend] using And.intro hb hh
          · rw [hw]
            simp only [noteRole, ne_eq, not_true_eq_false, if_false, hpend, ho]
            exact h.quiet rfl rfl rfl (hnot _ (by simpa using ho) hnext)
      · by_cases ho : pg = pkg
        · subst ho
          have hnext : nextPlace (placeAfter ls) (roleOf (placeAfter ls) line) = .inside pg := by
            rw [hr]
            simp [nextPlace, hpg]
          have hb := h.block.open ⟨w, hw⟩ hnext
          have hh := h.header.open_header h.block ⟨w, hw⟩ (l := .bareOpen ls.length) ⟨rfl, hpg, hlast⟩
          simpa [noteRole, hpg] using And.intro hb hh
        · have hnext : nextPlace (placeAfter ls) (roleOf (placeAfter ls) line) = .inside pg := by
            rw [hr]
            simp [nextPlace, hpg]
          simp only [noteRole, ne_eq, hpg, not_false_eq_true, if_true, ho, if_false]
          exact h.quiet rfl rfl rfl (hnot _ (by simpa using ho) hnext)

/-- **The run lemma**: the scan of a text without a clash knows where the package stands. -/
theorem anatomy_scan (pkg : Str) {pre : List Str} (post : List Str) (hc : ClashFree pre) :
    Anatomy pkg pre (scanPrefix (pre ++ post) pkg pre) := by
  induction pre using List.reverseRecOn generalizing post with
  | nil => exact ⟨BlockFound.start, HeaderFound.start, fun key h => by cases h⟩
  | append_singleton pre line ih =>
    obtain ⟨hpre, hline⟩ := clashFree_concat.mp hc
    have hat := scan_refines pkg (line :: post) hpre
    rw [scanPrefix_concat, List.append_assoc]
    show Anatomy pkg (pre ++ [line]) (scanLine (pre ++ line :: post) pkg
      (scanPrefix (pre ++ line :: post) pkg pre) (line, pre.length))
    rw [scan_step hat hline]
    exact (ih (line :: post) hpre).next hat

/-- The block and the header of `targetScan`. -/
theorem targetScan_found (pkg : Str) (hc : ClashFree ls) :
    BlockFound pkg ls (targetScan ls pkg).blockOpen (targetScan ls pkg).blockClose ∧
      HeaderFound pkg ls (targetScan ls pkg).pkgLine (targetScan ls pkg).blockOpen := by
  have h := anatomy_scan pkg [] hc
  rw [List.append_nil] at h
  exact ⟨h.block, h.header⟩

/-- The file ends inside a block exactly when the scan says so. -/
theorem targetScan_unterminated (hc : ClashFree ls) :
    (targetScan ls pkg).unterminated = true ↔ ∃ o, placeAfter ls = .inside o := by
  have h := scan_refines pkg [] hc
  rw [List.append_nil] at h
  exact h.inBlock

/-- A file that the scan calls terminated ends outside every block. -/
theorem outside_of_terminated (hc : ClashFree ls) (h : (targetScan ls pkg).unterminated ≠ true) :
    ∃ w, placeAfter ls = .outside w := by
  cases hplace : placeAfter ls with
  | outside w => exact ⟨w, rfl⟩
  | inside o => exact absurd ((targetScan_unterminated hc).mpr ⟨o, hplace⟩) h

/-- In an unclosed block no line closes it. -/
theorem BlockFound.no_close {bo : Option Nat} (h : BlockFound pkg ls bo none) {post : List Str}
    (hls : ls = pre ++ line :: post) (hin : placeAfter pre = .inside pkg) :
    nextPlace (placeAfter pre) (roleOf (placeAfter pre) line) = .inside pkg := by
  cases bo with
  | none =>
    have := h.unseen rfl pre.length
    rw [hls, List.take_left' rfl] at this
    exact absurd hin this
  | some o =>
    obtain ⟨pre₀, opener, body, hls₀, hlen, _, hopen, hbody, hfirst⟩ := h.opened o rfl rfl
    -- the line stands behind the opener, in the body
    have hlt : pre₀.length < pre.length := by
      by_contra hge
      have htake := hfirst pre.length
      have : pre₀.take pre.length = pre := by
        have h₁ : ls.take pre.length = pre := by rw [hls, List.take_left' rfl]
        rwa [hls₀, List.take_append_of_le_length (by omega)] at h₁
      rw [this] at htake
      exact htake hin
    -- `pre` and the lines up to the opener are both beginnings of the text
    obtain ⟨a, ha⟩ : ∃ a, pre = pre₀ ++ opener :: a := by
      have h₁ : (pre₀ ++ [opener]) <+: pre := by
        refine @List.prefix_of_prefix_length_le _ _ _ ls ⟨body, ?_⟩ ⟨line :: post, hls.symm⟩ ?_
        · rw [hls₀]
          simp
        · rw [List.length_append, List.length_singleton]
          omega
      obtain ⟨a, ha⟩ := h₁
      exact ⟨a, by rw [← ha]; simp⟩
    have hb : body = a ++ line :: post := by
      rw [hls₀, ha, List.append_assoc, List.cons_append] at hls
      exact (List.cons.inj (List.append_cancel_left hls)).2
    have hplace : placeAfter pre = placeFrom (.inside pkg) a := by
      rw [ha, placeAfter, Mealy.final_append]
      show placeFrom (nextPlace (placeAfter pre₀) (roleOf (placeAfter pre₀) opener)) a = _
      rw [hopen]
    rw [hplace]
    rw [hb] at hbody
    exact Mealy.along_at hbody

/-! ## The first header -/

theorem lineAt_concat {j : Nat} (h : LineAt (ls ++ [line]) j r) :
    LineAt ls j r ∨ j = ls.length ∧ roleOf (placeAfter ls) line = r := by
  obtain ⟨place, hm⟩ := lineAt_iff.mp h
  rw [outlineAt_concat, List.mem_append, List.mem_singleton] at hm
  rcases hm with hm | hm
  · exact .inl (lineAt_iff.mpr ⟨place, hm⟩)
  · simp only [Prod.mk.injEq] at hm
    obtain ⟨hj, _, hr⟩ := hm
    exact .inr ⟨hj, hr.symm⟩

/-- A header that has been noted stays. -/
theorem noteRole_pkgLine_keep {s : ScanState} {place : Place} {l₀ : PkgLine}
    (h : s.t.pkgLine = some l₀) : (noteRole pkg s i place r).t.pkgLine = some l₀ := by
  cases r with
  | skip => exact h
  | idle => exact h
  | close => simpa [noteRole] using h
  | thread name cpus closed =>
    by_cases hp : place = .inside pkg <;> cases closed <;>
      simpa [noteRole, hp, Target.pushThread] using h
  | outer l =>
    cases l with
    | single pg th cpus opens =>
      by_cases ho : pg = pkg <;> cases opens <;> simpa [noteRole, ho, Target.pushThread] using h
    | rule pg cpus opens => by_cases ho : pg = pkg <;> cases opens <;> simp [noteRole, ho, h]
    | pending key => exact h
    | junk => exact h
    | bareOpen pg =>
      simp only [noteRole]
      split
      · dsimp only; split <;> simp [h]
      · split
        · dsimp only; split <;> simp [h]
        · exact h

/-- The noted header stands at or before every rule header of the package. -/
def FirstRule (pkg : Str) (ls : List Str) (pl : Option PkgLine) : Prop :=
  ∀ j cpus opens, LineAt ls j (.outer (.rule pkg cpus opens)) → ∃ h, pl = some h ∧ h.idx ≤ j

theorem FirstRule.next {s : ScanState} (h : FirstRule pkg ls s.t.pkgLine)
    (hidx : ∀ l, s.t.pkgLine = some l → l.idx ≤ ls.length) :
    FirstRule pkg (ls ++ [line])
      (noteRole pkg s ls.length (placeAfter ls) (roleOf (placeAfter ls) line)).t.pkgLine := by
  intro j cpus opens hj
  rcases lineAt_concat hj with hj | ⟨rfl, hr⟩
  · obtain ⟨l, hl, hle⟩ := h j cpus opens hj
    exact ⟨l, noteRole_pkgLine_keep hl, hle⟩
  · cases hp : s.t.pkgLine with
    | some l => exact ⟨l, noteRole_pkgLine_keep hp, hidx l hp⟩
    | none =>
      rw [hr]
      cases opens with
      | true => exact ⟨.openInline ls.length, by simp [noteRole, hp], le_refl _⟩
      | false => exact ⟨.standalone ls.length, by simp [noteRole, hp], le_refl _⟩

theorem PkgLine.Standing.idx_lt {h : PkgLine} (hs : h.Standing pkg ls) : h.idx < ls.length := by
  cases h with
  | standalone i =>
    obtain ⟨cpus, hl⟩ := hs
    exact hl.split.1
  | openInline i =>
    obtain ⟨o, rfl, cpus, hl⟩ := hs
    exact hl.split.1
  | bareOpen i =>
    obtain ⟨o, rfl, -, hl⟩ := hs
    exact hl.split.1
  | barePending i =>
    obtain ⟨o, pre, header, mid, brace, post, rfl, rfl, _⟩ := hs
    simp [PkgLine.idx]

theorem scan_firstRule (pkg : Str) {pre : List Str} (post : List Str) (hc : ClashFree pre) :
    FirstRule pkg pre (scanPrefix (pre ++ post) pkg pre).t.pkgLine := by
  induction pre using List.reverseRecOn generalizing post with
  | nil =>
    intro j cpus opens hj
    exact absurd hj.split.1 (by simp)
  | append_singleton pre line ih =>
    obtain ⟨hpre, hline⟩ := clashFree_concat.mp hc
    have hat := scan_refines pkg (line :: post) hpre
    have hanat := anatomy_scan pkg (line :: post) hpre
    rw [scanPrefix_concat, List.append_assoc]
    show FirstRule pkg (pre ++ [line]) (scanLine (pre ++ line :: post) pkg
      (scanPrefix (pre ++ line :: post) pkg pre) (line, pre.length)).t.pkgLine
    rw [scan_step hat hline]
    exact (ih (line :: post) hpre).next fun l hl => (hanat.header.standing l hl).idx_lt.le

theorem targetScan_firstRule (pkg : Str) (hc : ClashFree ls) :
    FirstRule pkg ls (targetScan ls pkg).pkgLine := by
  have h := scan_firstRule pkg [] hc
  rwa [List.append_nil] at h

/-! ## The thread rules -/

/-- The thread entries of the scan are the thread rules of `pkg`, line by line. -/
theorem targetScan_threads (hc : ClashFree ls) :
    (targetScan ls pkg).threads = (outlineAt ls).flatMap (threadOf pkg) := by
  have h := scan_threads pkg [] hc
  rwa [List.append_nil] at h

/-- What a thread entry of the scan says of its line. -/
theorem mem_threadOf {e : Nat × Place × Role} {t : Str × ThreadLoc} :
    t ∈ threadOf pkg e ↔
      (∃ cpus closed, e.2 = (.inside pkg, .thread t.1 cpus closed) ∧
        t.2 = { idx := e.1, single := false, closed, opens := false }) ∨
      ∃ cpus opens, e.2.2 = .outer (.single pkg t.1 cpus opens) ∧
        t.2 = { idx := e.1, single := true, closed := false, opens } := by
  obtain ⟨i, place, role⟩ := e
  obtain ⟨name, loc⟩ := t
  cases role with
  | thread n cpus closed =>
    by_cases hp : place = .inside pkg
    · subst hp
      simp only [threadOf, if_true, List.mem_singleton, Prod.mk.injEq, Role.thread.injEq, reduceCtorEq,
        false_and, exists_false, or_false]
      constructor
      · rintro ⟨rfl, rfl⟩
        exact ⟨cpus, closed, by simp, rfl⟩
      · rintro ⟨c, cl, ⟨_, rfl, rfl, rfl⟩, rfl⟩
        exact ⟨rfl, rfl⟩
    · simp [threadOf, hp]
  | outer l =>
    cases l with
    | single pg th cpus opens =>
      by_cases ho : pg = pkg
      · subst ho
        simp only [threadOf, if_true, List.mem_singleton, Prod.mk.injEq, reduceCtorEq, and_false,
          false_and, exists_false, false_or, Role.outer.injEq, OuterLine.single.injEq]
        constructor
        · rintro ⟨rfl, rfl⟩
          exact ⟨cpus, opens, by simp, rfl⟩
        · rintro ⟨c, op, ⟨_, rfl, rfl, rfl⟩, rfl⟩
          exact ⟨rfl, rfl⟩
      · simp [threadOf, ho]
    | rule => simp [threadOf]
    | bareOpen => simp [threadOf]
    | pending => simp [threadOf]
    | junk => simp [threadOf]
  | skip => simp [threadOf]
  | close => simp [threadOf]
  | idle => simp [threadOf]

end AppOptR
