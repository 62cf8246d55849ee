import AppOptR.RuleEdit.Correctness.Rewords

/-!
# `RuleEdit.Correctness.Comments` — what an edit leaves of the user's comments

Whatever the text, the scan notes no blank line and no comment (`ScanShown`), and a script touches only what the
scan has noted; so those lines stay, in their order. What becomes of the comments behind the lines that are
rewritten is a matter of the rewrites alone (`Reword.tail_iff`), and for a call it comes down to a few lines:
the header that gets a brace, the line that gets the new spec, the header that loses its rule, the lines that get
the new key (`CommentsSafe`).
-/

namespace AppOptR

open Text ListScript Relation

variable {l line pkg thread cpus old new : Str} {ls ls' : List Str} {n : Nat} {s : ScanState}

/-! ## What the scan notes -/

/-- The line states a rule, at some place. -/
def Stated (l : Str) : Prop := ∃ place spec, (roleOf place l).spec = some spec

/-- The line is neither blank nor a comment. -/
def Shown (l : Str) : Prop := skipped (trim l) = false

theorem Stated.shown (h : Stated l) : Shown l := by
  obtain ⟨place, spec, h⟩ := h
  exact (eq_of_spec h).1

theorem Stated.outer {r : OuterLine} {spec : Str} (hs : Shown l) (hp : parseOuter (trim l) = r)
    (hr : r.spec = some spec) : Stated l := by
  refine ⟨.outside none, spec, ?_⟩
  rw [roleOf_outside hs, hp]
  exact hr

theorem Stated.block {name : Str} {closed : Bool} (hs : Shown l) (hcl : closeLike (trim l) = false)
    (hr : splitRuleLine (trim l) = some (name, cpus, closed)) : Stated l := by
  refine ⟨.inside [], cpus, ?_⟩
  rw [roleOf_inside hs, insideRole, if_neg (by simp [hcl]), hr]
  rfl

/-- Every line the scan has noted is shown, and a thread entry states a rule. -/
structure ScanShown (ls : List Str) (s : ScanState) : Prop where
  threads : ∀ t ∈ s.t.threads, Stated (ls.getD t.2.idx [])
  header : ∀ l, s.t.pkgLine = some l → Shown (ls.getD l.idx [])
  pending : ∀ i, s.pending = some i → Shown (ls.getD i [])

theorem ScanShown.push (h : ScanShown ls s) {name : Str} {loc : ThreadLoc} (hloc : Stated (ls.getD loc.idx [])) :
    ScanShown ls { s with t := s.t.pushThread name loc } := by
  refine ⟨fun t ht => ?_, h.header, h.pending⟩
  rcases List.mem_append.mp ht with ht | ht
  · exact h.threads t ht
  · rw [List.mem_singleton.mp ht]
    exact hloc

/-- The thread entries stay, and what is new of the rest is shown. -/
theorem ScanShown.keep (h : ScanShown ls s) {s' : ScanState} (ht : s'.t.threads = s.t.threads)
    (hl : ∀ l, s'.t.pkgLine = some l → s.t.pkgLine = some l ∨ Shown (ls.getD l.idx []))
    (hp : ∀ i, s'.pending = some i → s.pending = some i ∨ Shown (ls.getD i [])) : ScanShown ls s' where
  threads t hmem := h.threads t (ht ▸ hmem)
  header l hline := (hl l hline).elim (h.header l) id
  pending i hi := (hp i hi).elim (h.pending i) id

theorem notePkgLine_cases {t : Target} {l₀ l' : PkgLine} (h : (t.notePkgLine l₀).pkgLine = some l') :
    t.pkgLine = some l' ∨ l' = l₀ := by
  unfold Target.notePkgLine at h
  split at h
  · exact .inr (Option.some.inj h).symm
  · exact .inl h

theorem ScanShown.close (h : ScanShown ls s) (n : Nat) : ScanShown ls (s.closeBlock n) :=
  h.keep (ScanState.closeBlock_threads s n) (fun l hl => .inl (by rwa [ScanState.closeBlock_pkgLine] at hl))
    fun _ hi => .inl hi

/-- **The step lemma.** -/
theorem ScanShown.next (h : ScanShown ls s) (hline : ls.getD n [] = line) :
    ScanShown ls (scanLine ls pkg s (line, n)) := by
  unfold scanLine
  dsimp only
  split
  · exact h
  next hskip =>
  have hshown : Shown (ls.getD n []) := by
    unfold Shown
    rw [hline]
    simpa using hskip
  split
  · split
    · exact h.close n
    next hcl =>
    cases hr : splitRuleLine (trim line) with
    | none =>
      dsimp only
      split
      · exact h.close n
      · exact h
    | some r =>
      obtain ⟨name, cpus, closed⟩ := r
      dsimp only
      have hstated : Stated (ls.getD n []) := .block hshown (by rw [hline]; simpa using hcl) (by rw [hline]; exact hr)
      have hpush : ScanShown ls (if s.targetBlock && !name.isEmpty then
          { s with t := s.t.pushThread name { idx := n, single := false, closed, opens := false } }
          else s) := by
        split
        · exact h.push hstated
        · exact h
      split
      · exact hpush.close n
      · exact hpush
  -- outside of a block: the header that is noted is this line, or the one that waits
  have hnone : ∀ i, (none : Option Nat) = some i → s.pending = some i ∨ Shown (ls.getD i []) := fun i hi => by cases hi
  have hopened : ∀ {own : Prop} [Decidable own] {l : PkgLine}, Shown (ls.getD l.idx []) → ∀ l',
      (if own then (s.t.openBlock n).notePkgLine l else s.t).pkgLine = some l' →
        s.t.pkgLine = some l' ∨ Shown (ls.getD l'.idx []) := by
    intro own _ l hl l' hl'
    split at hl'
    · rcases notePkgLine_cases hl' with hl' | rfl
      · exact .inl (by rwa [Target.openBlock_pkgLine] at hl')
      · exact .inr hl
    · exact .inl hl'
  cases hp : parseOuter (trim line) with
  | single pg th cpus opens =>
    dsimp only
    have hread : parseOuter (trim (ls.getD n [])) = .single pg th cpus opens := by rw [hline, hp]
    have hstated : Stated (ls.getD n []) := .outer hshown hread rfl
    have hpush : ScanShown ls { s with
        t := if pg = pkg ∧ th ≠ [] then
            s.t.pushThread th { idx := n, single := true, closed := false, opens }
          else s.t } := by
      split
      · exact h.push hstated
      · exact h
    split
    · refine hpush.keep ?_ (fun l hl => .inl ?_) hnone
      · dsimp only
        split <;> simp
      · dsimp only at hl ⊢
        split at hl
        · rwa [Target.openBlock_pkgLine] at hl
        · exact hl
    · exact hpush.keep rfl (fun _ hl => .inl hl) hnone
  | rule pg cpus opens =>
    dsimp only
    split
    · refine h.keep ?_ (hopened (l := .openInline n) hshown) hnone
      dsimp only
      split <;> simp
    · refine h.keep ?_ (fun l hl => ?_) hnone
      · dsimp only
        split <;> simp
      · dsimp only at hl
        split at hl
        · exact (notePkgLine_cases hl).imp id fun he => by rw [he]; exact hshown
        · exact .inl hl
  | bareOpen owner =>
    dsimp only
    split
    · refine h.keep ?_ (hopened (l := .bareOpen n) hshown) hnone
      dsimp only
      split <;> simp
    · cases hw : s.pending with
      | none => exact h
      | some pi =>
        dsimp only
        rw [hw] at hnone
        refine h.keep ?_ (hopened (l := .barePending pi) (h.pending pi hw)) (hw ▸ hnone)
        dsimp only
        split <;> simp
  | pending key => exact h.keep rfl (fun _ hl => .inl hl) fun i hi => .inr (Option.some.inj hi ▸ hshown)
  | junk => exact h.keep rfl (fun _ hl => .inl hl) hnone

/-- **The run lemma.** -/
theorem shown_scan (ls : List Str) (pkg : Str) {pre : List Str} (post : List Str) (hls : ls = pre ++ post) :
    ScanShown ls (scanPrefix ls pkg pre) := by
  induction pre using List.reverseRecOn generalizing post with
  | nil => exact ⟨fun _ h => (by cases h), fun _ h => (by cases h), fun _ h => (by cases h)⟩
  | append_singleton pre line ih =>
    rw [scanPrefix_concat]
    exact (ih (line :: post) (by rw [hls]; simp)).next (by rw [hls]; simp)

theorem targetScan_shown (ls : List Str) (pkg : Str) : ScanShown ls { t := targetScan ls pkg } := by
  obtain ⟨h₁, h₂, _⟩ := shown_scan ls pkg [] (List.append_nil ls).symm
  exact ⟨h₁, h₂, fun _ hi => (by cases hi)⟩

/-! ## What a script touches -/

/-- What a step finds: a line that is shown, and one that fits the rewrite. -/
def Touches : Option Reword → Str → Prop
  | none, l => Shown l
  | some r, l => Shown l ∧ r.Fits l

/-- The rewrite leaves the comment of the line alone. -/
def Spares : Option Reword → Str → Prop
  | none, _ => True
  | some r, l => r.Harmless l

theorem meets_rewrite {P : Option Reword → Str → Prop} {i : Nat} {r : Reword} (hi : i < ls.length) :
    Step.Meets P ls (.rewrite i r) ↔ P (some r) (ls.getD i []) := by
  rw [List.getD_eq_getElem _ _ hi]
  show (∃ x, ls[i]? = some x ∧ P (some r) x) ↔ _
  rw [List.getElem?_eq_getElem hi]
  simp only [Option.some.injEq, exists_eq_left']

theorem meets_erase {P : Option Reword → Str → Prop} {i : Nat} (hi : i < ls.length) :
    Step.Meets (ρ := Reword) P ls (.erase i) ↔ P none (ls.getD i []) := by
  rw [List.getD_eq_getElem _ _ hi]
  show (∃ x, ls[i]? = some x ∧ P none x) ↔ _
  rw [List.getElem?_eq_getElem hi]
  simp only [Option.some.injEq, exists_eq_left']

/-- The key of a line that is read as one of the package has no comment in it. -/
theorem plain_key {r : OuterLine} (hs : Shown l) (hp : parseOuter (trim l) = r) : commentFind false r.key = none := by
  by_cases hk : r.key = []
  · rw [hk]
    rfl
  · have hrole : roleOf (.outside none) l = .outer r := by rw [roleOf_outside hs, hp]
    exact (outer_key hrole hk).plain

/-- A line that opens a block without a key begins with the brace or an `=`. -/
theorem shown_of_brace (h : parseOuter (trim l) = .bareOpen []) : Shown l := by
  have hhead := headSolid_core l
  rw [parseOuter_core] at h
  unfold Shown
  rw [skipped_core]
  generalize core l = c at h hhead
  -- a core begins with a solid character, so a blank key is empty
  have hstart : ∀ {k r : Str} {x : Char}, c = k ++ x :: r → Blank k → k = [] := by
    rintro k r x rfl hk
    cases k with
    | nil => rfl
    | cons y k =>
      have hy := hhead y rfl
      rw [hk y List.mem_cons_self] at hy
      cases hy
  by_cases heq : '=' ∈ c
  · obtain ⟨k, v, hkv, hv⟩ := eq_pair heq
    rw [hkv, parseCore_pair hv] at h
    have hk : trim k = [] := by
      unfold parsePair at h
      split at h
      · cases h
      · split at h
        · cases h
        · split at h
          · split at h
            · exact OuterLine.bareOpen.inj h
            · cases h
          · cases h
    rw [hkv, hstart hkv (trim_eq_nil.mp hk)]
    rfl
  · rw [parseCore_plain heq] at h
    split at h
    · next ho =>
      have hlast : c.getLast? = some '{' := by simpa [valueOpens] using ho
      obtain ⟨d, hd⟩ := List.getLast?_eq_some_iff.mp hlast
      rw [hd, List.dropLast_concat] at h
      rw [hd, hstart hd (trimEnd_eq_nil.mp (OuterLine.bareOpen.inj h))]
      rfl
    · split at h <;> cases h

/-- `line_remove` at a place the scan has noted. -/
theorem removeStep_meets {name : Str} {loc : ThreadLoc} (h : (name, loc) ∈ (targetScan ls pkg).threads) :
    (removeStep pkg loc).Meets (fun r l => Touches r l ∧ Spares r l) ls := by
  have hlisted := (targetScan_listed ls pkg).threads _ h
  have hidx : loc.idx < ls.length := hlisted.idx
  have hshown : Shown (ls.getD loc.idx []) := ((targetScan_shown ls pkg).threads _ h).shown
  unfold removeStep
  split
  · next ho =>
    obtain ⟨_, cpus, hp⟩ := hlisted.reads (hlisted.opens ho)
    exact (meets_rewrite hidx).mpr ⟨⟨hshown, plain_key hshown hp⟩, trivial⟩
  · split
    · exact (meets_rewrite hidx).mpr ⟨⟨hshown, trivial⟩, trivial⟩
    · exact (meets_erase hidx).mpr ⟨hshown, trivial⟩

theorem removeStep_pos (loc : ThreadLoc) : (removeStep pkg loc).pos = loc.idx := by
  unfold removeStep
  split
  · rfl
  · split <;> rfl

theorem removeStep_spares {loc : ThreadLoc} {j : Nat} (h : j < loc.idx) : (removeStep pkg loc).Spares j := by
  unfold removeStep
  split
  · exact Nat.ne_of_lt h
  · split
    · exact Nat.ne_of_lt h
    · exact h

/-- From the last to the first, no removal moves a line that is still to go. -/
theorem removeScript_apart {locs : List ThreadLoc} (h : locs.Pairwise fun a b => a.idx < b.idx) :
    (removeScript pkg locs).Pairwise fun a b => a.Spares b.pos := by
  unfold removeScript
  rw [List.pairwise_map, List.pairwise_reverse]
  exact h.imp fun hlt => by rw [removeStep_pos]; exact removeStep_spares hlt

theorem removeScript_along {locs : List ThreadLoc}
    (hmem : ∀ loc ∈ locs, ∃ name, (name, loc) ∈ (targetScan ls pkg).threads)
    (h : locs.Pairwise fun a b => a.idx < b.idx) :
    Along Reword.act (fun r l => Touches r l ∧ Spares r l) ls (removeScript pkg locs) := by
  refine (along_apart (removeScript_apart h)).mpr fun s hs => ?_
  obtain ⟨loc, hloc, rfl⟩ := List.mem_map.mp hs
  obtain ⟨name, hname⟩ := hmem loc (List.mem_reverse.mp hloc)
  exact removeStep_meets hname

/-! ## The lines that matter -/

/-- The header that is given a brace: one alone on its line, where no block of the package has been closed. -/
def Target.bracedHeader (t : Target) : Option Nat :=
  match t.blockClose, t.pkgLine with
  | none, some (.standalone i) => some i
  | _, _ => none

/-- The header that is given a brace has no comment. -/
def BracesSafely (ls : List Str) (pkg : Str) : Prop :=
  ∀ i, (targetScan ls pkg).bracedHeader = some i → commentAt (ls.getD i []) = none

/-- `normalize_singles` gives no brace to a header with a comment. -/
def NormalizeKeeps (ls : List Str) (pkg : Str) : Prop := normalizeRuns ls pkg = true → BracesSafely (pulled ls pkg) pkg

/-- A package rule gets its new spec. -/
def PackageKeeps (ls : List Str) (pkg : Str) : Prop :=
  match (targetScan ls pkg).pkgLine with
  | some (.standalone i) | some (.openInline i) => SwapTails (ls.getD i [])
  | _ => True

/-- A thread rule gets its new spec, or is the first of its block. -/
def ThreadKeeps (ls : List Str) (pkg thread : Str) : Prop :=
  match ((targetScan ls pkg).locs thread).getLast? with
  | some last => SwapTails (ls.getD last.idx [])
  | none => BracesSafely ls pkg

/-- The header that loses its rule has no comment. -/
def DeleteKeeps (ls : List Str) (pkg thread : Str) : Prop :=
  thread = [] → ∀ i, (targetScan ls pkg).pkgLine = some (.openInline i) → commentAt (ls.getD i []) = none

/-- No round rewrites a line that ends in a comment with blanks behind it. -/
def RenameKeeps (old new : Str) (ls : List Str) : Prop :=
  ∀ ls', ReflTransGen (RenameStep old new) ls ls' → ∀ i ∈ renameRound (targetScan ls' old), EndsSolid (ls'.getD i [])

/-! ## Normalising -/

/-- Lines that are put in do not matter. -/
theorem insert_along {P : Option Reword → Str → Prop} (i : Nat) (chunk : List Str) :
    Along Reword.act P ls [.insert i chunk] := ⟨trivial, trivial⟩

/-- Lines for the block of the package: into it, behind a header that is given a brace, or in a block of their
    own. -/
theorem blockScript_along (n : Nat) (items under block : List Str) :
    let steps := match (targetScan ls pkg).blockClose, (targetScan ls pkg).pkgLine with
      | some close, _ => [.insert close items]
      | none, some (.standalone i) => [.rewrite i .opened, .insert (i + 1) under]
      | none, _ => [.insert n block]
    Along Reword.act Touches ls steps ∧ (Along Reword.act Spares ls steps ↔ BracesSafely ls pkg) := by
  dsimp only
  unfold BracesSafely Target.bracedHeader
  cases (targetScan ls pkg).blockClose with
  | some close => exact ⟨insert_along .., iff_of_true (insert_along ..) fun i hi => by cases hi⟩
  | none =>
    cases hl : (targetScan ls pkg).pkgLine with
    | none => exact ⟨insert_along .., iff_of_true (insert_along ..) fun i hi => by cases hi⟩
    | some l =>
      cases l with
      | openInline i => exact ⟨insert_along .., iff_of_true (insert_along ..) fun i hi => by cases hi⟩
      | bareOpen i => exact ⟨insert_along .., iff_of_true (insert_along ..) fun i hi => by cases hi⟩
      | barePending i => exact ⟨insert_along .., iff_of_true (insert_along ..) fun i hi => by cases hi⟩
      | standalone i =>
        have hi : i < ls.length := ((targetScan_listed ls pkg).header _ hl).1
        have hshown : Shown (ls.getD i []) := (targetScan_shown ls pkg).header _ hl
        refine ⟨⟨(meets_rewrite hi).mpr ⟨hshown, trivial⟩, insert_along ..⟩, ?_⟩
        simp only [Option.some.injEq, forall_eq']
        constructor
        · exact fun hsafe => (meets_rewrite hi).mp hsafe.1
        · exact fun hplain => ⟨(meets_rewrite hi).mpr hplain, insert_along ..⟩

theorem placeScript_along (at_ : Nat) (items : List Str) :
    Along Reword.act Touches ls (placeScript ls pkg at_ items) ∧
      (Along Reword.act Spares ls (placeScript ls pkg at_ items) ↔ BracesSafely ls pkg) :=
  blockScript_along ..

/-- The script of `normalize_singles`: empty, or the removals and what is put in their place. -/
theorem normalizeScript_cases (ls : List Str) (pkg : Str) :
    normalizeRuns ls pkg = false ∧ normalizeScript ls pkg = [] ∨
      normalizeRuns ls pkg = true ∧ ∃ at_ items, normalizeScript ls pkg =
        removeScript pkg (targetScan ls pkg).singles ++ placeScript (pulled ls pkg) pkg at_ items := by
  have hlocs := singleItems_locs ls pkg
  have hpulled : runSteps ls (removeScript pkg (targetScan ls pkg).singles) = pulled ls pkg := runSteps_removeScript _
  unfold normalizeRuns normalizeScript
  dsimp only
  unfold singleItems at hlocs ⊢
  cases hitems : (targetScan ls pkg).singles.filterMap (singleItem ls) with
  | nil => exact .inl ⟨rfl, rfl⟩
  | cons first rest =>
    dsimp only
    rw [← hitems, hlocs, hpulled]
    cases hb : normalizeBlocked (targetScan ls pkg) ((targetScan ls pkg).singles.filterMap (singleItem ls)) with
    | true => exact .inl ⟨by simp, if_pos rfl⟩
    | false =>
      refine .inr ⟨by rw [hitems]; rfl, first.1.idx, (singleItems ls pkg).map (·.2), ?_⟩
      rw [if_neg Bool.false_ne_true]
      rfl

theorem normalizeScript_along (ls : List Str) (pkg : Str) :
    Along Reword.act Touches ls (normalizeScript ls pkg) ∧
      (Along Reword.act Spares ls (normalizeScript ls pkg) ↔ NormalizeKeeps ls pkg) := by
  unfold NormalizeKeeps
  rcases normalizeScript_cases ls pkg with ⟨hidle, hnil⟩ | ⟨hrun, at_, items, hscript⟩
  · rw [hnil, hidle]
    exact ⟨trivial, iff_of_true trivial fun h => (by cases h)⟩
  · rw [hscript, along_append, along_append, hrun]
    have hpulled : run Reword.act ls (removeScript pkg (targetScan ls pkg).singles) = pulled ls pkg :=
      runSteps_removeScript _
    have hgone := removeScript_along (fun loc hloc => (mem_singles.mp hloc).imp fun _ h => h.1)
      (@singles_ascending ls pkg)
    obtain ⟨htouch, hsafe⟩ := @placeScript_along pkg (pulled ls pkg) at_ items
    rw [hpulled]
    refine ⟨⟨hgone.imp fun _ _ h => h.1, htouch⟩, ?_⟩
    rw [and_iff_right (hgone.imp fun _ _ h => h.2), hsafe]
    exact ⟨fun h _ => h, fun h => h rfl⟩

/-! ## Changing and removing rules -/

/-- One line that is rewritten. -/
theorem rewrite_along {i : Nat} {r : Reword} (hi : i < ls.length) (hshown : Shown (ls.getD i []))
    (hfits : r.Fits (ls.getD i [])) :
    Along Reword.act Touches ls [.rewrite i r] ∧
      (Along Reword.act Spares ls [.rewrite i r] ↔ r.Harmless (ls.getD i [])) := by
  refine ⟨⟨(meets_rewrite hi).mpr ⟨hshown, hfits⟩, trivial⟩, ?_⟩
  constructor
  · exact fun hsafe => (meets_rewrite hi).mp hsafe.1
  · exact fun h => ⟨(meets_rewrite hi).mpr h, trivial⟩

theorem shown_lt {i : Nat} (h : Shown (ls.getD i [])) : i < ls.length := by
  by_contra hge
  rw [List.getD_eq_default _ _ (Nat.le_of_not_lt hge)] at h
  cases h

/-- The line of a package rule: it is there, is shown, and states a rule. -/
theorem header_stated {h : PkgLine} (hl : (targetScan ls pkg).pkgLine = some h) :
    h.idx < ls.length ∧ Shown (ls.getD h.idx []) ∧
      ∀ cpus opens, parseOuter (trim (ls.getD h.idx [])) = .rule pkg cpus opens → '=' ∈ core (ls.getD h.idx []) := by
  have hshown : Shown (ls.getD h.idx []) := (targetScan_shown ls pkg).header h hl
  refine ⟨((targetScan_listed ls pkg).header h hl).1, hshown, fun cpus opens hp => ?_⟩
  obtain ⟨place, spec, hstated⟩ := Stated.outer hshown hp rfl
  exact (eq_of_spec hstated).2

theorem packageScript_along {topo : CpuTopology} (hargs : RuleArgs topo pkg thread cpus) :
    Along Reword.act Touches ls (packageScript ls (targetScan ls pkg) pkg cpus) ∧
      (Along Reword.act Spares ls (packageScript ls (targetScan ls pkg) pkg cpus) ↔ PackageKeeps ls pkg) := by
  have hkey : commentFind false pkg = none := hargs.pkgName.key.plain
  have hspec : commentFind false cpus = none := hargs.spec.solid.plain
  unfold packageScript PackageKeeps
  cases hl : (targetScan ls pkg).pkgLine with
  | none => exact ⟨insert_along .., iff_of_true (insert_along ..) trivial⟩
  | some l =>
    obtain ⟨hi, hshown, heq⟩ := header_stated hl
    have hreads := ((targetScan_listed ls pkg).header l hl).2
    cases l with
    | standalone i =>
      obtain ⟨_, _, hp⟩ := hreads
      exact rewrite_along hi hshown ⟨heq _ _ hp, topo, hargs.spec⟩
    | openInline i =>
      obtain ⟨_, hp⟩ := hreads
      exact rewrite_along hi hshown ⟨heq _ _ hp, topo, hargs.spec⟩
    | bareOpen i =>
      obtain ⟨htouch, hsafe⟩ := rewrite_along (r := .header pkg cpus) hi hshown ⟨hkey, hspec⟩
      exact ⟨htouch, hsafe⟩
    | barePending i =>
      obtain ⟨htouch, hsafe⟩ := rewrite_along (r := .header pkg cpus) hi hshown ⟨hkey, hspec⟩
      dsimp only
      cases (targetScan ls pkg).blockOpen with
      | none => exact ⟨htouch, hsafe⟩
      | some opn =>
        dsimp only
        split
        · next hbrace =>
          have hgone : Shown ((runSteps ls [.rewrite i (.header pkg cpus)]).getD opn []) := shown_of_brace hbrace
          have hlt := shown_lt hgone
          refine ⟨⟨htouch.1, (meets_erase hlt).mpr hgone, trivial⟩, iff_of_true ?_ trivial⟩
          exact ⟨(hsafe.mpr trivial).1, (meets_erase hlt).mpr trivial, trivial⟩
        · exact ⟨htouch, hsafe⟩

/-- The new spec for the last rule of a thread, and its other rules removed: no step moves the line of another. -/
theorem swapScript_apart {init : List ThreadLoc} {last : ThreadLoc}
    (h : (init ++ [last]).Pairwise fun a b => a.idx < b.idx) (r : Reword) :
    (Step.rewrite last.idx r :: removeScript pkg init).Pairwise fun a b => a.Spares b.pos := by
  obtain ⟨hinit, _, hlast⟩ := List.pairwise_append.mp h
  refine List.pairwise_cons.mpr ⟨fun s hs => ?_, removeScript_apart hinit⟩
  obtain ⟨loc, hloc, rfl⟩ := List.mem_map.mp hs
  rw [removeStep_pos]
  exact Nat.ne_of_lt (hlast loc (List.mem_reverse.mp hloc) last (List.mem_singleton.mpr rfl))

theorem swapScript_along {topo : CpuTopology} (hspec : Spec topo cpus) {last : ThreadLoc}
    (hlast : ((targetScan ls pkg).locs thread).getLast? = some last) :
    let steps := .rewrite last.idx (.respec cpus) :: removeScript pkg ((targetScan ls pkg).locs thread).dropLast
    Along Reword.act Touches ls steps ∧ (Along Reword.act Spares ls steps ↔ SwapTails (ls.getD last.idx [])) := by
  have hmem : ∀ loc ∈ (targetScan ls pkg).locs thread, (thread, loc) ∈ (targetScan ls pkg).threads :=
    fun loc hloc => mem_locs.mp hloc
  have hsorted := @locs_ascending ls pkg thread
  generalize (targetScan ls pkg).locs thread = locs at hlast hmem hsorted
  obtain ⟨init, rfl⟩ := List.getLast?_eq_some_iff.mp hlast
  rw [List.dropLast_concat]
  dsimp only
  have hgone : ∀ s ∈ removeScript pkg init, s.Meets (fun r l => Touches r l ∧ Spares r l) ls := by
    intro s hs
    obtain ⟨loc, hloc, rfl⟩ := List.mem_map.mp hs
    exact removeStep_meets (hmem loc (List.mem_append_left _ (List.mem_reverse.mp hloc)))
  have hmemlast := hmem last (List.mem_append_right _ (List.mem_singleton.mpr rfl))
  have hi : last.idx < ls.length := thread_idx_lt hmemlast
  have htouch : Touches (some (.respec cpus)) (ls.getD last.idx []) := by
    obtain ⟨place, spec, hread⟩ := (targetScan_shown ls pkg).threads _ hmemlast
    obtain ⟨hshown, heq⟩ := eq_of_spec hread
    exact ⟨hshown, heq, topo, hspec⟩
  rw [along_apart (swapScript_apart hsorted _), along_apart (swapScript_apart hsorted _), List.forall_mem_cons,
    List.forall_mem_cons, meets_rewrite hi, meets_rewrite hi]
  refine ⟨⟨htouch, fun s hs => (hgone s hs).imp fun _ _ h => h.1⟩, ?_⟩
  exact and_iff_left fun s hs => (hgone s hs).imp fun _ _ h => h.2

theorem threadScript_along {topo : CpuTopology} (hargs : RuleArgs topo pkg thread cpus) :
    Along Reword.act Touches ls (threadScript ls (targetScan ls pkg) pkg thread cpus) ∧
      (Along Reword.act Spares ls (threadScript ls (targetScan ls pkg) pkg thread cpus) ↔
        ThreadKeeps ls pkg thread) := by
  unfold threadScript ThreadKeeps
  dsimp only
  cases hlast : ((targetScan ls pkg).locs thread).getLast? with
  | some last => exact swapScript_along hargs.spec hlast
  | none => exact blockScript_along ..

/-- The steps of `rule_delete` behind the normalisation. -/
theorem deleteScript_along :
    let steps : List EditStep :=
      if thread.isEmpty then
        match (targetScan ls pkg).pkgLine with
        | some (.standalone i) => [.erase i]
        | some (.openInline i) => [.rewrite i (.bare pkg)]
        | _ => []
      else removeScript pkg ((targetScan ls pkg).locs thread)
    Along Reword.act Touches ls steps ∧ (Along Reword.act Spares ls steps ↔ DeleteKeeps ls pkg thread) := by
  unfold DeleteKeeps
  dsimp only
  split
  · next hth =>
    rw [forall_prop_of_true (List.isEmpty_iff.mp hth)]
    cases hl : (targetScan ls pkg).pkgLine with
    | none => exact ⟨trivial, iff_of_true trivial fun i hi => by cases hi⟩
    | some l =>
      obtain ⟨hi, hshown, _⟩ := header_stated hl
      have hreads := ((targetScan_listed ls pkg).header l hl).2
      cases l with
      | standalone i =>
        refine ⟨⟨(meets_erase hi).mpr hshown, trivial⟩, iff_of_true ⟨(meets_erase hi).mpr trivial, trivial⟩ ?_⟩
        intro j hj
        cases hj
      | openInline i =>
        obtain ⟨_, hp⟩ := hreads
        obtain ⟨htouch, hsafe⟩ := rewrite_along (r := .bare pkg) hi hshown (plain_key hshown hp)
        refine ⟨htouch, hsafe.trans ?_⟩
        simp only [Option.some.injEq, PkgLine.openInline.injEq, forall_eq']
        rfl
      | bareOpen i => exact ⟨trivial, iff_of_true trivial fun j hj => by cases hj⟩
      | barePending i => exact ⟨trivial, iff_of_true trivial fun j hj => by cases hj⟩
  · next hth =>
    have hne : thread ≠ [] := fun h => hth (List.isEmpty_iff.mpr h)
    have hgone := removeScript_along (fun loc hloc => ⟨thread, mem_locs.mp hloc⟩) (@locs_ascending ls pkg thread)
    exact ⟨hgone.imp fun _ _ h => h.1, iff_of_true (hgone.imp fun _ _ h => h.2) fun h => absurd h hne⟩

/-! ## Renaming -/

/-- One round: the lines are as they were at its start. -/
theorem rekeyScript_along (hold : Key old) (hnew : Key new) :
    Along Reword.act Touches ls (rekeyScript old new ls) ∧
      (Along Reword.act Spares ls (rekeyScript old new ls) ↔
        ∀ i ∈ renameRound (targetScan ls old), EndsSolid (ls.getD i [])) := by
  have hapart : (rekeyScript old new ls).Pairwise fun a b => a.Spares b.pos :=
    List.pairwise_map.mpr (renameRound_nodup.imp fun hne => hne.symm)
  have hline : ∀ i ∈ renameRound (targetScan ls old), i < ls.length ∧ Shown (ls.getD i []) ∧
      ∃ single, ReadsOf single old (ls.getD i []) := by
    intro i hi
    rcases renameRound_cases hi with ⟨loc, hloc, rfl⟩ | ⟨l, hl, rfl⟩
    · obtain ⟨hlt, hreads⟩ := single_listed hloc
      obtain ⟨name, hmem, _⟩ := mem_singles.mp hloc
      exact ⟨hlt, ((targetScan_shown ls old).threads _ hmem).shown, true, hreads⟩
    · obtain ⟨hlt, hreads⟩ := header_listed hl
      exact ⟨hlt, (targetScan_shown ls old).header l hl, false, hreads⟩
  rw [along_apart hapart, along_apart hapart]
  unfold rekeyScript
  simp only [List.forall_mem_map]
  refine ⟨fun i hi => ?_, forall₂_congr fun i hi => meets_rewrite (hline i hi).1⟩
  obtain ⟨hlt, hshown, hreads⟩ := hline i hi
  exact (meets_rewrite hlt).mpr ⟨hshown, hold, hnew, hreads⟩

/-- A run of the loop is a round, and a run from there. -/
theorem renameKeeps_round (h : renameRound (targetScan ls old) ≠ []) :
    RenameKeeps old new ls ↔ (∀ i ∈ renameRound (targetScan ls old), EndsSolid (ls.getD i [])) ∧
      RenameKeeps old new (renamedLines old new ls) := by
  constructor
  · intro hkeeps
    exact ⟨hkeeps ls .refl, fun ls' hrun => hkeeps ls' (.head ⟨h, rfl⟩ hrun)⟩
  · rintro ⟨hround, hrest⟩ ls' hrun
    rcases ReflTransGen.cases_head hrun with rfl | ⟨_, ⟨_, rfl⟩, hrun⟩
    · exact hround
    · exact hrest ls' hrun

theorem renameKeeps_done (h : renameRound (targetScan ls old) = []) : RenameKeeps old new ls := by
  intro ls' hrun
  rcases ReflTransGen.cases_head hrun with rfl | ⟨_, ⟨hne, _⟩, _⟩
  · rw [h]
    exact fun i hi => by cases hi
  · exact absurd h hne

theorem rekeyLoopScript_along (hold : Key old) (hnew : Key new) {fuel : Nat}
    (h : renameLoop old new fuel ls = some ls') :
    Along Reword.act Touches ls (rekeyLoopScript old new fuel ls) ∧
      (Along Reword.act Spares ls (rekeyLoopScript old new fuel ls) ↔ RenameKeeps old new ls) := by
  induction fuel generalizing ls with
  | zero => cases h
  | succ fuel ih =>
    unfold rekeyLoopScript
    by_cases hround : renameRound (targetScan ls old) = []
    · rw [hround]
      exact ⟨trivial, iff_of_true trivial (renameKeeps_done hround)⟩
    · have hlines : runSteps ls (rekeyScript old new ls) = renamedLines old new ls := runSteps_rekeyScript
      rw [renameLoop_step hround] at h
      obtain ⟨htouch, hsafe⟩ := @rekeyScript_along _ _ ls hold hnew
      obtain ⟨hmore, hmoresafe⟩ := ih h
      split
      · next hnil => exact absurd hnil hround
      · rw [along_append, along_append, hlines, renameKeeps_round hround]
        have hrun : run Reword.act ls (rekeyScript old new ls) = renamedLines old new ls := hlines
        rw [hrun]
        exact ⟨⟨htouch, hmore⟩, and_congr hsafe hmoresafe⟩

/-! ## Every call -/

/-- The arguments that the handlers of `web.rs` pass on; `rule_del_api` checks none. -/
def RuleCall.Admitted : RuleCall → Prop
  | .upsert pkg thread cpus => ∃ body topo, ruleApiArgs body (some topo) = .ok (pkg, thread, cpus)
  | .delete _ _ => True
  | .rename old new => ∃ body, ruleRenameApiArgs body = .ok (some (old, new))

/-- The lines that a call writes a brace to, gives a new spec, takes a rule from or gives a new key have no comment
    that would not survive it. -/
def CommentsSafe (ls : List Str) : RuleCall → Prop
  | .upsert pkg thread _ => NormalizeKeeps ls pkg ∧
      if thread.isEmpty then PackageKeeps (normalizeSingles ls pkg) pkg
      else ThreadKeeps (normalizeSingles ls pkg) pkg thread
  | .delete pkg thread => NormalizeKeeps ls pkg ∧ DeleteKeeps (normalizeSingles ls pkg) pkg thread
  | .rename old new => NormalizeKeeps ls old ∧ RenameKeeps old new (normalizeSingles ls old)

/-- The comment of a line that is rewritten is that of the new line. -/
def KeepsTail : Option Reword → Str → Prop
  | none, _ => True
  | some r, l => commentTail (r.act l) = commentTail l

/-- The comment lines and blank lines are there, in their order, and so is the comment behind every line that is
    rewritten where it stands. -/
structure KeepsComments (ls : List Str) (steps : List EditStep) : Prop where
  lines : (ls.filter fun l => skipped (trim l)).Sublist ((runSteps ls steps).filter fun l => skipped (trim l))
  tails : Along Reword.act KeepsTail ls steps

/-- **What the steps come down to**: the rewrites alone decide. -/
theorem keepsComments_iff {steps : List EditStep} (h : Along Reword.act Touches ls steps) :
    KeepsComments ls steps ↔ Along Reword.act Spares ls steps := by
  have hshown : Along Reword.act (fun _ l => skipped (trim l) = false) ls steps := h.imp fun r l hr => by
    cases r with
    | none => exact hr
    | some r => exact hr.1
  have hsame : Along Reword.act KeepsTail ls steps ↔ Along Reword.act Spares ls steps := h.congr fun r l hr => by
    cases r with
    | none => exact Iff.rfl
    | some r => exact Reword.tail_iff hr.1 hr.2
  rw [← hsame]
  exact ⟨fun hkeeps => hkeeps.tails, fun htails => ⟨kept hshown, htails⟩⟩

/-- A script behind the normalisation. -/
theorem normalized_along {steps : List EditStep} {Safe : Prop}
    (h : Along Reword.act Touches (normalizeSingles ls pkg) steps ∧
      (Along Reword.act Spares (normalizeSingles ls pkg) steps ↔ Safe)) :
    Along Reword.act Touches ls (normalizeScript ls pkg ++ steps) ∧
      (Along Reword.act Spares ls (normalizeScript ls pkg ++ steps) ↔ NormalizeKeeps ls pkg ∧ Safe) := by
  obtain ⟨htouch, hsafe⟩ := normalizeScript_along ls pkg
  have hrun : run Reword.act ls (normalizeScript ls pkg) = normalizeSingles ls pkg := runSteps_normalizeScript
  rw [along_append, along_append, hrun]
  exact ⟨⟨htouch, h.1⟩, and_congr hsafe h.2⟩

theorem RuleCall.script_along {fuel : Nat} (c : RuleCall) (hargs : c.Admitted)
    (h : c.call.edit fuel ls = some (.ok ls')) :
    Along Reword.act Touches ls (c.script fuel ls) ∧
      (Along Reword.act Spares ls (c.script fuel ls) ↔ CommentsSafe ls c) := by
  cases c with
  | upsert pkg thread cpus =>
    obtain ⟨body, topo, hbody⟩ := hargs
    have hok := ruleApiArgs_ok hbody
    refine normalized_along ?_
    split
    · exact packageScript_along hok
    · exact threadScript_along hok
  | delete pkg thread => exact normalized_along deleteScript_along
  | rename old new =>
    obtain ⟨body, hbody⟩ := hargs
    have hok := ruleRenameApiArgs_ok hbody
    exact normalized_along (rekeyLoopScript_along hok.oldName.key hok.newName.key (renameLines_ok h).1)

/-- A call that ends without writing does not return `Ok`. -/
theorem EditCall.edit_error {fuel : Nat} {e : RuleEdit} (c : EditCall) (h : c.edit fuel ls = some (.error e)) :
    e ≠ .ok := by
  rintro rfl
  cases c with
  | upsert pkg thread cpus => exact absurd (upsertLines_error (Option.some.inj h)) (by decide)
  | delete pkg thread =>
    have h' : deleteLines pkg thread ls = .error .ok := Option.some.inj h
    unfold deleteLines at h'
    dsimp only at h'
    split at h'
    · split at h' <;> cases h'
    · split at h' <;> cases h'
  | deletePkg pkg =>
    obtain ⟨⟨_, removed⟩, _, hout⟩ := Option.map_eq_some_iff.mp h
    cases removed <;> cases hout
  | rename old new => rcases renameLines_error h with he | he <;> cases he
  | clone source target copyPackage copyThreads =>
    have h' : cloneLines source target copyPackage copyThreads ls = .error .ok := Option.some.inj h
    unfold cloneLines clonePrepare at h'
    dsimp only at h'
    split at h'
    · cases h'
    · split at h'
      · cases h'
      · split at h'
        · cases h'
        · split at h' <;> cases h'

/-- A call that returns `Ok` has written what the edit makes of the lines. -/
theorem EditCall.run_ok {fuel : Nat} {fault : Option WriteFault} {d d' : Disk} {text : Str} {c : EditCall}
    (htext : d.readText = some text) (h : c.run fuel fault d = some (.ok, d')) :
    ∃ ls', c.edit fuel (lines text) = some (.ok ls') ∧ d'.file.map (·.bytes) = some (utf8 (unlines ls')) := by
  obtain ⟨edited, hedit, hrun⟩ := Option.map_eq_some_iff.mp h
  rw [htext, Option.getD_some] at hedit
  cases edited with
  | error e => exact absurd (congrArg Prod.fst hrun) (c.edit_error hedit)
  | ok ls' =>
    refine ⟨ls', hedit, ?_⟩
    dsimp only at hrun
    cases fault with
    | none =>
      have hdisk : (fileWrite none d ls').2 = d' := congrArg Prod.snd hrun
      rw [← hdisk]
      rfl
    | some fault =>
      have hres := (fileWrite_fault fault d ls').1
      rw [hrun] at hres
      cases hres

/-- A call that returns `Ok` has written what its script makes of the lines. -/
theorem RuleCall.written {fuel : Nat} {fault : Option WriteFault} {d d' : Disk} {text : Str} (c : RuleCall)
    (htext : d.readText = some text) (h : c.call.run fuel fault d = some (.ok, d')) :
    c.call.edit fuel (lines text) = some (.ok (runSteps (lines text) (c.script fuel (lines text)))) ∧
      d'.file.map (·.bytes) = some (utf8 (unlines (runSteps (lines text) (c.script fuel (lines text))))) := by
  obtain ⟨ls', hedit, hbytes⟩ := EditCall.run_ok htext h
  rw [c.script_run hedit]
  exact ⟨hedit, hbytes⟩

/-- **An edit keeps the user's comments** exactly when the lines it rewrites are safe. -/
theorem edits_keep_comments (call : RuleCall) (fuel : Nat) (fault : Option WriteFault) (d d' : Disk) (text : Str)
    (htext : d.readText = some text) (hargs : call.Admitted) (h : call.call.run fuel fault d = some (.ok, d')) :
    d'.file.map (·.bytes) = some (utf8 (unlines (runSteps (lines text) (call.script fuel (lines text))))) ∧
      (KeepsComments (lines text) (call.script fuel (lines text)) ↔ CommentsSafe (lines text) call) := by
  obtain ⟨hedit, hbytes⟩ := call.written htext h
  obtain ⟨htouch, hsafe⟩ := call.script_along hargs hedit
  exact ⟨hbytes, (keepsComments_iff htouch).trans hsafe⟩

/-- A disk with this rules file. -/
def rulesDisk (text : String) : Disk := { file := some ⟨utf8 text.toList, true⟩ }

/-- The request of the first core, as a call. -/
def coreZeroCall : RuleCall := .upsert "com.a".toList "T".toList "0".toList

theorem coreZeroCall_admitted : coreZeroCall.Admitted := ⟨some coreZero, quadTopology, coreZero_args⟩

/-- A block with comments in and around it. -/
def commentedBlock : String := "# mine\ncom.a \x7b # all\n\tT=1-2 # keep\n\n\x7d\n"

theorem commentedBlock_safe : CommentsSafe (lines commentedBlock.toList) coreZeroCall := by
  have hidle : normalizeRuns (lines commentedBlock.toList) "com.a".toList = false := by decide +kernel
  have hlast : ((targetScan (lines commentedBlock.toList) "com.a".toList).locs "T".toList).getLast? =
      some { idx := 2, single := false, closed := false, opens := false } := by decide +kernel
  have hvalue : (valueOf ((lines commentedBlock.toList).getD 2 [])).filter valueEnd = [] := by decide +kernel
  generalize lines commentedBlock.toList = ls at hidle hlast hvalue
  refine ⟨fun hrun => ?_, ?_⟩
  · rw [hidle] at hrun
    cases hrun
  · show ThreadKeeps (normalizeSingles ls _) _ _
    rw [normalizeSingles_idle hidle]
    unfold ThreadKeeps
    rw [hlast]
    refine .inr fun c hc => ?_
    rw [hvalue] at hc
    cases hc

/-- The last rule of the block gets its new spec, and keeps its comment. -/
theorem edits_keep_comments_block :
    KeepsComments (lines commentedBlock.toList) (coreZeroCall.script 0 (lines commentedBlock.toList)) := by
  have hread : (rulesDisk commentedBlock).readText = some commentedBlock.toList := by decide +kernel
  have hrun : coreZeroCall.call.run 0 none (rulesDisk commentedBlock) =
      some (.ok, rulesDisk "# mine\ncom.a \x7b # all\n\tT=0 # keep\n\n\x7d\n") := by decide +kernel
  have hiff := (edits_keep_comments coreZeroCall 0 none _ _ _ hread coreZeroCall_admitted hrun).2
  exact hiff.mpr commentedBlock_safe

/-- The brace of a new block is written into the comment of the header. -/
theorem brace_into_comment :
    coreZeroCall.Admitted ∧ coreZeroCall.call.run 0 none (rulesDisk "com.a=0 # all\n") =
        some (.ok, rulesDisk "com.a=0 # all \x7b\n\tT=0\n\x7d\n") ∧
      ¬ KeepsComments (lines "com.a=0 # all\n".toList) (coreZeroCall.script 0 (lines "com.a=0 # all\n".toList)) := by
  have hscript : coreZeroCall.script 0 (lines "com.a=0 # all\n".toList) =
      [.rewrite 0 .opened, .insert 1 ["\tT=0".toList, "\x7d".toList]] := by decide +kernel
  have hline : (lines "com.a=0 # all\n".toList)[0]? = some "com.a=0 # all".toList := by decide +kernel
  refine ⟨coreZeroCall_admitted, by decide +kernel, fun h => ?_⟩
  rw [hscript] at h
  obtain ⟨x, hx, htail⟩ := h.tails.1
  rw [hline, Option.some.injEq] at hx
  rw [← hx] at htail
  have hsame : commentTail (Reword.opened.act "com.a=0 # all".toList) = commentTail "com.a=0 # all".toList := htail
  exact absurd hsame (by decide +kernel)

end AppOptR
