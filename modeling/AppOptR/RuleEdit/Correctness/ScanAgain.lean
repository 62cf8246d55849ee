import AppOptR.RuleEdit.Correctness.Normalize
import AppOptR.RuleEdit.Correctness.Unbroken
import AppOptR.RuleEdit.Correctness.SwapTwice

/-!
# `RuleEdit.Correctness.ScanAgain` — what a second edit finds

The second of two equal edits scans the text that the first has written. Its branch is decided by few facts:
whether `normalize_singles` has anything to do (`normalizeRuns_eq_false`), and which header comes first
(`header_found`). Each of them is read off the lines
here, without the indices of the scan.
-/

namespace AppOptR

open Text

variable {pkg thread cpus line : Str} {ls pre post : List Str} {l : PkgLine} {opens : Bool} {i : Nat}

/-! ## What the lines are and do -/

/-- The places and roles of the lines, without their numbers. -/
def readings (ls : List Str) : List (Place × Role) := Mealy.emit outlineStep Place.start ls

theorem readings_append (as bs : List Str) :
    readings (as ++ bs) = readings as ++ Mealy.emit outlineStep (placeAfter as) bs := Mealy.emit_append

theorem mem_readings {e : Place × Role} :
    e ∈ readings ls ↔ ∃ pre line post, ls = pre ++ line :: post ∧
      e = (placeAfter pre, roleOf (placeAfter pre) line) := by
  have hmap : readings ls = (outlineAt ls).map (·.2) := by
    induction ls using List.reverseRecOn with
    | nil => rfl
    | append_singleton ls line ih =>
      rw [readings_append, ih, outlineAt_concat, List.map_append]
      rfl
  rw [hmap, List.mem_map]
  constructor
  · rintro ⟨e, he, rfl⟩
    obtain ⟨pre, line, post, hls, rfl⟩ := mem_outlineAt.mp he
    exact ⟨pre, line, post, hls, rfl⟩
  · rintro ⟨pre, line, post, hls, rfl⟩
    exact ⟨_, mem_outlineAt.mpr ⟨pre, line, post, hls, rfl⟩, rfl⟩

theorem clashFree_iff : ClashFree ls ↔ (Place.outside (some []), Role.outer (.bareOpen [])) ∉ readings ls := by
  induction ls using List.reverseRecOn with
  | nil => exact ⟨fun _ h => (by cases h), fun _ => trivial⟩
  | append_singleton ls line ih =>
    rw [clashFree_concat, ih, readings_append, List.mem_append, not_or]
    refine and_congr_right fun _ => ?_
    show _ ↔ _ ∉ [(placeAfter ls, roleOf (placeAfter ls) line)]
    rw [List.mem_singleton, Prod.mk.injEq]
    unfold Clash
    rw [eq_comm, @eq_comm Role]

/-- What a stretch of the text does is there wherever the stretch is. -/
theorem readings_stretch {x y : List Str} {e : Place × Role}
    (hplace : placeFrom (placeAfter pre) y = placeFrom (placeAfter pre) x)
    (he : e ∈ readings (pre ++ (y ++ post))) :
    e ∈ readings (pre ++ (x ++ post)) ∨ e ∈ Mealy.emit outlineStep (placeAfter pre) y := by
  rw [readings_append, Mealy.emit_append, List.mem_append, List.mem_append] at he ⊢
  rcases he with he | he | he
  · exact .inl (.inl he)
  · exact .inr he
  · refine .inl (.inr (.inr ?_))
    show e ∈ Mealy.emit outlineStep (placeFrom (placeAfter pre) x) post
    rw [← hplace]
    exact he

/-! ## Nothing to normalise -/

/-- A line of the text closes a block of the package. -/
def OwnCloses (pkg : Str) (ls : List Str) : Prop :=
  ∃ pre line post, ls = pre ++ line :: post ∧ placeAfter pre = .inside pkg ∧
    nextPlace (placeAfter pre) (roleOf (placeAfter pre) line) = .outside none

theorem OwnCloses.append (h : OwnCloses pkg ls) (more : List Str) : OwnCloses pkg (ls ++ more) := by
  obtain ⟨pre, line, post, rfl, h⟩ := h
  exact ⟨pre, line, post ++ more, by simp, h⟩

theorem Block.ownCloses {o c : Nat} (h : Block pkg ls o c) : OwnCloses pkg ls := by
  obtain ⟨pre, opener, body, closer, post, hls, _, _, _, hopen, hbody, hend, _⟩ := h
  have hin : placeAfter (pre ++ opener :: body) = .inside pkg := by
    rw [placeAfter_append, placeFrom_cons, hopen, hbody.place]
  exact ⟨pre ++ opener :: body, closer, post, by rw [hls]; simp, hin, by rw [hin, hend]⟩

/-- The scan finds the end of a block exactly when there is one. -/
theorem blockClose_eq_none (hc : ClashFree ls) :
    (targetScan ls pkg).blockClose = none ↔ ¬ OwnCloses pkg ls := by
  have hfound := (targetScan_found pkg hc).1
  constructor
  · rintro hnone ⟨pre, line, post, hls, hin, hout⟩
    rw [hnone] at hfound
    have := hfound.no_close hls hin
    rw [hout] at this
    cases this
  · intro hno
    cases hclose : (targetScan ls pkg).blockClose with
    | none => rfl
    | some c =>
      obtain ⟨o, _, hb⟩ := hfound.closed c hclose
      exact absurd hb.ownCloses hno

/-- `normalize_singles` leaves single-line rules of the package where they are: its block has no end, and a
    single-line rule or the first header has opened it. -/
def LeftAlone (t : Target) : Prop :=
  t.blockClose = none ∧
    ((∃ loc ∈ t.singles, loc.opens = true) ∨ ∃ l, t.pkgLine = some l ∧ l.isStandalone = false)

/-- **When there is nothing to normalise**: no single-line rule, or one that is left alone. -/
theorem normalizeRuns_eq_false :
    normalizeRuns ls pkg = false ↔ (targetScan ls pkg).singles = [] ∨ LeftAlone (targetScan ls pkg) := by
  have hlocs := singleItems_locs ls pkg
  have hempty : (singleItems ls pkg).isEmpty = (targetScan ls pkg).singles.isEmpty := by
    rw [← hlocs, List.isEmpty_map]
  have hopens : (singleItems ls pkg).any (fun it => it.1.opens) = (targetScan ls pkg).singles.any (·.opens) := by
    rw [← hlocs, List.any_map]
    rfl
  unfold normalizeRuns normalizeBlocked LeftAlone
  rw [hempty, hopens]
  generalize (targetScan ls pkg).singles = singles
  cases singles with
  | nil => simp
  | cons loc locs =>
    cases (targetScan ls pkg).blockClose with
    | some c => simp
    | none =>
      cases (targetScan ls pkg).pkgLine with
      | none => cases hl : loc.opens <;> simp [hl]
      | some l => cases l <;> cases hl : loc.opens <;> simp [PkgLine.isStandalone, hl]

/-- Where single-line rules are left alone, the text ends inside the block of the package. -/
theorem LeftAlone.place (h : LeftAlone (targetScan ls pkg)) (hc : ClashFree ls) :
    placeAfter ls = .inside pkg := by
  obtain ⟨hblock, hheader⟩ := targetScan_found pkg hc
  obtain ⟨hnone, hopener⟩ := h
  cases hopen : (targetScan ls pkg).blockOpen with
  | some o => exact (hblock.opened o hopen hnone).place
  | none =>
    exfalso
    rcases hopener with ⟨loc, hloc, ho⟩ | ⟨l, hl, hst⟩
    · obtain ⟨pre, line, post, th, c, opens, hls, hrole, rfl⟩ := (mem_singles_iff hc).mp hloc
      dsimp only at ho
      subst ho
      refine hblock.unseen hopen (pre.length + 1) ?_
      rw [hls, List.append_cons, List.take_left' (by simp), placeAfter_concat, hrole]
      rfl
    · rw [hheader.alone hopen l hl] at hst
      cases hst

/-- **Normalising is done once**: behind the normalisation there is nothing to normalise. -/
theorem normalizeRuns_twice (h : normalizeRuns ls pkg = true → NormalizeSafe ls pkg) :
    normalizeRuns (normalizeSingles ls pkg) pkg = false := by
  by_cases hrun : normalizeRuns ls pkg = true
  · have hr := normalizeSingles_reshaped (h hrun) hrun
    exact normalizeRuns_eq_false.mpr (.inl (singles_eq_nil hr.clashFree hr.noSingles))
  · have hidle := Bool.eq_false_iff.mpr hrun
    rw [normalizeSingles_idle hidle]
    exact hidle

/-! ## Nothing more to normalise -/

/-- Whether a text holds single-line rules of the package is a matter of its roles. -/
theorem singles_nil_iff (hc : ClashFree ls) :
    (targetScan ls pkg).singles = [] ↔ ∀ e ∈ readings ls, e.2.singleOf pkg = false := by
  constructor
  · intro hnil e he
    obtain ⟨pre, line, post, hls, rfl⟩ := mem_readings.mp he
    rw [Bool.eq_false_iff]
    intro hs
    obtain ⟨th, c, opens, hrole⟩ := singleOf_iff.mp hs
    have hmem := (mem_singles_iff hc).mpr ⟨pre, line, post, th, c, opens, hls, hrole, rfl⟩
    rw [hnil] at hmem
    cases hmem
  · intro hnone
    refine singles_eq_nil hc fun r hr => ?_
    obtain ⟨e, he, rfl⟩ := List.mem_map.mp hr
    exact hnone e he

/-- A single-line rule of the package opens a block. -/
def SingleOpens (pkg : Str) (ls : List Str) : Prop :=
  ∃ e ∈ readings ls, ∃ th c, e.2 = .outer (.single pkg th c true)

theorem singleOpens_iff (hc : ClashFree ls) :
    (∃ loc ∈ (targetScan ls pkg).singles, loc.opens = true) ↔ SingleOpens pkg ls := by
  constructor
  · rintro ⟨loc, hloc, ho⟩
    obtain ⟨pre, line, post, th, c, opens, hls, hrole, rfl⟩ := (mem_singles_iff hc).mp hloc
    dsimp only at ho
    subst ho
    exact ⟨_, mem_readings.mpr ⟨pre, line, post, hls, rfl⟩, th, c, hrole⟩
  · rintro ⟨e, he, th, c, hrole⟩
    obtain ⟨pre, line, post, hls, rfl⟩ := mem_readings.mp he
    exact ⟨_, (mem_singles_iff hc).mpr ⟨pre, line, post, th, c, true, hls, hrole, rfl⟩, rfl⟩

/-- The second text has no clash, no single-line rule and no end of a block of the package unless the first one
    has. -/
structure NoMore (pkg : Str) (ls ls' : List Str) : Prop where
  clashFree : ClashFree ls → ClashFree ls'
  singles : (∀ e ∈ readings ls, e.2.singleOf pkg = false) → ∀ e ∈ readings ls', e.2.singleOf pkg = false
  closes : OwnCloses pkg ls' → OwnCloses pkg ls

/-- A line that brings neither a clash nor a single-line rule nor the end of a block of the package. -/
def Uneventful (pkg : Str) (e : Place × Role) : Prop :=
  e.2 ≠ .outer (.bareOpen []) ∧ e.2.singleOf pkg = false ∧
    (e.1 = .inside pkg → nextPlace e.1 e.2 = .inside pkg)

theorem ownCloses_iff :
    OwnCloses pkg ls ↔ ∃ e ∈ readings ls, e.1 = .inside pkg ∧ nextPlace e.1 e.2 = .outside none := by
  constructor
  · rintro ⟨pre, line, post, hls, hin, hout⟩
    exact ⟨_, mem_readings.mpr ⟨pre, line, post, hls, rfl⟩, hin, hout⟩
  · rintro ⟨e, he, hin, hout⟩
    obtain ⟨pre, line, post, hls, rfl⟩ := mem_readings.mp he
    exact ⟨pre, line, post, hls, hin, hout⟩

/-- A text whose lines do what those of the first one do, or nothing of note. -/
theorem NoMore.of_readings {ls' : List Str} (h : ∀ e ∈ readings ls', e ∈ readings ls ∨ Uneventful pkg e) :
    NoMore pkg ls ls' := by
  refine ⟨fun hc => ?_, fun hnone e he => ?_, fun hcl => ?_⟩
  · rw [clashFree_iff] at hc ⊢
    intro he
    rcases h _ he with he | hu
    · exact hc he
    · exact hu.1 rfl
  · rcases h e he with he | hu
    · exact hnone e he
    · exact hu.2.1
  · obtain ⟨e, he, hin, hout⟩ := ownCloses_iff.mp hcl
    rcases h e he with he | hu
    · exact ownCloses_iff.mpr ⟨e, he, hin, hout⟩
    · rw [hu.2.2 hin] at hout
      cases hout

/-- **Nothing to normalise in the second text**, where there is nothing in the first one and an opener of an
    unclosed block is left. -/
theorem NoMore.idle {ls' : List Str} (h : NoMore pkg ls ls') (hc : ClashFree ls)
    (hidle : normalizeRuns ls pkg = false)
    (hopener : LeftAlone (targetScan ls pkg) → (targetScan ls' pkg).singles = [] ∨ SingleOpens pkg ls' ∨
      ∃ l, (targetScan ls' pkg).pkgLine = some l ∧ l.isStandalone = false) :
    normalizeRuns ls' pkg = false := by
  have hc' := h.clashFree hc
  rw [normalizeRuns_eq_false]
  rcases normalizeRuns_eq_false.mp hidle with hnil | hleft
  · exact .inl ((singles_nil_iff hc').mpr (h.singles ((singles_nil_iff hc).mp hnil)))
  · have hclose : (targetScan ls' pkg).blockClose = none :=
      (blockClose_eq_none hc').mpr fun hcl => (blockClose_eq_none hc).mp hleft.1 (h.closes hcl)
    rcases hopener hleft with hnil | hsingle | hheader
    · exact .inl hnil
    · exact .inr ⟨hclose, .inl ((singleOpens_iff hc').mpr hsingle)⟩
    · exact .inr ⟨hclose, .inr hheader⟩

/-! ## The first header -/

/-- The scan of some first lines depends on these lines alone. -/
theorem scanPrefix_fold (post : List Str) (hc : ClashFree pre) :
    scanPrefix (pre ++ post) pkg pre
      = (outlineAt pre).foldl (fun s e => noteRole pkg s e.1 e.2.1 e.2.2) {} := by
  induction pre using List.reverseRecOn generalizing post with
  | nil => rfl
  | append_singleton pre line ih =>
    obtain ⟨hpre, hline⟩ := clashFree_concat.mp hc
    have hat := scan_refines pkg (line :: post) hpre
    rw [scanPrefix_concat, outlineAt_concat, List.foldl_append, List.append_assoc]
    show scanLine (pre ++ line :: post) pkg (scanPrefix (pre ++ line :: post) pkg pre) (line, pre.length) = _
    rw [scan_step hat hline, ih (line :: post) hpre]
    rfl

/-- The header noted in some first lines stays. -/
theorem scan_pkgLine_keep (hc : ClashFree (pre ++ post))
    (h : (scanPrefix (pre ++ post) pkg pre).t.pkgLine = some l) :
    (targetScan (pre ++ post) pkg).pkgLine = some l := by
  have hrun : ∀ mid rest, post = mid ++ rest →
      (scanPrefix (pre ++ post) pkg (pre ++ mid)).t.pkgLine = some l := by
    intro mid
    induction mid using List.reverseRecOn with
    | nil =>
      intro _ _
      rw [List.append_nil]
      exact h
    | append_singleton mid line ih =>
      intro rest hpost
      have hsplit : pre ++ post = (pre ++ mid) ++ line :: rest := by rw [hpost]; simp
      have hc' : ClashFree (pre ++ mid) ∧ ¬ Clash (placeAfter (pre ++ mid)) line := by
        rw [hsplit] at hc
        exact ⟨(Mealy.along_append.mp hc).1, Mealy.along_at hc⟩
      have hat := scan_refines pkg (line :: rest) hc'.1
      have hbefore := ih (line :: rest) (by rw [hpost]; simp)
      rw [← List.append_assoc, scanPrefix_concat]
      rw [hsplit] at hbefore ⊢
      rw [scan_step hat hc'.2]
      exact noteRole_pkgLine_keep hbefore
  exact hrun post [] (by simp)

/-- Above the first header none is noted. -/
theorem scan_pkgLine_above (hc : ClashFree (pre ++ post))
    (h : ∀ l, (targetScan (pre ++ post) pkg).pkgLine = some l → pre.length ≤ l.idx) :
    (scanPrefix (pre ++ post) pkg pre).t.pkgLine = none := by
  cases hl : (scanPrefix (pre ++ post) pkg pre).t.pkgLine with
  | none => rfl
  | some l =>
    have hlt := ((anatomy_scan pkg post (Mealy.along_append.mp hc).1).header.standing l hl).idx_lt
    have hle := h l (scan_pkgLine_keep hc hl)
    omega

/-- **A rule header with none above it** is the one the scan notes, whatever stands below. -/
theorem header_found {post' : List Str} (hc : ClashFree (pre ++ line :: post))
    (hnone : (scanPrefix (pre ++ post') pkg pre).t.pkgLine = none) {c : Str}
    (hrole : roleOf (placeAfter pre) line = .outer (.rule pkg c opens)) :
    (targetScan (pre ++ line :: post) pkg).pkgLine
      = some (if opens then .openInline pre.length else .standalone pre.length) := by
  obtain ⟨hpre, hline⟩ : ClashFree pre ∧ ¬ Clash (placeAfter pre) line :=
    ⟨(Mealy.along_append.mp hc).1, Mealy.along_at hc⟩
  have hat := scan_refines pkg (line :: post) hpre
  have hsplit : pre ++ line :: post = (pre ++ [line]) ++ post := by simp
  have hstep : (scanPrefix (pre ++ line :: post) pkg (pre ++ [line])).t.pkgLine
      = some (if opens then .openInline pre.length else .standalone pre.length) := by
    rw [scanPrefix_concat, scan_step hat hline, hrole]
    rw [scanPrefix_fold _ hpre] at hnone
    rw [scanPrefix_fold _ hpre]
    revert hnone
    generalize (outlineAt pre).foldl (fun s e => noteRole pkg s e.1 e.2.1 e.2.2) {} = s
    intro hnone
    cases opens <;> simp [noteRole, hnone]
  rw [hsplit] at hstep hc ⊢
  exact scan_pkgLine_keep hc hstep

/-- **A rule header that stands alone**, in a text that closes no block of the package, comes after another such
    one or is the first header. -/
theorem standalone_of_rule (hc : ClashFree (pre ++ line :: post))
    (hno : ¬ OwnCloses pkg (pre ++ line :: post)) {c : Str}
    (hrole : roleOf (placeAfter pre) line = .outer (.rule pkg c false)) :
    ∃ i, (targetScan (pre ++ line :: post) pkg).pkgLine = some (.standalone i) := by
  have hsplit : pre ++ line :: post = (pre ++ [line]) ++ post := by simp
  rw [hsplit] at hc hno ⊢
  have hc' : ClashFree (pre ++ [line]) := (Mealy.along_append.mp hc).1
  have hout : placeAfter (pre ++ [line]) = .outside none := by
    rw [placeAfter_concat, hrole]
    rfl
  have hanat := anatomy_scan pkg post hc'
  -- no block of the package has been opened so far: it would have been closed
  have hopen : (scanPrefix ((pre ++ [line]) ++ post) pkg (pre ++ [line])).t.blockOpen = none := by
    cases ho : (scanPrefix ((pre ++ [line]) ++ post) pkg (pre ++ [line])).t.blockOpen with
    | none => rfl
    | some o =>
      exfalso
      cases hcl : (scanPrefix ((pre ++ [line]) ++ post) pkg (pre ++ [line])).t.blockClose with
      | none =>
        have := (hanat.block.opened o ho hcl).place
        rw [hout] at this
        cases this
      | some c =>
        obtain ⟨_, _, hb⟩ := hanat.block.closed c hcl
        exact hno (hb.ownCloses.append post)
  obtain ⟨l, hl, _⟩ := scan_firstRule pkg post hc' pre.length c false (LineAt.last hrole)
  have hst := hanat.header.alone hopen l hl
  cases l with
  | standalone i => exact ⟨i, scan_pkgLine_keep hc hl⟩
  | openInline i => cases hst
  | bareOpen i => cases hst
  | barePending i => cases hst

end AppOptR
