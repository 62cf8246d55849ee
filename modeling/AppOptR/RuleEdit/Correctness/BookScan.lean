import AppOptR.RuleEdit.Book

/-!
# `RuleEdit.Correctness.BookScan` — a book's text, as the two readers read it

Every line of a book's text is read as what it was written for (`header_outer`, `threadLine_rule`,
`close_line`). From this `target_scan` finds of a package exactly its entry (`targetScan_of_find`,
`targetScan_absent`), so that `normalize_singles` leaves the text alone, and the loader finds exactly the
rules of the book and counts no failure (`loadLines_book`).
-/

namespace AppOptR

open Text

variable {topo : CpuTopology} {b : Book} {pkg q thread cpus : Str} {body : Body} {s : SpecText} {max i k : Nat}

/-! ## The lines -/

theorem SpecText.Ok.unmarked (h : s.Ok topo) : Unmarked s.text := by
  intro c hc
  rcases List.mem_append.mp hc with hc | hc
  · exact h.spec.unmarked c hc
  · exact isWhitespace_unmarked (h.blank c hc)

theorem SpecText.Ok.trim_text (h : s.Ok topo) : trim s.text = s.cpus := by
  rw [SpecText.text, trim_append_blank h.blank, trim_of_solid h.spec.head h.spec.last]

theorem Title.commentFree (h : Title max pkg) : CommentFree pkg := h.name.commentFree

/-- The key and the spec of a line, as the comment cut and the trims leave them. -/
theorem pair_core (hp : Title max pkg) (hs : s.Ok topo) {w : Str} (hw : Blank w) :
    core (w ++ (pkg ++ '=' :: s.text)) = pkg ++ '=' :: s.cpus := by
  have hfree : CommentFree (pkg ++ '=' :: s.text) :=
    hp.commentFree.append_cons hs.unmarked.commentFree (by decide) (by decide)
  have hcore := core_written hw (hp.name.head.append hp.name.ne ('=' :: s.text)) (by simp)
    (commentFind_commentFree hfree false) (.inl rfl : ([] : Str) = [] ∨ CommentTail [])
  rw [List.append_nil] at hcore
  have htext : pkg ++ '=' :: s.text = (pkg ++ '=' :: s.cpus) ++ s.pad := by simp [SpecText.text]
  rw [hcore, htext, trimEnd_append hs.blank]
  refine trimEnd_eq_self.mpr ?_
  have := hs.spec.last.append hs.spec.ne (pkg ++ ['='])
  rwa [List.append_assoc, List.singleton_append] at this

theorem Title.closeLike (hp : Title max pkg) (v : Str) : closeLike (pkg ++ '=' :: v) = false := by
  rw [Bool.eq_false_iff]
  intro hcl
  obtain ⟨c, r, hs, _⟩ := (closeLike_key hp.commentFree).mp hcl
  exact hp.plain.noClose (by rw [hs]; simp)

theorem Title.skipped (hp : Title max pkg) (v : Str) : skipped (pkg ++ '=' :: v) = false := by
  rw [skipped_append hp.name.ne (by decide), hp.name.key.shown]

/-- A pair whose key is a title is a rule, with or without the brace. -/
theorem parsePair_title (hp : Title max pkg) {v : Str} (hne : valueText v ≠ []) :
    parsePair pkg v = .rule pkg (valueText v) (valueOpens v) := by
  rw [parsePair, singleKey_none hp.plain.noOpen, hp.closeLike, trim_of_solid hp.name.head hp.name.last]
  simp [hne]

theorem line_outer (hp : Title max pkg) (hs : s.Ok topo) :
    skipped (trim (pkg ++ '=' :: s.text)) = false ∧
      parseOuter (trim (pkg ++ '=' :: s.text)) = .rule pkg s.cpus false := by
  have hcore : core (pkg ++ '=' :: s.text) = pkg ++ '=' :: s.cpus := pair_core hp hs blank_nil
  have hopen : valueOpens s.cpus = false := by
    rw [valueOpens, decide_eq_false_iff_not]
    exact fun hl => hs.spec.unmarked.not_mem (c := '{') (by simp [marks]) (List.mem_of_getLast? hl)
  have hval : valueText s.cpus = s.cpus := by
    rw [valueText, hopen, if_neg (by simp), trim_of_solid hs.spec.head hs.spec.last]
  refine ⟨by rw [skipped_core, hcore, hp.skipped], ?_⟩
  rw [parseOuter_core, hcore, parseCore_pair (hs.spec.unmarked.not_mem (by simp [marks])),
    parsePair_title hp (by rw [hval]; exact hs.spec.ne), hval, hopen]

theorem open_outer (hp : Title max pkg) (hs : s.Ok topo) :
    skipped (trim (pkg ++ '=' :: (s.text ++ [' ', '{']))) = false ∧
      parseOuter (trim (pkg ++ '=' :: (s.text ++ [' ', '{']))) = .rule pkg s.cpus true := by
  have hfree : CommentFree (pkg ++ '=' :: (s.text ++ [' ', '{'])) :=
    hp.commentFree.append_cons (hs.unmarked.commentFree.append_cons (commentFree_of_plain (by simp))
      (by decide) (by decide)) (by decide) (by decide)
  have hlast : LastSolid (pkg ++ '=' :: (s.text ++ [' ', '{'])) := by
    have hb : LastSolid ['{'] := by simp [LastSolid, isWhitespace]
    have := hb.append (by simp) (pkg ++ '=' :: s.text ++ [' '])
    simpa using this
  have hcore := Solid.core (w := []) (t := [])
    ⟨hp.name.head.append hp.name.ne _, hlast, commentFind_commentFree hfree false⟩ (by simp) blank_nil (.inl rfl)
  rw [List.nil_append, List.append_nil] at hcore
  have heq : '=' ∉ s.text ++ [' ', '{'] := by
    simpa using hs.unmarked.not_mem (c := '=') (by simp [marks])
  have hopen : valueOpens (s.text ++ [' ', '{']) = true := by simp [valueOpens]
  have hval : valueText (s.text ++ [' ', '{']) = s.cpus := by
    have hdrop : (s.text ++ [' ', '{']).dropLast = s.text ++ [' '] := by
      rw [List.dropLast_append_of_ne_nil (by simp)]
      rfl
    rw [valueText, if_pos hopen, hdrop, trim_append_blank (by simp [Blank, isWhitespace]), hs.trim_text]
  refine ⟨by rw [skipped_core, hcore, hp.skipped], ?_⟩
  rw [parseOuter_core, hcore, parseCore_pair heq, parsePair_title hp (by rw [hval]; exact hs.spec.ne), hval, hopen]

theorem bare_outer (hp : Title max pkg) :
    skipped (trim (pkg ++ [' ', '{'])) = false ∧ parseOuter (trim (pkg ++ [' ', '{'])) = .bareOpen pkg := by
  have hline : bareOpenLine pkg = pkg ++ [' ', '{'] := if_neg hp.plain.noEq
  rw [← hline, bareOpenLine_trim hp.name]
  refine ⟨(bareOpenLine_commentFree hp.name).not_skipped (by rw [hline]; simp), ?_⟩
  exact (parseOuter_bareOpenLine hp.name).2 fun h => hp.plain.noEq h.1

/-- **A thread line** inside a block. -/
theorem threadLine_rule {t : Str × SpecText} (ht : Title max t.1) (hs : t.2.Ok topo) :
    skipped (trim (threadLine t)) = false ∧ closeLike (trim (threadLine t)) = false ∧
      splitRuleLine (trim (threadLine t)) = some (t.1, t.2.cpus, false) := by
  have hcore : core (threadLine t) = t.1 ++ '=' :: t.2.cpus :=
    pair_core ht hs (w := ['\t']) (by simp [Blank, isWhitespace])
  have hbrace : kvBeforeBrace [] t.1 = none := by
    rw [kvBeforeBrace_eq_none]
    intro a b hab
    exact absurd (by rw [hab]; simp) ht.plain.noClose
  have hclose : splitFirst '}' t.2.cpus = none :=
    splitFirst_eq_none.mpr (hs.spec.unmarked.not_mem (by simp [marks]))
  refine ⟨by rw [skipped_core, hcore, ht.skipped], by rw [closeLike_core, hcore, ht.closeLike], ?_⟩
  rw [splitRuleLine_core, hcore, splitCore_pair (hs.spec.unmarked.not_mem (by simp [marks])) hbrace, hclose,
    trim_of_solid ht.name.head ht.name.last]
  simp [ht.name.ne, trim_of_solid hs.spec.head hs.spec.last]

theorem close_line : skipped (trim ['}']) = false ∧ closeLike (trim ['}']) = true := by decide

/-! ## The scan of a book -/

/-- The scan outside every block, with no header waiting. -/
abbrev ScanState.idle (t : Target) : ScanState := ⟨t, none, false, false⟩

def threadLocs (k : Nat) (threads : List (Str × SpecText)) : List (Str × ThreadLoc) :=
  (threads.zipIdx k).map fun e => (e.1.1, ⟨e.2, false, false, false⟩)

/-- What `target_scan` finds of an entry whose header is line `i`. -/
def Body.target (i : Nat) : Body → Target
  | .line _ => { pkgLine := some (.standalone i) }
  | .block s threads =>
    { pkgLine := some (if s.isSome then .openInline i else .bareOpen i)
      blockOpen := some i
      blockClose := some (i + 1 + threads.length)
      threads := threadLocs (i + 1) threads }

variable {ls : List Str} {t : Target}

theorem scan_threadLine {th : Str × SpecText} {tb : Bool} (ht : Title max th.1) (hs : th.2.Ok topo) :
    scanLine ls q ⟨t, none, true, tb⟩ (threadLine th, i)
      = ⟨if tb then t.pushThread th.1 ⟨i, false, false, false⟩ else t, none, true, tb⟩ := by
  obtain ⟨hskip, hclose, hrule⟩ := threadLine_rule ht hs
  cases tb <;> simp [scanLine, hskip, hclose, hrule, ht.name.ne]

theorem scan_threadLines {threads : List (Str × SpecText)} {tb : Bool}
    (h : ∀ t ∈ threads, Title max t.1 ∧ t.2.Ok topo) :
    ((threads.map threadLine).zipIdx k).foldl (scanLine ls q) ⟨t, none, true, tb⟩
      = ⟨if tb then { t with threads := t.threads ++ threadLocs k threads } else t, none, true, tb⟩ := by
  induction threads generalizing t k with
  | nil => cases tb <;> simp [threadLocs]
  | cons th threads ih =>
    obtain ⟨⟨ht, hs⟩, hrest⟩ := List.forall_mem_cons.mp h
    rw [List.map_cons, List.zipIdx_cons, List.foldl_cons, scan_threadLine ht hs, ih hrest]
    cases tb <;> simp [threadLocs, Target.pushThread, List.zipIdx_cons]

/-- The closing line of a block. -/
theorem scan_close {tb : Bool} :
    scanLine ls q ⟨t, none, true, tb⟩ (['}'], i)
      = .idle (if tb && t.blockClose.isNone then { t with blockClose := some i } else t) := by
  obtain ⟨hskip, hclose⟩ := close_line
  simp [scanLine, hskip, hclose, ScanState.closeBlock]

/-- The header line, for the package and for another one. -/
theorem scan_header (hp : Title max pkg) (hb : body.Ok topo) :
    scanLine ls q (.idle t) (body.header pkg, i)
      = match body with
        | .line _ => .idle (if pkg = q then t.notePkgLine (.standalone i) else t)
        | .block s _ =>
          ⟨if pkg = q then (t.openBlock i).notePkgLine (if s.isSome then .openInline i else .bareOpen i) else t,
            none, true, decide (pkg = q)⟩ := by
  cases body with
  | line s =>
    obtain ⟨hskip, houter⟩ := line_outer hp (hb.spec s rfl)
    simp [Body.header, scanLine, hskip, houter]
  | block s threads =>
    cases s with
    | none =>
      obtain ⟨hskip, houter⟩ := bare_outer hp
      simp [Body.header, scanLine, hskip, houter, hp.name.ne]
    | some s =>
      obtain ⟨hskip, houter⟩ := open_outer hp (hb.spec s rfl)
      simp [Body.header, scanLine, hskip, houter]

theorem Body.Ok.inside {s : Option SpecText} {threads : List (Str × SpecText)}
    (h : (Body.block s threads).Ok topo) : ∀ t ∈ threads, Title maxThreadLen t.1 ∧ t.2.Ok topo := h.threads

/-- The scan passes over the entry of another package. -/
theorem scan_other (hp : Title max pkg) (hb : body.Ok topo) (hq : pkg ≠ q) :
    ((body.text pkg).zipIdx i).foldl (scanLine ls q) (.idle t) = .idle t := by
  rw [Body.text, List.zipIdx_cons, List.foldl_cons, scan_header hp hb]
  cases body with
  | line s => simp [Body.inner, hq]
  | block s threads =>
    simp only [Body.inner, hq, if_false, decide_false, List.zipIdx_append, List.foldl_append, List.zipIdx_singleton,
      List.foldl_cons, List.foldl_nil]
    rw [scan_threadLines hb.inside, scan_close]
    simp

/-- **The package's entry**, found by a scan that has found nothing yet. -/
theorem scan_own (hp : Title max pkg) (hb : body.Ok topo) :
    ((body.text pkg).zipIdx i).foldl (scanLine ls pkg) (.idle {}) = .idle (body.target i) := by
  rw [Body.text, List.zipIdx_cons, List.foldl_cons, scan_header hp hb]
  cases body with
  | line s => simp [Body.inner, Body.target, Target.notePkgLine]
  | block s threads =>
    simp only [Body.inner, if_true, decide_true, List.zipIdx_append, List.foldl_append, List.zipIdx_singleton,
      List.foldl_cons, List.foldl_nil]
    rw [scan_threadLines hb.inside, scan_close]
    simp [Body.target, Target.notePkgLine, Target.openBlock]

@[simp] theorem Book.text_nil : Book.text [] = [] := rfl

theorem Book.text_cons (it : Item) (b : Book) : Book.text (it :: b) = it.text ++ Book.text b := List.flatMap_cons

theorem Book.text_append (b c : Book) : Book.text (b ++ c) = Book.text b ++ Book.text c := List.flatMap_append

theorem Book.pkgs_append (b c : Book) : Book.pkgs (b ++ c) = Book.pkgs b ++ Book.pkgs c := List.filterMap_append

@[simp] theorem Book.pkgs_cons_gap (b : Book) : Book.pkgs (.gap :: b) = b.pkgs := rfl

@[simp] theorem Book.pkgs_cons_entry (b : Book) : Book.pkgs (.entry pkg body :: b) = pkg :: b.pkgs := rfl

/-- Items of other packages leave the scan as it is. -/
theorem scan_others (h : ∀ it ∈ b, it.Ok topo) (hq : q ∉ b.pkgs) :
    ((Book.text b).zipIdx i).foldl (scanLine ls q) (.idle t) = .idle t := by
  induction b generalizing i with
  | nil => rfl
  | cons it b ih =>
    obtain ⟨hit, hrest⟩ := List.forall_mem_cons.mp h
    rw [Book.text_cons, List.zipIdx_append, List.foldl_append]
    cases it with
    | gap => exact ih hrest hq
    | entry pkg body =>
      obtain ⟨hne, hnot⟩ : ¬ q = pkg ∧ q ∉ Book.pkgs b := by
        rwa [Book.pkgs_cons_entry, List.mem_cons, not_or] at hq
      show ((Book.text b).zipIdx _).foldl (scanLine ls q) (((body.text pkg).zipIdx i).foldl _ _) = _
      rw [scan_other hit.1 hit.2 (Ne.symm hne)]
      exact ih hrest hnot

/-- **A package without an entry** is not found. -/
theorem targetScan_absent (h : ∀ it ∈ b, it.Ok topo) (hq : q ∉ b.pkgs) : targetScan b.text q = {} := by
  have hscan : scanPrefix b.text q b.text = .idle {} := scan_others h hq
  simp [targetScan, hscan]

/-- An entry among items of other packages. -/
structure Entry (topo : CpuTopology) (pre post : Book) (pkg : Str) (body : Body) : Prop where
  left : ∀ it ∈ pre, it.Ok topo
  right : ∀ it ∈ post, it.Ok topo
  title : Title maxPkgLen pkg
  body : body.Ok topo
  before : pkg ∉ pre.pkgs
  after : pkg ∉ post.pkgs

/-- The lines around the entry's own. -/
theorem entry_text (pre post : Book) (pkg : Str) (body : Body) :
    Book.text (pre ++ .entry pkg body :: post) = pre.text ++ (body.text pkg ++ post.text) := by
  rw [Book.text_append, Book.text_cons]
  rfl

/-- **A package with an entry** is found where the entry stands. -/
theorem targetScan_entry {pre post : Book} (h : Entry topo pre post pkg body) :
    targetScan (Book.text (pre ++ .entry pkg body :: post)) pkg = body.target pre.text.length := by
  have hscan : ∀ ls, ((pre.text ++ (body.text pkg ++ post.text)).zipIdx 0).foldl (scanLine ls pkg) (.idle {})
      = .idle (body.target pre.text.length) := by
    intro ls
    rw [List.zipIdx_append, List.foldl_append, scan_others h.left h.before, List.zipIdx_append,
      List.foldl_append, Nat.zero_add, scan_own h.title h.body, scan_others h.right h.after]
  have hprefix := hscan (pre.text ++ (body.text pkg ++ post.text))
  rw [entry_text, targetScan, scanPrefix, hprefix]
  cases body <;> rfl

/-- The entry of a package that has one. -/
theorem Book.Ok.entry (h : b.Ok topo) (hf : b.find pkg = some body) :
    ∃ pre post, b = pre ++ .entry pkg body :: post ∧ Entry topo pre post pkg body := by
  obtain ⟨hitems, hd⟩ := h
  induction b with
  | nil => cases hf
  | cons it b ih =>
    obtain ⟨hit, hrest⟩ := List.forall_mem_cons.mp hitems
    cases it with
    | gap =>
      obtain ⟨pre, post, rfl, he⟩ := ih hf hrest hd
      exact ⟨.gap :: pre, post, rfl, { he with left := List.forall_mem_cons.mpr ⟨trivial, he.left⟩ }⟩
    | entry p bd =>
      rw [Book.pkgs_cons_entry, List.nodup_cons] at hd
      unfold Book.find at hf
      split at hf
      · next hp =>
        obtain rfl := Option.some.inj hf
        subst hp
        exact ⟨[], b, rfl, ⟨by simp, hrest, hit.1, hit.2, by simp [Book.pkgs], hd.1⟩⟩
      · next hp =>
        obtain ⟨pre, post, rfl, he⟩ := ih hf hrest hd.2
        refine ⟨.entry p bd :: pre, post, rfl,
          { he with left := List.forall_mem_cons.mpr ⟨hit, he.left⟩, before := ?_ }⟩
        rw [Book.pkgs_cons_entry, List.mem_cons, not_or]
        exact ⟨fun h => hp h.symm, he.before⟩

theorem Book.find_eq_none : b.find q = none ↔ q ∉ b.pkgs := by
  induction b with
  | nil => simp [Book.find, Book.pkgs]
  | cons it b ih =>
    cases it with
    | gap => simpa [Book.find] using ih
    | entry p body =>
      by_cases hp : p = q
      · simp [Book.find, hp]
      · simp [Book.find, hp, Ne.symm hp, ih]

/-- Where the entry is, for the operations on books. -/
theorem Entry.find {pre post : Book} (h : Entry topo pre post pkg body) :
    Book.find pkg (pre ++ .entry pkg body :: post) = some body := by
  have hpre : ∀ pre : Book, pkg ∉ pre.pkgs →
      Book.find pkg (pre ++ .entry pkg body :: post) = some body := by
    intro pre hb
    induction pre with
    | nil => simp [Book.find]
    | cons it pre ih =>
      cases it with
      | gap => exact ih hb
      | entry p bd =>
        rw [Book.pkgs_cons_entry, List.mem_cons, not_or] at hb
        rw [List.cons_append, Book.find, if_neg fun he => hb.1 he.symm]
        exact ih hb.2
  exact hpre pre h.before

theorem Entry.replace {pre post : Book} (h : Entry topo pre post pkg body) (f : Body → List Item) :
    Book.replace pkg f (pre ++ .entry pkg body :: post) = pre ++ (f body ++ post) := by
  have hpre : ∀ pre : Book, pkg ∉ pre.pkgs →
      Book.replace pkg f (pre ++ .entry pkg body :: post) = pre ++ (f body ++ post) := by
    intro pre hb
    induction pre with
    | nil => simp [Book.replace]
    | cons it pre ih =>
      cases it with
      | gap => rw [List.cons_append, Book.replace, ih hb, List.cons_append]
      | entry p bd =>
        rw [Book.pkgs_cons_entry, List.mem_cons, not_or] at hb
        rw [List.cons_append, Book.replace, if_neg fun he => hb.1 he.symm, ih hb.2, List.cons_append]
  exact hpre pre h.before

theorem singles_entry (body : Body) (i : Nat) : (body.target i).singles = [] := by
  cases body with
  | line s => rfl
  | block so threads =>
    simp only [Body.target, Target.singles, threadLocs, List.map_map, List.filter_eq_nil_iff]
    intro loc hloc
    obtain ⟨e, _, rfl⟩ := List.mem_map.mp hloc
    simp

/-- **Nothing to normalise**: a book has no single-line rules. -/
theorem normalizeSingles_book (h : b.Ok topo) (q : Str) : normalizeSingles b.text q = b.text := by
  have hsingles : (targetScan b.text q).singles = [] := by
    cases hf : b.find q with
    | none =>
      rw [targetScan_absent h.items (Book.find_eq_none.mp hf)]
      rfl
    | some body =>
      obtain ⟨pre, post, rfl, he⟩ := h.entry hf
      rw [targetScan_entry he]
      exact singles_entry body _
  simp [normalizeSingles, hsingles]

end AppOptR
