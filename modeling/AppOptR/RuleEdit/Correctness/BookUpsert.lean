import AppOptR.RuleEdit.Correctness.BookScan

/-!
# `RuleEdit.Correctness.BookUpsert` — `rule_upsert` on a book

On the text of a book `rule_upsert` finds the entry of the package where `targetScan_entry` says, and rewrites
a header, rewrites a thread line, adds one, or opens a block. Each is what `Book.upsert` does to the entry
(`upsertLines_book`).
-/

namespace AppOptR

open Text

variable {topo : CpuTopology} {b pre post : Book} {pkg thread cpus : Str} {body : Body} {s : SpecText}
  {max : Nat} {ls left right : List Str}

/-! ## Lines -/

theorem SpecText.swap_text (h : s.Ok topo) {tail : Str} (htail : ∀ c ∈ tail, valueEnd c = true) (cpus : Str) :
    cpus ++ ((s.text ++ tail).dropWhile fun c => !valueEnd c).filter valueEnd = (s.swap cpus).text ++ tail := by
  have hend : ∀ c ∈ s.pad ++ tail, valueEnd c = true := by
    intro c hc
    rcases List.mem_append.mp hc with hc | hc
    · simp [valueEnd, h.blank c hc]
    · exact htail c hc
  -- everything behind the spec ends a value, and is kept
  have hdrop : (s.pad ++ tail).dropWhile (fun c => !valueEnd c) = s.pad ++ tail := by
    cases hp : s.pad ++ tail with
    | nil => rfl
    | cons c r =>
      have hc : valueEnd c = true := hend c (by simp [hp])
      simp [hc]
  have hfilter : (s.pad ++ tail).filter valueEnd = s.pad ++ tail := List.filter_eq_self.mpr hend
  rw [SpecText.text, SpecText.swap, SpecText.text, List.append_assoc, List.dropWhile_append]
  split
  · next hnil =>
    rw [List.isEmpty_iff.mp hnil, hdrop, hfilter]
    simp
  · rw [List.filter_append, hfilter]
    simp

/-- **The spec of a book's line is swapped**, whatever braces stand behind it. -/
theorem specSwap_line {l tail : Str} (hl : CommentFree l) (hs : s.Ok topo) (htail : ∀ c ∈ tail, valueEnd c = true)
    (cpus : Str) :
    specSwap (l ++ '=' :: (s.text ++ tail)) cpus = l ++ '=' :: ((s.swap cpus).text ++ tail) := by
  have hmark : ∀ {x : Char}, valueEnd x = false → x ∉ tail := by
    intro x hx hm
    rw [htail x hm] at hx
    cases hx
  have hfree : CommentFree (l ++ '=' :: (s.text ++ tail)) := by
    refine hl.append_cons (commentFree_of_plain fun c hc => ?_) (by decide) (by decide)
    rcases List.mem_append.mp hc with hc | hc
    · have := hs.unmarked c hc
      constructor <;> rintro rfl <;> simp [marks] at this
    · constructor <;> rintro rfl
      · exact hmark (x := '#') (by decide) hc
      · exact hmark (x := '/') (by decide) hc
  have heq : '=' ∉ s.text ++ tail := by
    rw [List.mem_append, not_or]
    exact ⟨hs.unmarked.not_mem (by simp [marks]), hmark (by decide)⟩
  have hsolid : trimStart (s.text ++ tail) = s.text ++ tail := by
    rw [trimStart_eq_self, SpecText.text, List.append_assoc]
    exact hs.spec.head.append hs.spec.ne _
  unfold specSwap
  rw [hfree.commentAt]
  simp only [Option.getD_none, List.take_length, List.drop_length, splitLast_eq_some.mpr ⟨rfl, heq⟩, hsolid,
    Nat.sub_self, List.take_zero, List.append_nil, List.append_assoc, List.cons_append]
  rw [← SpecText.swap_text hs htail cpus, List.nil_append]

theorem specSwap_header (hp : Title max pkg) (hs : s.Ok topo) (cpus : Str) :
    specSwap ((Body.line s).header pkg) cpus = (Body.line (s.swap cpus)).header pkg := by
  have htail : ∀ c ∈ ([] : Str), valueEnd c = true := by simp
  have h := specSwap_line hp.commentFree hs htail cpus
  simpa [Body.header] using h

theorem specSwap_open (hp : Title max pkg) {threads : List (Str × SpecText)} (hs : s.Ok topo) (cpus : Str) :
    specSwap ((Body.block (some s) threads).header pkg) cpus = (Body.block (some (s.swap cpus)) threads).header pkg :=
  specSwap_line hp.commentFree hs (by simp [valueEnd, isWhitespace]) cpus

theorem specSwap_thread {t : Str × SpecText} (ht : Title max t.1) (hs : t.2.Ok topo) (cpus : Str) :
    specSwap (threadLine t) cpus = threadLine (t.1, t.2.swap cpus) := by
  have hfree : CommentFree ('\t' :: t.1) :=
    CommentFree.append_cons (s := []) ⟨by simp, by simp⟩ ht.commentFree (by decide) (by decide)
  have htail : ∀ c ∈ ([] : Str), valueEnd c = true := by simp
  have h := specSwap_line hfree hs htail cpus
  simpa [threadLine] using h

/-! ## Places -/

theorem set_at (left : List Str) (x y : Str) (right : List Str) :
    (left ++ x :: right).set left.length y = left ++ y :: right := by simp

theorem eraseIdx_at (left : List Str) (x : Str) (right : List Str) :
    (left ++ x :: right).eraseIdx left.length = left ++ right := by
  simp [List.eraseIdx_append_of_length_le]

theorem spliceAt_at (left right chunk : List Str) :
    spliceAt (left ++ right) left.length chunk = left ++ (chunk ++ right) := by
  simp [spliceAt]

/-- Where the line of a thread is. -/
theorem locs_threadLocs {threads : List (Str × SpecText)} {k : Nat} :
    ((threadLocs k threads).filter fun e => e.1 = thread).map (·.2)
      = ((threads.zipIdx k).filter fun e => e.1.1 = thread).map fun e => ⟨e.2, false, false, false⟩ := by
  rw [threadLocs, List.filter_map, List.map_map]
  rfl

theorem threadLocs_absent {threads : List (Str × SpecText)} {k : Nat} (h : thread ∉ threads.map (·.1)) :
    ((threadLocs k threads).filter fun e => e.1 = thread).map (·.2) = [] := by
  rw [locs_threadLocs, List.map_eq_nil_iff, List.filter_eq_nil_iff]
  rintro ⟨t, j⟩ ht
  have hmem : t ∈ threads := List.fst_mem_of_mem_zipIdx ht
  have hne : t.1 ≠ thread := fun he => h (he ▸ List.mem_map_of_mem hmem)
  simpa using hne

/-- A thread among others, each with its own line. -/
theorem threadLocs_present {before after : List (Str × SpecText)} {k : Nat}
    (hb : thread ∉ before.map (·.1)) (ha : thread ∉ after.map (·.1)) :
    ((threadLocs k (before ++ (thread, s) :: after)).filter fun e => e.1 = thread).map (·.2)
      = [⟨k + before.length, false, false, false⟩] := by
  have hsplit : threadLocs k (before ++ (thread, s) :: after)
      = threadLocs k before ++ (thread, ⟨k + before.length, false, false, false⟩) ::
          threadLocs (k + before.length + 1) after := by
    simp [threadLocs, List.zipIdx_append, List.zipIdx_cons]
  rw [hsplit, List.filter_append, List.map_append, threadLocs_absent hb, List.filter_cons_of_pos (by simp),
    List.map_cons, threadLocs_absent ha]
  rfl

theorem threads_split {threads : List (Str × SpecText)} (hd : (threads.map (·.1)).Nodup)
    (h : thread ∈ threads.map (·.1)) :
    ∃ before s after, threads = before ++ (thread, s) :: after ∧ thread ∉ before.map (·.1) ∧
      thread ∉ after.map (·.1) := by
  obtain ⟨⟨t, s⟩, ht, rfl⟩ := List.mem_map.mp h
  obtain ⟨before, after, rfl⟩ := List.append_of_mem ht
  rw [List.map_append, List.map_cons, List.nodup_middle, List.nodup_cons, List.mem_append, not_or] at hd
  exact ⟨before, s, after, rfl, hd.1.1, hd.1.2⟩

theorem setThread_absent {threads : List (Str × SpecText)} (h : thread ∉ threads.map (·.1)) :
    setThread thread cpus threads = threads ++ [(thread, .fresh cpus)] := by
  induction threads with
  | nil => rfl
  | cons t threads ih =>
    rw [List.map_cons, List.mem_cons, not_or] at h
    rw [setThread, if_neg (Ne.symm h.1), ih h.2, List.cons_append]

theorem setThread_present {before after : List (Str × SpecText)} (h : thread ∉ before.map (·.1)) :
    setThread thread cpus (before ++ (thread, s) :: after) = before ++ (thread, s.swap cpus) :: after := by
  induction before with
  | nil => simp [setThread]
  | cons t before ih =>
    rw [List.map_cons, List.mem_cons, not_or] at h
    rw [List.cons_append, setThread, if_neg (Ne.symm h.1), ih h.2, List.cons_append]

/-! ## The edit -/

/-- The lines of an entry, cut at its header. -/
theorem entry_lines (pre post : Book) (pkg : Str) (body : Body) :
    Book.text (pre ++ .entry pkg body :: post) = pre.text ++ (body.header pkg :: (body.inner ++ post.text)) := by
  rw [entry_text]
  rfl

/-- A line of a book's own text has no comment to keep. -/
theorem withComment_bare (hp : Title max pkg) (new : Str) : withComment new (pkg ++ [' ', '{']) = new := by
  have hline : bareOpenLine pkg = pkg ++ [' ', '{'] := if_neg hp.plain.noEq
  rw [withComment, ← hline, (bareOpenLine_commentFree hp.name).commentAt]

theorem trimEnd_line (hs : s.Ok topo) : trimEnd ((Body.line s).header pkg) = pkg ++ '=' :: s.cpus := by
  have hline : (Body.line s).header pkg = (pkg ++ '=' :: s.cpus) ++ s.pad := by
    simp [Body.header, SpecText.text]
  rw [hline, trimEnd_append hs.blank, trimEnd_eq_self]
  have := hs.spec.last.append hs.spec.ne (pkg ++ ['='])
  rwa [List.append_assoc, List.singleton_append] at this

/-- **The package-level half** on an entry. -/
theorem upsertPackage_entry (h : Entry topo pre post pkg body) (cpus : Str) :
    upsertPackage (Book.text (pre ++ .entry pkg body :: post)) (body.target pre.text.length) pkg cpus
      = .ok (Book.text (pre ++ .entry pkg (body.upsert [] cpus) :: post)) := by
  have hget : (Book.text (pre ++ .entry pkg body :: post)).getD pre.text.length [] = body.header pkg := by
    rw [entry_lines, getD_after]
  cases body with
  | line s =>
    simp only [upsertPackage, Body.target]
    rw [hget, specSwap_header h.title (h.body.spec s rfl), entry_lines, set_at, Body.upsert, if_pos rfl, entry_lines]
    rfl
  | block s threads =>
    cases s with
    | none =>
      simp only [upsertPackage, Body.target, Option.isSome_none, Bool.false_eq_true, if_false]
      rw [hget, Body.header, withComment_bare h.title, entry_lines, set_at, Body.upsert, if_pos rfl, entry_lines]
      simp [Body.header, SpecText.fresh, SpecText.text, Body.inner]
    | some s =>
      simp only [upsertPackage, Body.target, Option.isSome_some, if_true]
      rw [hget, specSwap_open h.title (h.body.spec s rfl), entry_lines, set_at, Body.upsert, if_pos rfl, entry_lines]
      rfl

/-- The lines of a block, cut at a thread. -/
theorem block_lines (pre post : Book) (pkg : Str) (so : Option SpecText) (before after : List (Str × SpecText))
    (t : Str × SpecText) :
    Book.text (pre ++ .entry pkg (.block so (before ++ t :: after)) :: post)
      = (pre.text ++ ((Body.block so (before ++ t :: after)).header pkg :: before.map threadLine)) ++
          (threadLine t :: (after.map threadLine ++ (['}'] :: post.text))) := by
  rw [entry_lines]
  simp [Body.inner]

/-- The header of a block does not depend on its threads. -/
theorem header_block (so : Option SpecText) (threads threads' : List (Str × SpecText)) :
    (Body.block so threads).header pkg = (Body.block so threads').header pkg := by
  cases so <;> rfl

/-- **The thread half** on an entry. -/
theorem upsertThread_entry (h : Entry topo pre post pkg body) (hne : thread ≠ []) (cpus : Str) :
    upsertThread (Book.text (pre ++ .entry pkg body :: post)) (body.target pre.text.length) pkg thread cpus
      = .ok (Book.text (pre ++ .entry pkg (body.upsert thread cpus) :: post)) := by
  have hline : '\t' :: thread ++ '=' :: cpus = threadLine (thread, .fresh cpus) := by
    simp [threadLine, SpecText.fresh, SpecText.text]
  unfold upsertThread
  rw [hline]
  cases body with
  | line s =>
    have hget : (Book.text (pre ++ .entry pkg (.line s) :: post)).getD pre.text.length []
        = (Body.line s).header pkg := by rw [entry_lines, getD_after]
    have hlocs : (Body.target pre.text.length (.line s)).locs thread = [] := rfl
    rw [hlocs]
    simp only [Body.target, List.getLast?_nil]
    have hplace : ∀ header : Str, pre.text.length + 1 = (pre.text ++ [header]).length := by simp
    -- the header is made to open a block, and the block put under it
    rw [hget, trimEnd_line (h.body.spec s rfl), entry_lines, set_at, Body.upsert, if_neg hne, entry_lines,
      List.append_cons, hplace (pkg ++ '=' :: s.cpus ++ [' ', '{']), spliceAt_at]
    simp [Body.header, Body.inner, SpecText.fresh, SpecText.text]
  | block so threads =>
    rw [Body.upsert, if_neg hne]
    by_cases hmem : thread ∈ threads.map (·.1)
    · obtain ⟨before, s, after, rfl, hb, ha⟩ := threads_split h.body.distinct hmem
      have hlocs : (Body.target pre.text.length (.block so (before ++ (thread, s) :: after))).locs thread
          = [⟨pre.text.length + 1 + before.length, false, false, false⟩] := threadLocs_present hb ha
      have hplace : pre.text.length + 1 + before.length
          = (pre.text ++ ((Body.block so (before ++ (thread, s) :: after)).header pkg ::
              before.map threadLine)).length := by
        simp
        omega
      obtain ⟨htitle, hs⟩ := h.body.inside (thread, s) (by simp)
      rw [hlocs]
      simp only [List.getLast?_singleton, List.dropLast_singleton, List.reverse_nil, List.foldl_nil]
      rw [hplace, block_lines, getD_after, set_at, specSwap_thread htitle hs, setThread_present hb, block_lines,
        header_block so _ (before ++ (thread, s.swap cpus) :: after)]
    · have hlocs : (Body.target pre.text.length (.block so threads)).locs thread = [] := threadLocs_absent hmem
      rw [hlocs]
      simp only [Body.target, List.getLast?_nil]
      have hplace : pre.text.length + 1 + threads.length
          = (pre.text ++ ((Body.block so threads).header pkg :: threads.map threadLine)).length := by
        simp
        omega
      have htext : Book.text (pre ++ .entry pkg (.block so threads) :: post)
          = (pre.text ++ ((Body.block so threads).header pkg :: threads.map threadLine)) ++ (['}'] :: post.text) := by
        rw [entry_lines]
        simp [Body.inner]
      rw [hplace, htext, spliceAt_at, setThread_absent hmem, block_lines,
        header_block so _ (threads ++ [(thread, .fresh cpus)])]
      rfl

/-- **`rule_upsert` on a book.** -/
theorem upsertLines_book (h : b.Ok topo) (hp : Title maxPkgLen pkg) :
    upsertLines pkg thread cpus b.text = .ok (b.upsert pkg thread cpus).text := by
  unfold upsertLines
  simp only [normalizeSingles_book h]
  cases hf : b.find pkg with
  | some body =>
    obtain ⟨pre, post, rfl, he⟩ := h.entry hf
    rw [targetScan_entry he]
    simp only [Book.upsert, hf, he.replace, List.singleton_append]
    by_cases hne : thread = []
    · subst hne
      exact upsertPackage_entry he cpus
    · rw [if_neg (by simpa using hne)]
      exact upsertThread_entry he hne cpus
  | none =>
    rw [targetScan_absent h.items (Book.find_eq_none.mp hf)]
    simp only [Book.upsert, hf, Book.text_append, Book.text_cons, Book.text_nil, List.append_nil]
    have hbare : bareOpenLine pkg = pkg ++ [' ', '{'] := if_neg hp.plain.noEq
    by_cases hne : thread = []
    · subst hne
      simp [upsertPackage, Body.fresh, Item.text, Body.text, Body.header, Body.inner, SpecText.fresh, SpecText.text]
    · rw [if_neg (by simpa using hne)]
      simp [upsertThread, Target.locs, Body.fresh, hne, Item.text, Body.text, Body.header, Body.inner, hbare,
        threadLine, SpecText.fresh, SpecText.text]

end AppOptR
