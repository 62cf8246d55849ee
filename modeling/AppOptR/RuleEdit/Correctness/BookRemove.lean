import AppOptR.RuleEdit.Correctness.BookUpsert
import AppOptR.RuleEdit.Correctness.DeleteRounds

/-!
# `RuleEdit.Correctness.BookRemove` — the removals and `rule_rename` on a book

`rule_delete` takes a line out of an entry or the entry itself, `rule_delete_pkg` removes the lines of an entry
in its first round and finds nothing in its second, and `rule_rename` rewrites one header and finds nothing in
its second round. Two rounds are all a book ever needs (`deletePkgLines_book`, `renameLines_book`).
-/

namespace AppOptR

open Text

variable {topo : CpuTopology} {b pre post : Book} {pkg thread old new : Str} {body : Body} {s : SpecText}
  {max fuel : Nat} {left right seg : List Str}

/-! ## One rule -/

/-- The first header line of an entry, by its shape. -/
theorem bareOpenLine_title (hp : Title max pkg) : bareOpenLine pkg = pkg ++ [' ', '{'] := if_neg hp.plain.noEq

theorem filter_thread {before after : List (Str × SpecText)} (hb : thread ∉ before.map (·.1))
    (ha : thread ∉ after.map (·.1)) :
    (before ++ (thread, s) :: after).filter (fun t => t.1 ≠ thread) = before ++ after := by
  have hkeep : ∀ ts : List (Str × SpecText), thread ∉ ts.map (·.1) → ts.filter (fun t => t.1 ≠ thread) = ts := by
    intro ts hts
    refine List.filter_eq_self.mpr fun t ht => ?_
    have hne : t.1 ≠ thread := fun he => hts (he ▸ List.mem_map_of_mem ht)
    simpa using hne
  rw [List.filter_append, hkeep before hb, List.filter_cons_of_neg (by simp), hkeep after ha]

/-- **`rule_delete` on a book.** -/
theorem deleteLines_book (h : b.Ok topo) (pkg thread : Str) :
    deleteLines pkg thread b.text = (b.delete pkg thread).map Book.text := by
  unfold deleteLines
  simp only [normalizeSingles_book h]
  cases hf : b.find pkg with
  | none =>
    rw [targetScan_absent h.items (Book.find_eq_none.mp hf)]
    simp [Book.delete, hf, Target.locs, Except.map]
  | some body =>
    obtain ⟨pre, post, rfl, he⟩ := h.entry hf
    rw [targetScan_entry he]
    simp only [Book.delete, hf, Option.bind_some]
    cases body with
    | line s =>
      by_cases hne : thread = []
      · -- the entry is its header
        subst hne
        simp only [Body.delete, if_true, Body.target, List.isEmpty_nil, he.replace, Except.map]
        rw [entry_lines, eraseIdx_at, Book.text_append]
        rfl
      · simp [Body.delete, Body.target, Target.locs, hne, Except.map]
    | block so threads =>
      by_cases hne : thread = []
      · subst hne
        cases so with
        | none => simp [Body.delete, Body.target, Except.map]
        | some s =>
          simp only [Body.delete, if_true, Body.target, List.isEmpty_nil, he.replace, Except.map, Option.isSome_some]
          rw [entry_lines, set_at, bareOpenLine_title he.title]
          simp [entry_lines, Body.header, Body.inner]
      · by_cases hmem : thread ∈ threads.map (·.1)
        · obtain ⟨before, s, after, rfl, hb, ha⟩ := threads_split he.body.distinct hmem
          have hlocs : (Body.target pre.text.length (.block so (before ++ (thread, s) :: after))).locs thread
              = [⟨pre.text.length + 1 + before.length, false, false, false⟩] := threadLocs_present hb ha
          have hplace : pre.text.length + 1 + before.length
              = (pre.text ++ ((Body.block so (before ++ (thread, s) :: after)).header pkg ::
                  before.map threadLine)).length := by
            simp
            omega
          simp only [Body.delete, if_neg hne, List.contains_iff_mem, if_pos hmem, filter_thread hb ha, he.replace,
            Except.map]
          rw [hlocs]
          simp only [List.isEmpty_iff, hne, if_false, List.reverse_singleton, List.foldl_cons, List.foldl_nil,
            lineRemove, List.cons_ne_nil, Bool.false_eq_true]
          rw [hplace, block_lines, eraseIdx_at]
          simp [entry_lines, Body.inner, header_block so (before ++ (thread, s) :: after) (before ++ after)]
        · have hlocs : (Body.target pre.text.length (.block so threads)).locs thread = [] := threadLocs_absent hmem
          simp [Body.delete, hne, hmem, hlocs, Except.map]

/-! ## A whole package -/

theorem eraseRange_at : (List.range' left.length seg.length).reverse.foldl (fun ls i => ls.eraseIdx i)
    (left ++ (seg ++ right)) = left ++ right := by
  induction seg generalizing left with
  | nil => rfl
  | cons x seg ih =>
    have hleft : left.length + 1 = (left ++ [x]).length := by simp
    have htext : left ++ (x :: seg ++ right) = (left ++ [x]) ++ (seg ++ right) := by simp
    rw [List.length_cons, List.range'_succ, List.reverse_cons, List.foldl_append, hleft, htext, ih,
      List.foldl_cons, List.foldl_nil, List.append_assoc, List.singleton_append, eraseIdx_at]

/-- The first round removes the lines of the entry. -/
theorem deleteRound_entry (body : Body) (pkg : Str) (i : Nat) :
    deleteRound (body.target i) = List.range' i (body.text pkg).length := by
  refine (deleteRound_ascending _).eq_of_mem_iff (List.pairwise_lt_range' ..) fun j => ?_
  rw [mem_deleteRound, List.mem_range'_1]
  cases body with
  | line s =>
    simp only [Body.target, Body.text, Body.inner, Target.singles, PkgLine.idx, List.length_cons, List.length_nil]
    simp
    omega
  | block so threads =>
    have hheader : ∀ l, (Body.target i (.block so threads)).pkgLine = some l → l.idx = i := by
      intro l hl
      obtain rfl := Option.some.inj hl
      cases so <;> rfl
    have hlen : (Body.text pkg (.block so threads)).length = threads.length + 2 := by simp [Body.text, Body.inner]
    have hend : blockEnd (Body.target i (.block so threads)) i = i + 1 + threads.length := rfl
    rw [singles_entry, hlen]
    constructor
    · rintro (⟨l, hl, rfl⟩ | ⟨o, ho, hlo, hhi⟩ | ⟨loc, hloc, _⟩)
      · rw [hheader l hl]
        omega
      · obtain rfl := Option.some.inj ho
        rw [hend] at hhi
        omega
      · cases hloc
    · intro hj
      exact .inr (.inl ⟨i, rfl, hj.1, by rw [hend]; omega⟩)

/-- **`rule_delete_pkg` on a book**: one round, and a second one that finds nothing. -/
theorem deletePkgLines_book (h : b.Ok topo) (pkg : Str) (hfuel : 2 ≤ fuel) :
    deletePkgLines fuel pkg b.text = some ((b.deletePkg pkg).map Book.text) := by
  obtain ⟨fuel, rfl⟩ : ∃ f, fuel = f + 2 := ⟨fuel - 2, by omega⟩
  unfold deletePkgLines
  rw [normalizeSingles_book h]
  cases hf : b.find pkg with
  | none =>
    rw [deletePkgLoop, targetScan_absent h.items (Book.find_eq_none.mp hf)]
    simp [Target.anyLine, Target.singles, Book.deletePkg, hf, Except.map]
  | some body =>
    obtain ⟨pre, post, rfl, he⟩ := h.entry hf
    have hrest : ∀ it ∈ pre ++ post, it.Ok topo := by
      intro it hit
      rcases List.mem_append.mp hit with hit | hit
      · exact he.left it hit
      · exact he.right it hit
    have habsent : pkg ∉ Book.pkgs (pre ++ post) := by
      rw [Book.pkgs_append, List.mem_append, not_or]
      exact ⟨he.before, he.after⟩
    have hany : (body.target pre.text.length).anyLine = true := by cases body <;> rfl
    rw [deletePkgLoop, targetScan_entry he, hany, deleteRound_entry body pkg, entry_text, eraseRange_at,
      ← Book.text_append, deletePkgLoop, targetScan_absent hrest habsent]
    simp [Target.anyLine, Target.singles, Book.deletePkg, hf, he.replace, Except.map]

/-! ## Renaming -/

theorem trim_header (hp : Title max pkg) (hb : body.Ok topo) : trim (body.header pkg) = body.renamed.header pkg := by
  have hhead : ∀ r, HeadSolid (pkg ++ r) := fun r => hp.name.head.append hp.name.ne r
  have hbrace : LastSolid ['{'] := by simp [LastSolid, isWhitespace]
  cases body with
  | line s =>
    have hline : HeadSolid ((Body.line s).header pkg) := hhead _
    rw [hline.trim_eq, trimEnd_line (hb.spec s rfl)]
    simp [Body.renamed, Body.header, SpecText.fresh, SpecText.text]
  | block so threads =>
    cases so with
    | none =>
      have := hbrace.append (by simp) (pkg ++ [' '])
      exact trim_of_solid (hhead _) (by simpa [Body.header] using this)
    | some s =>
      have := hbrace.append (by simp) (pkg ++ '=' :: (s.text ++ [' ']))
      exact trim_of_solid (hhead _) (by simpa [Body.header] using this)

/-- What stands behind the name does not depend on it. -/
theorem header_name (body : Body) : ∃ rest, ∀ pkg, body.header pkg = pkg ++ rest := by
  cases body with
  | line s => exact ⟨_, fun _ => rfl⟩
  | block so threads => cases so <;> exact ⟨_, fun _ => rfl⟩

theorem renameLine_header (hp : Title max old) (hn : Title max new) (hb : body.Ok topo) :
    renameLine old new (body.header old) = body.renamed.header new := by
  obtain ⟨rest, hrest⟩ := header_name body.renamed
  have hstrip : stripPrefix old (old ++ rest) = some rest := by
    rw [stripPrefix, if_pos (List.isPrefixOf_iff_prefix.mpr (List.prefix_append _ _)), List.drop_left]
  unfold renameLine
  rw [trim_header hp hb, hrest old, hstrip, hrest new]
  simp only [if_neg hn.plain.noEq]

theorem Body.inner_renamed (body : Body) : body.renamed.inner = body.inner := by cases body <;> rfl

theorem Body.Ok.renamed (h : body.Ok topo) : body.renamed.Ok topo := by
  cases body with
  | block so threads => exact h
  | line s =>
    refine ⟨fun s' hs' => ?_, by simp [Body.renamed, Body.threadSpecs], by simp [Body.renamed, Body.threadSpecs]⟩
    obtain rfl := Option.some.inj hs'
    exact ⟨(h.spec s rfl).spec, blank_nil, by simp [SpecText.fresh]⟩

/-- **`rule_rename` on a book**: one header rewritten, and a second round that finds nothing. -/
theorem renameLines_book (h : b.Ok topo) (hn : Title maxPkgLen new) (hfuel : 2 ≤ fuel) :
    renameLines fuel old new b.text = some ((b.rename old new).map Book.text) := by
  obtain ⟨fuel, rfl⟩ : ∃ f, fuel = f + 2 := ⟨fuel - 2, by omega⟩
  have hnone : ({} : Target).anyLine = false := rfl
  unfold renameLines
  simp only [normalizeSingles_book h]
  cases hf : b.find old with
  | none =>
    rw [targetScan_absent h.items (Book.find_eq_none.mp hf)]
    simp [hnone, Book.rename, hf, Except.map]
  | some body =>
    cases hfn : b.find new with
    | some other =>
      have hany : ∀ {pkg : Str} {body : Body}, b.find pkg = some body → (targetScan b.text pkg).anyLine = true := by
        intro pkg body hfind
        obtain ⟨pre, post, rfl, he⟩ := h.entry hfind
        rw [targetScan_entry he]
        cases body <;> rfl
      simp [hany hf, hany hfn, Book.rename, hf, hfn, Except.map]
    | none =>
      have hnew := Book.find_eq_none.mp hfn
      rw [targetScan_absent h.items hnew]
      obtain ⟨pre, post, rfl, he⟩ := h.entry hf
      have hany : (body.target pre.text.length).anyLine = true := by cases body <;> rfl
      have hround : renameRound (body.target pre.text.length) = [pre.text.length] := by
        rw [renameRound, singles_entry]
        cases body with
        | line s => rfl
        | block so threads => cases so <;> rfl
      -- the renamed book states nothing of the old name
      have hok : ∀ it ∈ pre ++ .entry new body.renamed :: post, it.Ok topo := by
        intro it hit
        rcases List.mem_append.mp hit with hit | hit
        · exact he.left it hit
        · rcases List.mem_cons.mp hit with rfl | hit
          · exact ⟨hn, he.body.renamed⟩
          · exact he.right it hit
      have hgone : old ∉ Book.pkgs (pre ++ .entry new body.renamed :: post) := by
        rw [Book.pkgs_append, Book.pkgs_cons_entry, List.mem_append, List.mem_cons, not_or, not_or]
        refine ⟨he.before, fun heq => hnew ?_, he.after⟩
        rw [← heq, Book.pkgs_append]
        simp
      have htext : ([pre.text.length].foldl (fun ls i => ls.set i (renameLine old new (ls.getD i [])))
          (Book.text (pre ++ .entry old body :: post))) = Book.text (pre ++ .entry new body.renamed :: post) := by
        rw [List.foldl_cons, List.foldl_nil, entry_lines, getD_after, set_at,
          renameLine_header he.title hn he.body, entry_lines, Body.inner_renamed]
      simp only [targetScan_entry he, hany, hnone, Bool.not_true, Bool.false_eq_true, if_false, renameLoop, hround]
      rw [htext, targetScan_absent hok hgone]
      simp [renameRound, Target.singles, Book.rename, hf, hfn, he.replace, Except.map]

end AppOptR
