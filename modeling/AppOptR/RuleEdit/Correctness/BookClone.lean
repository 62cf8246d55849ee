import AppOptR.RuleEdit.Correctness.BookRemove

/-!
# `RuleEdit.Correctness.BookClone` — `rule_clone` on a book

`clone_prepare` reads the specs of the source back from its lines, and `clone_append` puts a new entry behind an
empty line at the end of the file (`cloneLines_book`).
-/

namespace AppOptR

open Text

variable {topo : CpuTopology} {b pre post : Book} {pkg source target : Str} {body : Body} {s : SpecText}
  {copyPackage copyThreads : Bool} {ls left right : List Str}

/-! ## The specs of the source -/

theorem clonePackageSpec_entry (h : Entry topo pre post pkg body) :
    clonePackageSpec (Book.text (pre ++ .entry pkg body :: post)) (body.target pre.text.length)
      = body.pkgSpec.map (·.cpus) := by
  have hget : (Book.text (pre ++ .entry pkg body :: post)).getD pre.text.length [] = body.header pkg := by
    rw [entry_lines, getD_after]
  cases body with
  | line s =>
    obtain ⟨_, houter⟩ := line_outer h.title (h.body.spec s rfl)
    simp only [clonePackageSpec, Body.target]
    rw [hget, Body.header, houter]
    rfl
  | block so threads =>
    cases so with
    | none => rfl
    | some s =>
      obtain ⟨_, houter⟩ := open_outer h.title (h.body.spec s rfl)
      simp only [clonePackageSpec, Body.target, Option.isSome_some, if_true]
      rw [hget, Body.header, houter]
      rfl

/-- The specs of the threads, read from their lines. -/
theorem cloneThreads_block (left right : List Str) {threads : List (Str × SpecText)}
    (h : ∀ t ∈ threads, Title maxThreadLen t.1 ∧ t.2.Ok topo) :
    ((threadLocs left.length threads).filterMap fun e =>
        (cloneThreadSpec (left ++ (threads.map threadLine ++ right)) e.2).map fun cpus => (e.1, cpus))
      = threads.map fun t => (t.1, t.2.cpus) := by
  induction threads generalizing left with
  | nil => rfl
  | cons t threads ih =>
    obtain ⟨⟨ht, hs⟩, hrest⟩ := List.forall_mem_cons.mp h
    obtain ⟨_, _, hrule⟩ := threadLine_rule ht hs
    have hlocs : threadLocs left.length (t :: threads)
        = (t.1, ⟨left.length, false, false, false⟩) :: threadLocs (left ++ [threadLine t]).length threads := by
      simp [threadLocs, List.zipIdx_cons]
    have htext : left ++ ((t :: threads).map threadLine ++ right)
        = (left ++ [threadLine t]) ++ (threads.map threadLine ++ right) := by simp
    have hget : (left ++ ((t :: threads).map threadLine ++ right)).getD left.length [] = threadLine t :=
      getD_after _
    have hspec : cloneThreadSpec (left ++ ((t :: threads).map threadLine ++ right)) ⟨left.length, false, false, false⟩
        = some t.2.cpus := by
      simp only [cloneThreadSpec, Bool.false_eq_true, if_false]
      rw [hget, hrule]
      rfl
    rw [hlocs, List.filterMap_cons, hspec]
    rw [htext]
    simp only [Option.map_some, List.map_cons]
    rw [ih _ hrest]

theorem cloneThreads_entry (h : Entry topo pre post pkg body) :
    ((body.target pre.text.length).threads.filterMap fun e =>
        (cloneThreadSpec (Book.text (pre ++ .entry pkg body :: post)) e.2).map fun cpus => (e.1, cpus))
      = body.threadSpecs.map fun t => (t.1, t.2.cpus) := by
  cases body with
  | line s => rfl
  | block so threads =>
    have htext : Book.text (pre ++ .entry pkg (.block so threads) :: post)
        = (pre.text ++ [(Body.block so threads).header pkg]) ++ (threads.map threadLine ++ (['}'] :: post.text)) := by
      rw [entry_lines]
      simp [Body.inner]
    have hlen : (pre.text ++ [(Body.block so threads).header pkg]).length = pre.text.length + 1 := by simp
    have hthreads := cloneThreads_block (pre.text ++ [(Body.block so threads).header pkg]) (['}'] :: post.text)
      h.body.inside
    rw [hlen] at hthreads
    rw [htext]
    exact hthreads

/-! ## The end of the file -/

/-- The last line of an item is blank when the item is a gap. -/
theorem lastLine_blank {it : Item} (h : it.Ok topo) :
    it.text ≠ [] ∧ (trim (it.text.getLastD []) = [] ↔ it = .gap) := by
  cases it with
  | gap => exact ⟨by simp [Item.text], by simp [Item.text]⟩
  | entry pkg body =>
    obtain ⟨hp, hb⟩ := h
    refine ⟨by simp [Item.text, Body.text], ?_⟩
    simp only [reduceCtorEq, iff_false]
    cases body with
    | line s =>
      have htrim := trim_header hp hb
      simp only [Item.text, Body.text, Body.inner, List.getLastD_cons, List.getLastD_nil]
      rw [htrim]
      simp [Body.renamed, Body.header, hp.name.ne]
    | block so threads =>
      have hlast : (Item.entry pkg (.block so threads)).text.getLastD [] = ['}'] := by
        simp only [Item.text, Body.text, Body.inner]
        rw [← List.cons_append, List.getLastD_concat]
      rw [hlast]
      decide

theorem gap_iff (h : ∀ it ∈ b, it.Ok topo) :
    (b.text ≠ [] ∧ trim (b.text.getLastD []) ≠ []) ↔ b.endsBlank = false := by
  induction b using List.reverseRecOn with
  | nil => simp [Book.endsBlank]
  | append_singleton b it _ =>
    have hit : it.Ok topo := h it (by simp)
    obtain ⟨hne, hblank⟩ := lastLine_blank hit
    have htext : Book.text (b ++ [it]) = Book.text b ++ it.text := by simp [Book.text_append, Book.text_cons]
    have hlast : (Book.text (b ++ [it])).getLastD [] = it.text.getLastD [] := by
      rw [htext, List.getLastD_eq_getLast?, List.getLast?_append_of_ne_nil _ hne, List.getLastD_eq_getLast?]
    rw [hlast, Ne, Ne, hblank]
    simp [Book.endsBlank, htext, hne]

/-! ## The edit -/

/-- **What `clone_append` writes** is one more entry, behind an empty line. -/
theorem cloneAppend_book (h : ∀ it ∈ b, it.Ok topo) (ht : Title maxPkgLen target) {rules : CloneRules}
    (hbody : match body with
      | .line s => rules = ⟨some s.cpus, []⟩ ∧ s.pad = []
      | .block so threads => threads ≠ [] ∧ (∀ s ∈ so, s.pad = []) ∧ (∀ t ∈ threads, t.2.pad = []) ∧
          rules = ⟨so.map (·.cpus), threads.map fun t => (t.1, t.2.cpus)⟩) :
    cloneAppend b.text target rules
      = Book.text (b ++ (if b.endsBlank then [] else [.gap]) ++ [.entry target body]) := by
  have hgap : (if b.text ≠ [] ∧ trim (b.text.getLastD []) ≠ [] then [([] : Str)] else [])
      = Book.text (if b.endsBlank then [] else [.gap]) := by
    by_cases hb : b.endsBlank = true
    · rw [if_pos hb, if_neg (by rw [gap_iff h, hb]; simp)]
      rfl
    · rw [if_neg hb, if_pos (by rw [gap_iff h]; simpa using hb)]
      rfl
  have hentry : Book.text [.entry target body] = body.header target :: body.inner := by
    rw [Book.text_cons, Book.text_nil, List.append_nil]
    rfl
  unfold cloneAppend
  rw [hgap, Book.text_append, Book.text_append, hentry]
  cases body with
  | line s =>
    obtain ⟨rfl, hpad⟩ := hbody
    simp [Body.header, Body.inner, SpecText.text, hpad]
  | block so threads =>
    obtain ⟨hne, hso, hthreads, rfl⟩ := hbody
    have hlines : threads.map threadLine = threads.map fun t => '\t' :: t.1 ++ '=' :: t.2.cpus := by
      refine List.map_congr_left fun t hmem => ?_
      simp [threadLine, SpecText.text, hthreads t hmem]
    cases so with
    | none => simp [hne, Body.header, Body.inner, bareOpenLine_title ht, hlines, Function.comp_def]
    | some s => simp [hne, Body.header, Body.inner, SpecText.text, hso s rfl, hlines, Function.comp_def]

/-- **`rule_clone` on a book.** -/
theorem cloneLines_book (h : b.Ok topo) (ht : Title maxPkgLen target) (hcopy : (copyPackage || copyThreads) = true) :
    cloneLines source target copyPackage copyThreads b.text
      = (b.clone source target copyPackage copyThreads).map Book.text := by
  have hscan : ∀ q, targetScan b.text q = {} ∧ b.find q = none ∨ (targetScan b.text q).unterminated = false ∧
      (targetScan b.text q).anyLine = true ∧ (b.find q).isSome = true := by
    intro q
    cases hf : b.find q with
    | none => exact .inl ⟨targetScan_absent h.items (Book.find_eq_none.mp hf), rfl⟩
    | some body =>
      obtain ⟨pre, post, rfl, he⟩ := h.entry hf
      rw [targetScan_entry he]
      right
      cases body <;> exact ⟨rfl, rfl, rfl⟩
  have hterm : ∀ q, (targetScan b.text q).unterminated = false := by
    intro q
    rcases hscan q with ⟨hq, _⟩ | ⟨hq, _⟩
    · rw [hq]
    · exact hq
  unfold cloneLines clonePrepare Book.clone
  simp only [normalizeSingles_book h, hterm, Bool.or_self, Bool.false_eq_true, if_false]
  rcases hscan target with ⟨hq, hfind⟩ | ⟨_, hq, hfind⟩
  · have hany : (targetScan b.text target).anyLine = false := by rw [hq]; rfl
    rw [hany, hfind]
    simp only [Bool.false_eq_true, if_false, Option.isSome_none]
    cases hf : b.find source with
    | none =>
      rw [targetScan_absent h.items (Book.find_eq_none.mp hf)]
      cases copyPackage <;> simp_all [clonePackageSpec, Except.map]
    | some body =>
      obtain ⟨pre, post, rfl, he⟩ := h.entry hf
      rw [targetScan_entry he, clonePackageSpec_entry he, cloneThreads_entry he]
      have happend := fun body' rules => @cloneAppend_book topo _ target body' h.items ht rules
      have hfresh : (body.threadSpecs.map fun t => (t.1, SpecText.fresh t.2.cpus)).map (fun t => (t.1, t.2.cpus))
          = body.threadSpecs.map fun t => (t.1, t.2.cpus) := by simp [Function.comp_def, SpecText.fresh]
      have hpads : ∀ t ∈ body.threadSpecs.map fun t => (t.1, SpecText.fresh t.2.cpus), t.2.pad = [] := by
        intro t hmem
        obtain ⟨_, _, rfl⟩ := List.mem_map.mp hmem
        rfl
      simp only [Option.bind_some, Body.clone, List.isEmpty_map]
      by_cases hthreads : (copyThreads && body.threadSpecs.isEmpty) = true
      · -- there are no threads to copy, whatever becomes of the package's own spec
        simp only [hthreads, if_true]
        split <;> rfl
      · have hnonempty : copyThreads = true → body.threadSpecs ≠ [] := by
          rintro rfl
          simpa using hthreads
        simp only [hthreads, Bool.false_eq_true, if_false]
        cases hs : body.pkgSpec with
        | none =>
          cases copyPackage with
          | true => cases copyThreads <;> rfl
          | false =>
            obtain rfl : copyThreads = true := by simpa using hcopy
            simp only [Bool.false_and, Bool.false_eq_true, if_false, if_true, Except.map]
            rw [happend (.block none (body.threadSpecs.map fun t => (t.1, SpecText.fresh t.2.cpus)))]
            exact ⟨by simpa using hnonempty rfl, by simp, hpads, by rw [hfresh]; rfl⟩
        | some s =>
          cases copyThreads with
          | false =>
            obtain rfl : copyPackage = true := by simpa using hcopy
            simp only [Option.map_some, Option.isNone_some, Bool.and_false, Bool.false_eq_true, if_false, if_true,
              Except.map]
            rw [happend (.line (.fresh s.cpus))]
            exact ⟨rfl, rfl⟩
          | true =>
            cases copyPackage with
            | false =>
              simp only [Bool.false_and, Bool.false_eq_true, if_false, if_true, Except.map]
              rw [happend (.block none (body.threadSpecs.map fun t => (t.1, SpecText.fresh t.2.cpus)))]
              exact ⟨by simpa using hnonempty rfl, by simp, hpads, by rw [hfresh]; rfl⟩
            | true =>
              simp only [Option.map_some, Option.isNone_some, Bool.and_false, Bool.false_eq_true, if_false, if_true,
                Except.map]
              rw [happend (.block (some (.fresh s.cpus))
                (body.threadSpecs.map fun t => (t.1, SpecText.fresh t.2.cpus)))]
              exact ⟨by simpa using hnonempty rfl, by simp [SpecText.fresh], hpads, by rw [hfresh]; rfl⟩
  · rw [hq, hfind]
    rfl

end AppOptR
