import AppOptR.RuleEdit.Correctness.BookClone
import AppOptR.RuleEdit.Correctness.BookLoad

/-!
# `RuleEdit.Correctness.BookRun` — every run of the editor is a run on a book

One operation on the text of a book is the same operation on the book (`edit_book`), the book stays in order
(`Book.Ok.edit`), and what is written is read back (`lines_written`). Over a run, with any writes failing, the
file reads as the book the operations lead to, and every result is the book's (`editRun_book`).
-/

namespace AppOptR

open Text

variable {topo : CpuTopology} {b b' pre post : Book} {pkg thread cpus l : Str} {body body' : Body} {s : SpecText}
  {max fuel : Nat} {call : EditCall}

/-! ## One operation -/

/-- **An operation on the lines is the operation on the book.** -/
theorem edit_book (h : b.Ok topo) (ha : call.Admitted topo) (hfuel : 2 ≤ fuel) :
    call.edit fuel b.text = some ((b.edit call).map Book.text) := by
  cases call with
  | upsert pkg thread cpus => exact congrArg some (upsertLines_book h ha.1)
  | delete pkg thread => exact congrArg some (deleteLines_book h pkg thread)
  | deletePkg pkg => exact deletePkgLines_book h pkg hfuel
  | rename old new => exact renameLines_book h ha hfuel
  | clone source target copyPackage copyThreads => exact congrArg some (cloneLines_book h ha.1 ha.2)

/-- The refusals of a book. -/
theorem Book.edit_error {e : RuleEdit} (h : b.edit call = .error e) : e = .notFound ∨ e = .conflict := by
  cases call with
  | upsert pkg thread cpus => cases h
  | delete pkg thread =>
    simp only [Book.edit, Book.delete] at h
    split at h
    · cases h
    · exact .inl (Except.error.inj h).symm
  | deletePkg pkg =>
    simp only [Book.edit, Book.deletePkg] at h
    split at h
    · cases h
    · exact .inl (Except.error.inj h).symm
  | rename old new =>
    simp only [Book.edit, Book.rename] at h
    split at h
    · exact .inl (Except.error.inj h).symm
    · exact .inr (Except.error.inj h).symm
    · cases h
  | clone source target copyPackage copyThreads =>
    simp only [Book.edit, Book.clone] at h
    split at h
    · exact .inr (Except.error.inj h).symm
    · split at h
      · cases h
      · exact .inl (Except.error.inj h).symm

/-! ## The book stays in order -/

theorem SpecText.Ok.fresh (h : Printable topo cpus) : (SpecText.fresh cpus).Ok topo :=
  ⟨h, blank_nil, by simp [SpecText.fresh]⟩

theorem SpecText.Ok.swap (h : s.Ok topo) (hc : Printable topo cpus) : (s.swap cpus).Ok topo := by
  have hmem : ∀ c ∈ (s.cpus.dropWhile fun c => !valueEnd c).filter valueEnd, c ∈ s.cpus ∧ valueEnd c = true := by
    intro c hc
    obtain ⟨hc, hv⟩ := List.mem_filter.mp hc
    exact ⟨(List.dropWhile_sublist _).subset hc, hv⟩
  refine ⟨hc, fun c hc => ?_, fun c hc => ?_⟩
  · -- a spec has no braces, so that what ends a word in it is a blank
    rcases List.mem_append.mp hc with hc | hc
    · obtain ⟨hin, hv⟩ := hmem c hc
      have hmark := h.spec.unmarked c hin
      simp only [valueEnd, Bool.or_eq_true, decide_eq_true_eq] at hv
      rcases hv with (hv | rfl) | rfl
      · exact hv
      · exact absurd (by simp [marks]) hmark
      · exact absurd (by simp [marks]) hmark
    · exact h.blank c hc
  · rcases List.mem_append.mp hc with hc | hc
    · exact h.spec.clean c (hmem c hc).1
    · exact h.clean c hc

theorem mem_setThread {threads : List (Str × SpecText)} {t : Str × SpecText} (h : t ∈ setThread thread cpus threads) :
    t ∈ threads ∨ t.1 = thread ∧ (t.2 = .fresh cpus ∨ ∃ s, (thread, s) ∈ threads ∧ t.2 = s.swap cpus) := by
  induction threads with
  | nil =>
    obtain rfl := List.mem_singleton.mp h
    exact .inr ⟨rfl, .inl rfl⟩
  | cons t' threads ih =>
    unfold setThread at h
    split at h
    · next heq =>
      rcases List.mem_cons.mp h with rfl | h
      · exact .inr ⟨heq, .inr ⟨t'.2, by rw [← heq]; simp, rfl⟩⟩
      · exact .inl (by simp [h])
    · rcases List.mem_cons.mp h with rfl | h
      · exact .inl (by simp)
      · rcases ih h with h | ⟨h1, h2 | ⟨s, hs, h2⟩⟩
        · exact .inl (by simp [h])
        · exact .inr ⟨h1, .inl h2⟩
        · exact .inr ⟨h1, .inr ⟨s, by simp [hs], h2⟩⟩

theorem keys_setThread (threads : List (Str × SpecText)) (thread cpus : Str) :
    (setThread thread cpus threads).map (·.1)
      = if thread ∈ threads.map (·.1) then threads.map (·.1) else threads.map (·.1) ++ [thread] := by
  induction threads with
  | nil => simp [setThread, SpecText.fresh]
  | cons t threads ih =>
    unfold setThread
    by_cases heq : t.1 = thread
    · simp [heq]
    · have hne : ¬ thread = t.1 := fun h => heq h.symm
      rw [if_neg heq, List.map_cons, ih]
      by_cases hmem : thread ∈ threads.map (·.1)
      · simp [hmem]
      · simp [hmem, hne]

theorem Body.Ok.upsert (h : body.Ok topo) (ht : thread ≠ [] → Title maxThreadLen thread) (hc : Printable topo cpus) :
    (body.upsert thread cpus).Ok topo := by
  cases body with
  | line s =>
    have hs : s.Ok topo := h.spec s rfl
    by_cases hne : thread = []
    · rw [Body.upsert, if_pos hne]
      refine ⟨fun s' hs' => ?_, by simp [Body.threadSpecs], by simp [Body.threadSpecs]⟩
      obtain rfl := Option.some.inj hs'
      exact hs.swap hc
    · rw [Body.upsert, if_neg hne]
      refine ⟨fun s' hs' => ?_, ?_, by simp [Body.threadSpecs]⟩
      · obtain rfl := Option.some.inj hs'
        exact .fresh hs.spec
      · intro t hmem
        obtain rfl := List.mem_singleton.mp hmem
        exact ⟨ht hne, .fresh hc⟩
  | block so threads =>
    by_cases hne : thread = []
    · rw [Body.upsert, if_pos hne]
      refine ⟨fun s' hs' => ?_, h.threads, h.distinct⟩
      obtain rfl := Option.some.inj hs'
      cases so with
      | none => exact .fresh hc
      | some s => exact (h.spec s rfl).swap hc
    · rw [Body.upsert, if_neg hne]
      refine ⟨h.spec, fun t hmem => ?_, ?_⟩
      · rcases mem_setThread hmem with hmem | ⟨h1, h2 | ⟨s, hs, h2⟩⟩
        · exact h.threads t hmem
        · rw [h1, h2]
          exact ⟨ht hne, .fresh hc⟩
        · rw [h1, h2]
          exact ⟨ht hne, (h.threads _ hs).2.swap hc⟩
      · have hd : (threads.map (·.1)).Nodup := h.distinct
        show ((setThread thread cpus threads).map (·.1)).Nodup
        rw [keys_setThread]
        split
        · exact hd
        · next hmem =>
          refine List.nodup_append.mpr ⟨hd, List.nodup_singleton _, fun t htm u hu heq => hmem ?_⟩
          rwa [← List.mem_singleton.mp hu, ← heq]

theorem Body.Ok.fresh (ht : thread ≠ [] → Title maxThreadLen thread) (hc : Printable topo cpus) :
    (Body.fresh thread cpus).Ok topo := by
  unfold Body.fresh
  split
  · refine ⟨fun s' hs' => ?_, by simp [Body.threadSpecs], by simp [Body.threadSpecs]⟩
    obtain rfl := Option.some.inj hs'
    exact .fresh hc
  · next hne =>
    refine ⟨by simp [Body.pkgSpec], fun t hmem => ?_, by simp [Body.threadSpecs]⟩
    obtain rfl := List.mem_singleton.mp hmem
    exact ⟨ht hne, .fresh hc⟩

theorem Body.Ok.delete (h : body.Ok topo) (hd : body.delete thread = some (some body')) : body'.Ok topo := by
  cases body with
  | line s => simp [Body.delete] at hd
  | block so threads =>
    simp only [Body.delete] at hd
    split at hd
    · split at hd
      · obtain rfl := Option.some.inj (Option.some.inj hd)
        exact ⟨by simp [Body.pkgSpec], h.threads, h.distinct⟩
      · cases hd
    · split at hd
      · obtain rfl := Option.some.inj (Option.some.inj hd)
        refine ⟨h.spec, fun t hmem => h.threads t (List.mem_of_mem_filter hmem), ?_⟩
        exact h.distinct.sublist (List.filter_sublist.map _)
      · cases hd

theorem Body.Ok.clone (h : body.Ok topo) {copyPackage copyThreads : Bool}
    (hc : body.clone copyPackage copyThreads = some body') : body'.Ok topo := by
  have hthreads : ∀ t ∈ body.threadSpecs.map fun t => (t.1, SpecText.fresh t.2.cpus),
      Title maxThreadLen t.1 ∧ t.2.Ok topo := by
    intro t hmem
    obtain ⟨t', ht', rfl⟩ := List.mem_map.mp hmem
    obtain ⟨htitle, hs⟩ := h.threads t' ht'
    exact ⟨htitle, .fresh hs.spec⟩
  have hdistinct : ((body.threadSpecs.map fun t => (t.1, SpecText.fresh t.2.cpus)).map (·.1)).Nodup := by
    rw [List.map_map]
    exact h.distinct
  have hspec : ∀ s ∈ body.pkgSpec, ∀ s' ∈ some (SpecText.fresh s.cpus), SpecText.Ok topo s' := by
    intro s hs s' hs'
    obtain rfl := Option.some.inj hs'
    exact .fresh (h.spec s hs).spec
  unfold Body.clone at hc
  dsimp only at hc
  split at hc
  · cases hc
  split at hc
  · split at hc
    · obtain ⟨s, hs, rfl⟩ := Option.map_eq_some_iff.mp hc
      exact ⟨hspec s hs, hthreads, hdistinct⟩
    · obtain rfl := Option.some.inj hc
      exact ⟨by simp [Body.pkgSpec], hthreads, hdistinct⟩
  · obtain ⟨s, hs, rfl⟩ := Option.map_eq_some_iff.mp hc
    exact ⟨hspec s hs, by simp [Body.threadSpecs], by simp [Body.threadSpecs]⟩

/-- Other items in place of an entry. -/
theorem Book.Ok.put (h : Book.Ok topo (pre ++ .entry pkg body :: post)) {items : Book}
    (hitems : ∀ it ∈ items, it.Ok topo) (hd : items.pkgs.Nodup)
    (hp : ∀ p ∈ items.pkgs, p = pkg ∨ p ∉ Book.pkgs (pre ++ .entry pkg body :: post)) :
    Book.Ok topo (pre ++ (items ++ post)) := by
  obtain ⟨hok, hdist⟩ := h
  refine ⟨fun it hit => ?_, ?_⟩
  · simp only [List.mem_append] at hit
    rcases hit with hit | hit | hit
    · exact hok it (by simp [hit])
    · exact hitems it hit
    · exact hok it (by simp [hit])
  · rw [Book.pkgs_append, Book.pkgs_cons_entry] at hdist hp
    rw [Book.pkgs_append, Book.pkgs_append]
    simp only [List.nodup_append, List.nodup_cons, List.mem_append, List.mem_cons] at hdist hp ⊢
    grind

theorem Book.Ok.append (h : b.Ok topo) {items : Book} (hitems : ∀ it ∈ items, it.Ok topo) (hd : items.pkgs.Nodup)
    (hp : ∀ p ∈ items.pkgs, p ∉ b.pkgs) : Book.Ok topo (b ++ items) := by
  refine ⟨fun it hit => ?_, ?_⟩
  · rcases List.mem_append.mp hit with hit | hit
    · exact h.items it hit
    · exact hitems it hit
  · rw [Book.pkgs_append]
    exact List.nodup_append.mpr ⟨h.distinct, hd, fun p hpb q hq heq => hp q hq (heq ▸ hpb)⟩

/-- **The book stays in order**, whatever an admitted operation does to it. -/
theorem Book.Ok.edit (h : b.Ok topo) (ha : call.Admitted topo) (he : b.edit call = .ok b') : b'.Ok topo := by
  cases call with
  | upsert pkg thread cpus =>
    obtain ⟨hp, ht, hc⟩ := ha
    obtain rfl := Except.ok.inj he
    unfold Book.upsert
    cases hf : b.find pkg with
    | none =>
      show Book.Ok topo (b ++ [.entry pkg (.fresh thread cpus)])
      refine h.append ?_ (by simp [Book.pkgs, Item.pkg?]) ?_
      · simpa using ⟨hp, Body.Ok.fresh ht hc⟩
      · simpa [Book.pkgs, Item.pkg?] using Book.find_eq_none.mp hf
    | some body =>
      obtain ⟨pre, post, rfl, hent⟩ := h.entry hf
      dsimp only
      rw [hent.replace]
      refine h.put ?_ (by simp [Book.pkgs, Item.pkg?]) (by simp [Book.pkgs, Item.pkg?])
      simpa using ⟨hent.title, hent.body.upsert ht hc⟩
  | delete pkg thread =>
    simp only [Book.edit, Book.delete] at he
    cases hf : b.find pkg with
    | none =>
      rw [hf] at he
      cases he
    | some body =>
      obtain ⟨pre, post, rfl, hent⟩ := h.entry hf
      rw [hf, Option.bind_some] at he
      cases hd : body.delete thread with
      | none =>
        rw [hd] at he
        cases he
      | some left =>
        rw [hd] at he
        obtain rfl := Except.ok.inj he
        rw [hent.replace]
        cases left with
        | none => exact h.put (by simp) (by simp [Book.pkgs]) (by simp [Book.pkgs])
        | some body' =>
          refine h.put ?_ (by simp [Book.pkgs, Item.pkg?]) (by simp [Book.pkgs, Item.pkg?])
          simpa using ⟨hent.title, hent.body.delete hd⟩
  | deletePkg pkg =>
    simp only [Book.edit, Book.deletePkg] at he
    cases hf : b.find pkg with
    | none =>
      rw [hf] at he
      cases he
    | some body =>
      obtain ⟨pre, post, rfl, hent⟩ := h.entry hf
      rw [hf] at he
      obtain rfl := Except.ok.inj he
      rw [hent.replace]
      exact h.put (by simp) (by simp [Book.pkgs]) (by simp [Book.pkgs])
  | rename old new =>
    simp only [Book.edit, Book.rename] at he
    cases hf : b.find old with
    | none =>
      rw [hf] at he
      cases he
    | some body =>
      cases hfn : b.find new with
      | some other =>
        rw [hf, hfn] at he
        cases he
      | none =>
        have hnew := Book.find_eq_none.mp hfn
        obtain ⟨pre, post, rfl, hent⟩ := h.entry hf
        rw [hf, hfn] at he
        obtain rfl := Except.ok.inj he
        rw [hent.replace]
        refine h.put ?_ (by simp [Book.pkgs, Item.pkg?]) fun p hp => .inr ?_
        · simpa using ⟨ha, hent.body.renamed⟩
        · have hpn : p = new := by simpa [Book.pkgs, Item.pkg?] using hp
          rwa [hpn]
  | clone source target copyPackage copyThreads =>
    simp only [Book.edit, Book.clone] at he
    split at he
    · cases he
    next htarget =>
    cases hf : b.find source with
    | none =>
      rw [hf] at he
      cases he
    | some body =>
      obtain ⟨pre, post, hb, hent⟩ := h.entry hf
      rw [hf, Option.bind_some] at he
      cases hc : body.clone copyPackage copyThreads with
      | none =>
        rw [hc] at he
        cases he
      | some body' =>
        rw [hc] at he
        obtain rfl := Except.ok.inj he
        have hitems : ∀ it ∈ (if b.endsBlank then [] else [.gap]) ++ [Item.entry target body'], it.Ok topo := by
          intro it hit
          rcases List.mem_append.mp hit with hit | hit
          · split at hit
            · cases hit
            · obtain rfl := List.mem_singleton.mp hit
              trivial
          · obtain rfl := List.mem_singleton.mp hit
            exact ⟨ha.1, hent.body.clone hc⟩
        have hpkgs : Book.pkgs ((if b.endsBlank then [] else [.gap]) ++ [Item.entry target body']) = [target] := by
          rw [Book.pkgs_append]
          split <;> rfl
        rw [List.append_assoc]
        refine h.append hitems (by rw [hpkgs]; simp) fun p hp => ?_
        rw [hpkgs, List.mem_singleton] at hp
        rw [hp]
        exact Book.find_eq_none.mp (by simpa using htarget)

/-! ## Written and read back -/

theorem SpecText.Ok.text_clean (h : s.Ok topo) : ∀ c ∈ s.text, isControl c = false := by
  intro c hc
  rcases List.mem_append.mp hc with hc | hc
  · exact h.spec.clean c hc
  · exact h.clean c hc

theorem pair_clean (hp : Title max pkg) (hs : s.Ok topo) : ∀ c ∈ pkg ++ '=' :: s.text, isControl c = false := by
  intro c hc
  rcases List.mem_append.mp hc with hc | hc
  · exact hp.name.clean c hc
  · rcases List.mem_cons.mp hc with rfl | hc
    · decide
    · exact hs.text_clean c hc

theorem header_clean (hp : Title max pkg) (hb : body.Ok topo) : ∀ c ∈ body.header pkg, isControl c = false := by
  cases body with
  | line s => exact pair_clean hp (hb.spec s rfl)
  | block so threads =>
    have hopen : ∀ c ∈ [' ', '{'], isControl c = false := by
      intro c hc
      fin_cases hc <;> rfl
    cases so with
    | none =>
      intro c hc
      rcases List.mem_append.mp hc with hc | hc
      · exact hp.name.clean c hc
      · exact hopen c hc
    | some s =>
      intro c hc
      have hsplit : (Body.block (some s) threads).header pkg = (pkg ++ '=' :: s.text) ++ [' ', '{'] := by
        simp [Body.header]
      rw [hsplit] at hc
      rcases List.mem_append.mp hc with hc | hc
      · exact pair_clean hp (hb.spec s rfl) c hc
      · exact hopen c hc

/-- No line of a book ends early, and none loses a carriage return. -/
theorem line_clean (h : ∀ it ∈ b, it.Ok topo) (hl : l ∈ b.text) : '\n' ∉ l ∧ '\r' ∉ l := by
  have hprint : ∀ l : Str, (∀ c ∈ l, isControl c = false) → '\n' ∉ l ∧ '\r' ∉ l := fun l hl =>
    ⟨fun hm => absurd (hl _ hm) (by decide), fun hm => absurd (hl _ hm) (by decide)⟩
  obtain ⟨it, hit, hl⟩ := List.mem_flatMap.mp hl
  have hok := h it hit
  cases it with
  | gap =>
    obtain rfl := List.mem_singleton.mp hl
    simp
  | entry pkg body =>
    obtain ⟨hp, hb⟩ := hok
    rcases List.mem_cons.mp hl with rfl | hl
    · exact hprint _ (header_clean hp hb)
    · cases body with
      | line s => cases hl
      | block so threads =>
        rcases List.mem_append.mp hl with hl | hl
        · obtain ⟨t, ht, rfl⟩ := List.mem_map.mp hl
          obtain ⟨htitle, hs⟩ := hb.inside t ht
          have := hprint _ (pair_clean htitle hs)
          simpa [threadLine] using this
        · obtain rfl := List.mem_singleton.mp hl
          decide

/-- What a file that holds the lines of a book reads as: a file without lines is one empty line. -/
def Book.written (b : Book) : Book := if b = [] then [.gap] else b

theorem Book.Ok.written (h : b.Ok topo) : b.written.Ok topo := by
  unfold Book.written
  split
  · exact ⟨by simp [Item.Ok], List.nodup_nil⟩
  · exact h

/-- **What is written is read back.** -/
theorem lines_written (h : ∀ it ∈ b, it.Ok topo) : lines (unlines b.text) = b.written.text := by
  by_cases hb : b = []
  · subst hb
    rfl
  have hne : b.text ≠ [] := by
    obtain ⟨it, rest, rfl⟩ := List.exists_cons_of_ne_nil hb
    rw [Book.text_cons]
    exact List.append_ne_nil_of_left_ne_nil (lastLine_blank (h it (by simp))).1 _
  rw [lines_unlines hne fun l hl => (line_clean h hl).1, Book.written, if_neg hb]
  conv_rhs => rw [← List.map_id b.text]
  refine List.map_congr_left fun l hl => ?_
  have hsuffix : stripSuffix '\r' l = none :=
    stripSuffix_eq_none.mpr fun hlast => (line_clean h hl).2 (List.mem_of_getLast? hlast)
  rw [stripCr, hsuffix]
  rfl

/-! ## Runs -/

/-- One operation on a book: a failed write leaves it as it was. -/
def Book.step (b : Book) (c : Option WriteFault × EditCall) : Book × List RuleEdit :=
  match b.edit c.2 with
  | .error e => (b, [e])
  | .ok b' => if c.1.isSome then (b, [.ioErr]) else (b'.written, [.ok])

/-- The file reads as the book. -/
structure Disk.Holds (d : Disk) (b : Book) : Prop where
  file : lines (d.readText.getD []) = b.text
  tmp : ∀ t ∈ d.tmp, t.readable = true

/-- A write that goes through. -/
theorem Disk.Holds.write {d : Disk} (hd : d.Holds b) (h : ∀ it ∈ b', it.Ok topo) :
    (fileWrite none d b'.text).2.Holds b'.written := by
  refine ⟨?_, Disk.TmpReadable.fileWrite hd.tmp none _⟩
  rw [fileWrite_read hd.tmp none, Option.isNone_none, if_pos rfl, Option.getD_some, lines_written h]

/-- A write that fails leaves the file, and a temporary file that the next write can use. -/
theorem Disk.Holds.fault {d : Disk} (hd : d.Holds b) (fault : WriteFault) (ls : List Str) :
    (fileWrite (some fault) d ls).2.Holds b := by
  refine ⟨?_, Disk.TmpReadable.fileWrite hd.tmp (some fault) ls⟩
  rw [fileWrite_read hd.tmp (some fault), Option.isNone_some, if_neg Bool.false_ne_true]
  exact hd.file

/-- **The step.** One operation on the disk is one on the book. -/
theorem run_book {d : Disk} {c : Option WriteFault × EditCall} (h : b.Ok topo) (hd : d.Holds b)
    (ha : c.2.Admitted topo) (hfuel : 2 ≤ fuel) :
    ∃ e d', c.2.run fuel c.1 d = some (e, d') ∧ (b.step c).2 = [e] ∧ d'.Holds (b.step c).1 ∧ (b.step c).1.Ok topo := by
  obtain ⟨fault, call⟩ := c
  have hedit := edit_book h ha hfuel
  unfold EditCall.run Book.step
  rw [hd.file, hedit, Option.map_some]
  cases he : b.edit call with
  | error e => exact ⟨e, d, rfl, rfl, hd, h⟩
  | ok b' =>
    have hok := h.edit ha he
    cases fault with
    | none => exact ⟨.ok, _, rfl, rfl, hd.write hok.items, hok.written⟩
    | some fault =>
      refine ⟨.ioErr, (fileWrite (some fault) d b'.text).2, ?_, rfl, hd.fault fault _, h⟩
      rw [← (fileWrite_fault fault d b'.text).1]
      rfl

/-- The run lemma: the book's run beside the disk's. -/
theorem editRun_book {d : Disk} {calls : List (Option WriteFault × EditCall)} (h : b.Ok topo) (hd : d.Holds b)
    (hcalls : ∀ c ∈ calls, c.2.Admitted topo) (hfuel : 2 ≤ fuel) :
    ∃ d', editRun fuel d calls = some (Mealy.emit Book.step b calls, d') ∧
      d'.Holds (Mealy.final Book.step b calls) ∧ (Mealy.final Book.step b calls).Ok topo := by
  induction calls generalizing b d with
  | nil => exact ⟨d, rfl, hd, h⟩
  | cons c calls ih =>
    obtain ⟨hc, hrest⟩ := List.forall_mem_cons.mp hcalls
    obtain ⟨e, d₁, hrun, hres, hd₁, hb₁⟩ := run_book h hd hc hfuel
    obtain ⟨d', hcalls', hd', hb'⟩ := ih hb₁ hd₁ hrest
    refine ⟨d', ?_, hd', hb'⟩
    simp only [editRun, hrun, Option.bind_some, hcalls', Option.map_some, Mealy.emit_cons, hres,
      List.singleton_append]

theorem step_results (b : Book) (c : Option WriteFault × EditCall) : ∀ e ∈ (b.step c).2, e ≠ .malformed := by
  unfold Book.step
  cases he : b.edit c.2 with
  | error e =>
    intro e' hmem
    rw [List.mem_singleton.mp hmem]
    rcases Book.edit_error he with rfl | rfl <;> decide
  | ok b' =>
    dsimp only
    split <;> simp

/-- **The editor refines the book.** From a file that reads as a book, over every run of admitted operations
    with any writes failing, two rounds of each loop are enough, every result is the book's and none is
    `malformed`, and the file reads as the book the run leads to, which is in order. -/
theorem editor_refines_book {d : Disk} {calls : List (Option WriteFault × EditCall)} (h : b.Ok topo)
    (hd : d.Holds b) (hcalls : ∀ c ∈ calls, c.2.Admitted topo) (hfuel : 2 ≤ fuel) :
    ∃ es d', editRun fuel d calls = some (es, d') ∧ es = Mealy.emit Book.step b calls ∧ RuleEdit.malformed ∉ es ∧
      d'.Holds (Mealy.final Book.step b calls) ∧ (Mealy.final Book.step b calls).Ok topo := by
  obtain ⟨d', hrun, hheld, hok⟩ := editRun_book h hd hcalls hfuel
  refine ⟨_, d', hrun, rfl, ?_, hheld, hok⟩
  have hall : ∀ (b : Book) (calls : List (Option WriteFault × EditCall)),
      RuleEdit.malformed ∉ Mealy.emit Book.step b calls := by
    intro b calls
    induction calls generalizing b with
    | nil => simp
    | cons c calls ih =>
      rw [Mealy.emit_cons, List.mem_append, not_or]
      exact ⟨fun hm => step_results b c _ hm rfl, ih _⟩
  exact hall b calls

/-! ## What the web API admits -/

/-- A name that passes the check of the web API, without the characters of the line grammar. -/
theorem Title.of_token (htrim : trim pkg = pkg) (hok : tokenOk pkg max = true) (hplain : PlainName pkg) :
    Title max pkg := by
  have hname : Name max (trim pkg) := tokenOk_name (by rwa [htrim])
  exact ⟨htrim ▸ hname, hplain⟩

/-- **A rule that `rule_api` accepts** is admitted, if its names and its spec are plain. -/
theorem admitted_of_ruleApi {body : Option Json.Value} (h : ruleApiArgs body (some topo) = .ok (pkg, thread, cpus))
    (hp : PlainName pkg) (ht : PlainName thread) (hc : ∀ c ∈ cpus, isControl c = false) :
    (EditCall.upsert pkg thread cpus).Admitted topo := by
  have hargs := ruleApiArgs_ok h
  exact ⟨⟨hargs.pkgName, hp⟩, fun hne => ⟨hargs.threadName hne, ht⟩, ⟨hargs.spec, hc⟩⟩

/-- A first rule, a thread rule, a rename whose write fails, a clone, and a rename to a name that is taken. -/
def firstRun : List (Option WriteFault × EditCall) :=
  [(none, .upsert "com.a".toList [] "0-3".toList), (none, .upsert "com.a".toList "Render".toList "2".toList),
    (some .sync, .rename "com.a".toList "com.b".toList),
    (none, .clone "com.a".toList "com.b".toList false true), (none, .rename "com.a".toList "com.b".toList)]

/-- The book of `firstRun`. -/
def firstBook : Book :=
  [.entry "com.a".toList (.block (some (.fresh "0-3".toList)) [("Render".toList, .fresh "2".toList)]), .gap,
    .entry "com.b".toList (.block none [("Render".toList, .fresh "2".toList)])]

theorem firstRun_admitted : ∀ c ∈ firstRun, c.2.Admitted quadTopology := by
  have hplain : ∀ s ∈ ["com.a".toList, "com.b".toList, "Render".toList], PlainName s := by
    intro s hs
    fin_cases hs <;> exact ⟨by decide, by decide, by decide⟩
  have hpkg : ∀ s ∈ ["com.a".toList, "com.b".toList], Title maxPkgLen s := by
    intro s hs
    fin_cases hs <;> exact .of_token (by decide) (by decide +kernel) (hplain _ (by decide))
  have hthread : Title maxThreadLen "Render".toList :=
    .of_token (by decide) (by decide +kernel) (hplain _ (by decide))
  have hprint : ∀ s ∈ ["0-3".toList, "2".toList], Printable quadTopology s := by
    intro s hs
    fin_cases hs <;> exact ⟨⟨by decide, trimStart_eq_self.mp (by decide), trimEnd_eq_self.mp (by decide),
      by decide +kernel, by decide +kernel⟩, by simp [isControl]⟩
  intro c hc
  simp only [firstRun, List.mem_cons, List.not_mem_nil, or_false] at hc
  rcases hc with rfl | rfl | rfl | rfl | rfl
  · exact ⟨hpkg _ (by decide), fun h => absurd rfl h, hprint _ (by decide)⟩
  · exact ⟨hpkg _ (by decide), fun _ => hthread, hprint _ (by decide)⟩
  · exact hpkg _ (by decide)
  · exact ⟨hpkg _ (by decide), rfl⟩
  · exact hpkg _ (by decide)

/-- The run `firstRun` on an empty disk. -/
theorem editor_refines_book_first : ∃ d', editRun 2 { file := none } firstRun
    = some ([.ok, .ok, .ioErr, .ok, .conflict], d') ∧ d'.Holds firstBook := by
  obtain ⟨es, d', hrun, hes, _, hheld, _⟩ := editor_refines_book (b := []) (d := { file := none })
    ⟨by simp, List.nodup_nil⟩ ⟨rfl, by simp⟩ firstRun_admitted (Nat.le_refl 2)
  have hres : Mealy.emit Book.step [] firstRun = [.ok, .ok, .ioErr, .ok, .conflict] := by decide +kernel
  have hbook : Mealy.final Book.step [] firstRun = firstBook := by decide +kernel
  rw [hes, hres] at hrun
  rw [hbook] at hheld
  exact ⟨d', hrun, hheld⟩

end AppOptR
