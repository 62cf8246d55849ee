import AppOptR.RuleEdit.Correctness.BookRun

/-!
# `RuleEdit.Correctness.Ledger` — the file is a map from package and thread to CPUs

What a client of the editor may count on, without entries or lines: a *ledger* says which spec each thread of
each package has, and the operations that went through set, clear, move and copy its values. The ledger of a
book moves as `Ledger.apply` says (`ledger_edit`), so that after any run the loader has, for each thread of each
package, the one rule the ledger says or none (`loader_reads_ledger`).
-/

namespace AppOptR

open Text

variable {topo : CpuTopology} {b b' pre post : Book} {pkg q thread u cpus : Str} {body body' : Body} {s : SpecText}
  {call : EditCall}

/-! ## Ledgers -/

/-- The spec of each thread of each package; the empty thread is the package itself. -/
abbrev Ledger := Str → Str → Option Str

/-- What an operation that goes through does. -/
def Ledger.apply (L : Ledger) : EditCall → Ledger
  | .upsert pkg thread cpus => fun q u => if q = pkg ∧ u = thread then some cpus else L q u
  | .delete pkg thread => fun q u => if q = pkg ∧ u = thread then none else L q u
  | .deletePkg pkg => fun q u => if q = pkg then none else L q u
  | .rename old new => fun q u => if q = new then L old u else if q = old then none else L q u
  | .clone source target copyPackage copyThreads => fun q u =>
    if q = target then (if (if u = [] then copyPackage else copyThreads) then L source u else none) else L q u

/-- The operations of a run that went through, one after the other. -/
def Ledger.run (L : Ledger) : List (EditCall × RuleEdit) → Ledger
  | [] => L
  | (call, e) :: rest => Ledger.run (if e = .ok then L.apply call else L) rest

/-! ## The ledger of a book -/

def Body.spec (u : Str) (body : Body) : Option Str :=
  if u = [] then body.pkgSpec.map (·.cpus)
  else (body.threadSpecs.find? fun t => t.1 = u).map (·.2.cpus)

def Book.ledger (b : Book) : Ledger := fun q u => (b.find q).bind (Body.spec u)

theorem Book.find_append (a c : Book) : Book.find q (a ++ c) = (Book.find q a).or (Book.find q c) := by
  induction a with
  | nil => simp [Book.find]
  | cons it a ih =>
    cases it with
    | gap => exact ih
    | entry p body =>
      by_cases hp : p = q
      · simp [Book.find, hp]
      · simpa [Book.find, hp] using ih

/-- Another entry, or none, in place of an entry. -/
theorem Entry.find_put (h : Entry topo pre post pkg body) (items : Book) :
    Book.find q (pre ++ (items ++ post))
      = if q = pkg then Book.find q items
        else (Book.find q pre).or ((Book.find q items).or (Book.find q post)) := by
  rw [Book.find_append, Book.find_append]
  split
  · next hq =>
    subst hq
    rw [Book.find_eq_none.mpr h.before, Book.find_eq_none.mpr h.after]
    simp
  · rfl

theorem Book.find_other (hq : q ≠ pkg) :
    Book.find q (pre ++ .entry pkg body :: post) = (Book.find q pre).or (Book.find q post) := by
  rw [Book.find_append, Book.find, if_neg (Ne.symm hq)]

/-! ## The specs of a body -/

theorem find_setThread (threads : List (Str × SpecText)) (thread cpus u : Str) :
    ((setThread thread cpus threads).find? fun t => t.1 = u).map (·.2.cpus)
      = if u = thread then some cpus else (threads.find? fun t => t.1 = u).map (·.2.cpus) := by
  induction threads with
  | nil =>
    by_cases hu : u = thread
    · simp [setThread, hu, SpecText.fresh]
    · simp [setThread, hu, Ne.symm hu]
  | cons t threads ih =>
    unfold setThread
    by_cases ht : t.1 = thread
    · rw [if_pos ht]
      by_cases hu : u = thread
      · simp [ht, hu, SpecText.swap]
      · have hne : ¬ thread = u := fun h => hu h.symm
        simp [ht, hu, hne]
    · rw [if_neg ht]
      by_cases hu : t.1 = u
      · have hne : ¬ u = thread := fun h => ht (hu.trans h)
        simp [hu, hne]
      · simpa [hu] using ih

theorem Body.spec_upsert (body : Body) (thread cpus u : Str) :
    (body.upsert thread cpus).spec u = if u = thread then some cpus else body.spec u := by
  cases body with
  | line s =>
    by_cases ht : thread = []
    · by_cases hu : u = [] <;> simp [Body.upsert, Body.spec, Body.pkgSpec, Body.threadSpecs, SpecText.swap, ht, hu]
    · by_cases hu : u = []
      · subst hu
        simp [Body.upsert, Body.spec, Body.pkgSpec, SpecText.fresh, ht, Ne.symm ht]
      · by_cases huth : u = thread
        · simp [Body.upsert, Body.spec, Body.threadSpecs, SpecText.fresh, huth, ht]
        · have hne : ¬ thread = u := fun h => huth h.symm
          simp [Body.upsert, Body.spec, Body.threadSpecs, ht, hu, huth, hne]
  | block so threads =>
    by_cases ht : thread = []
    · subst ht
      by_cases hu : u = []
      · cases so <;> simp [Body.upsert, Body.spec, Body.pkgSpec, SpecText.swap, SpecText.fresh, hu]
      · simp [Body.upsert, Body.spec, Body.threadSpecs, hu]
    · by_cases hu : u = []
      · subst hu
        simp [Body.upsert, Body.spec, Body.pkgSpec, ht, Ne.symm ht]
      · simp only [Body.upsert, if_neg ht, Body.spec, if_neg hu, Body.threadSpecs]
        exact find_setThread threads thread cpus u

theorem Body.spec_fresh (thread cpus u : Str) :
    (Body.fresh thread cpus).spec u = if u = thread then some cpus else none := by
  unfold Body.fresh
  by_cases ht : thread = []
  · by_cases hu : u = [] <;> simp [Body.spec, Body.pkgSpec, Body.threadSpecs, SpecText.fresh, ht, hu]
  · by_cases hu : u = []
    · subst hu
      simp [Body.spec, Body.pkgSpec, ht, Ne.symm ht]
    · by_cases huth : u = thread
      · simp [Body.spec, Body.threadSpecs, SpecText.fresh, huth, ht]
      · have hne : ¬ thread = u := fun h => huth h.symm
        simp [Body.spec, Body.threadSpecs, ht, hu, huth, hne]

/-- A deletion clears one spec, and where it takes the whole body there was no other. -/
theorem Body.spec_delete {left : Option Body} (h : body.delete thread = some left) (u : Str) :
    left.bind (Body.spec u) = if u = thread then none else body.spec u := by
  cases body with
  | line s =>
    by_cases ht : thread = []
    · subst ht
      obtain rfl : none = left := by simpa [Body.delete] using h
      by_cases hu : u = [] <;> simp [Body.spec, Body.threadSpecs, hu]
    · simp [Body.delete, ht] at h
  | block so threads =>
    by_cases ht : thread = []
    · subst ht
      cases so with
      | none => simp [Body.delete] at h
      | some s =>
        obtain rfl : some (.block none threads) = left := by simpa [Body.delete] using h
        by_cases hu : u = [] <;> simp [Body.spec, Body.pkgSpec, Body.threadSpecs, hu]
    · simp only [Body.delete, if_neg ht] at h
      split at h
      · obtain rfl := Option.some.inj h
        by_cases hu : u = []
        · subst hu
          simp [Body.spec, Body.pkgSpec, Ne.symm ht]
        · simp only [Option.bind_some, Body.spec, if_neg hu, Body.threadSpecs, List.find?_filter]
          by_cases huth : u = thread
          · subst huth
            simp [List.find?_eq_none]
          · rw [if_neg huth]
            congr 1
            refine List.find?_congr fun t _ => ?_
            by_cases htu : t.1 = u
            · simp [htu, huth]
            · simp [htu]
      · cases h

theorem Body.spec_renamed (body : Body) (u : Str) : body.renamed.spec u = body.spec u := by
  cases body <;> rfl

theorem Body.spec_clone {copyPackage copyThreads : Bool} (h : body.clone copyPackage copyThreads = some body')
    (hcopy : (copyPackage || copyThreads) = true) (u : Str) :
    body'.spec u = if (if u = [] then copyPackage else copyThreads) then body.spec u else none := by
  have hfind : ((body.threadSpecs.map fun t => (t.1, SpecText.fresh t.2.cpus)).find? fun t => t.1 = u).map (·.2.cpus)
      = (body.threadSpecs.find? fun t => t.1 = u).map (·.2.cpus) := by
    rw [List.find?_map, Option.map_map]
    rfl
  unfold Body.clone at h
  dsimp only at h
  split at h
  · cases h
  split at h
  · next hct =>
    split at h
    · next hcp =>
      obtain ⟨s, hs, rfl⟩ := Option.map_eq_some_iff.mp h
      by_cases hu : u = []
      · simp only [Body.spec, if_pos hu, hcp, if_true, hs]
        rfl
      · simp only [Body.spec, if_neg hu, Body.threadSpecs, hct, if_true]
        exact hfind
    · next hcp =>
      obtain rfl := Option.some.inj h
      by_cases hu : u = []
      · simp [Body.spec, Body.pkgSpec, hu, hcp]
      · simp only [Body.spec, if_neg hu, Body.threadSpecs, hct, if_true]
        exact hfind
  · next hct =>
    obtain rfl : copyPackage = true := by simpa [hct] using hcopy
    obtain ⟨s, hs, rfl⟩ := Option.map_eq_some_iff.mp h
    by_cases hu : u = []
    · simp only [Body.spec, if_pos hu, if_true, hs]
      rfl
    · simp [Body.spec, Body.threadSpecs, hu, hct]

/-! ## The ledger of an edited book -/

/-- The ledger where an entry is replaced by another body of its package, or by nothing. -/
theorem ledger_replaced (h : Entry topo pre post pkg body) (left : Option Body) (q u : Str) :
    Book.ledger (pre ++ ((left.map (Item.entry pkg)).toList ++ post)) q u
      = if q = pkg then left.bind (Body.spec u)
        else Book.ledger (pre ++ .entry pkg body :: post) q u := by
  unfold Book.ledger
  rw [h.find_put]
  by_cases hq : q = pkg
  · subst hq
    rw [if_pos rfl, if_pos rfl]
    cases left <;> simp [Book.find]
  · rw [if_neg hq, if_neg hq, Book.find_other hq]
    have hnone : Book.find q (left.map (Item.entry pkg)).toList = none := by
      cases left <;> simp [Book.find, Ne.symm hq]
    rw [hnone, Option.none_or]

theorem Book.ledger_of_find (hf : b.find q = some body) (u : Str) : b.ledger q u = body.spec u := by
  rw [Book.ledger, hf, Option.bind_some]

theorem Book.ledger_of_absent (hf : b.find q = none) (u : Str) : b.ledger q u = none := by
  rw [Book.ledger, hf, Option.bind_none]

theorem ledger_upsert (h : b.Ok topo) (pkg thread cpus : Str) :
    (b.upsert pkg thread cpus).ledger = b.ledger.apply (.upsert pkg thread cpus) := by
  funext q u
  show _ = if q = pkg ∧ u = thread then some cpus else b.ledger q u
  unfold Book.upsert
  cases hf : b.find pkg with
  | some body =>
    have hown := Book.ledger_of_find hf u
    obtain ⟨pre, post, rfl, he⟩ := h.entry hf
    have hput := ledger_replaced he (some (body.upsert thread cpus)) q u
    dsimp only
    rw [he.replace]
    refine hput.trans ?_
    by_cases hq : q = pkg
    · subst hq
      rw [hown]
      simp [Body.spec_upsert]
    · simp [hq]
  | none =>
    dsimp only
    rw [Book.ledger, Book.find_append]
    by_cases hq : q = pkg
    · subst hq
      rw [Book.ledger_of_absent hf, hf]
      simp [Book.find, Body.spec_fresh]
    · simp [Book.find, Ne.symm hq, hq, Book.ledger]

theorem ledger_rename {old new : Str} (h : b.Ok topo) (he : b.rename old new = .ok b') :
    b'.ledger = b.ledger.apply (.rename old new) := by
  funext q u
  show _ = if q = new then b.ledger old u else if q = old then none else b.ledger q u
  unfold Book.rename at he
  cases hf : b.find old with
  | none =>
    rw [hf] at he
    cases he
  | some body =>
    cases hfn : b.find new with
    | some other =>
      rw [hf, hfn] at he
      cases he
    | none =>
      rw [hf, hfn] at he
      obtain rfl := Except.ok.inj he
      rw [Book.ledger_of_find hf]
      obtain ⟨pre, post, rfl, hent⟩ := h.entry hf
      have hne : old ≠ new := by
        rintro rfl
        rw [hf] at hfn
        cases hfn
      rw [hent.replace, Book.ledger, hent.find_put]
      by_cases hq : q = old
      · subst hq
        simp [Book.find, hne, Ne.symm hne]
      · by_cases hqn : q = new
        · subst hqn
          have hpre : Book.find q pre = none := by
            rw [Book.find_append] at hfn
            exact (Option.or_eq_none_iff.mp hfn).1
          simp [hq, hpre, Book.find, Body.spec_renamed]
        · simp [hq, hqn, Book.find, Ne.symm hqn, Book.ledger, Book.find_other hq]

/-- A clone on the ledger. -/
theorem ledger_clone {source target : Str} {copyPackage copyThreads : Bool}
    (hcopy : (copyPackage || copyThreads) = true) (he : b.clone source target copyPackage copyThreads = .ok b') :
    b'.ledger = b.ledger.apply (.clone source target copyPackage copyThreads) := by
  funext q u
  show _ = if q = target then (if (if u = [] then copyPackage else copyThreads) then b.ledger source u else none)
    else b.ledger q u
  unfold Book.clone at he
  split at he
  · cases he
  next htarget =>
  have hnone : b.find target = none := by simpa using htarget
  cases hf : b.find source with
  | none =>
    rw [hf] at he
    cases he
  | some body =>
    rw [hf, Option.bind_some] at he
    cases hc : body.clone copyPackage copyThreads with
    | none =>
      rw [hc] at he
      cases he
    | some body' =>
      rw [hc] at he
      obtain rfl := Except.ok.inj he
      have hgap : Book.find q (if b.endsBlank then [] else [.gap]) = none := by split <;> rfl
      rw [Book.ledger, Book.find_append, Book.find_append, hgap, Option.or_none]
      by_cases hq : q = target
      · subst hq
        rw [hnone, Option.none_or, if_pos rfl, Book.ledger_of_find hf, ← Body.spec_clone hc hcopy]
        simp [Book.find]
      · simp [hq, Book.find, Ne.symm hq, Book.ledger]

/-- **An operation that goes through moves the ledger.** -/
theorem ledger_edit (h : b.Ok topo) (ha : call.Admitted topo) (he : b.edit call = .ok b') :
    b'.ledger = b.ledger.apply call := by
  cases call with
  | upsert pkg thread cpus =>
    obtain rfl := Except.ok.inj he
    exact ledger_upsert h pkg thread cpus
  | delete pkg thread =>
    funext q u
    show _ = if q = pkg ∧ u = thread then none else b.ledger q u
    simp only [Book.edit, Book.delete] at he
    cases hf : b.find pkg with
    | none =>
      rw [hf] at he
      cases he
    | some body =>
      have hown := Book.ledger_of_find hf u
      obtain ⟨pre, post, rfl, hent⟩ := h.entry hf
      rw [hf, Option.bind_some] at he
      cases hd : body.delete thread with
      | none =>
        rw [hd] at he
        cases he
      | some left =>
        rw [hd] at he
        obtain rfl := Except.ok.inj he
        rw [hent.replace]
        refine (ledger_replaced hent left q u).trans ?_
        by_cases hq : q = pkg
        · subst hq
          rw [if_pos rfl, hown, Body.spec_delete hd]
          simp
        · simp [hq]
  | deletePkg pkg =>
    funext q u
    show _ = if q = pkg then none else b.ledger q u
    simp only [Book.edit, Book.deletePkg] at he
    cases hf : b.find pkg with
    | none =>
      rw [hf] at he
      cases he
    | some body =>
      obtain ⟨pre, post, rfl, hent⟩ := h.entry hf
      rw [hf] at he
      obtain rfl := Except.ok.inj he
      rw [hent.replace]
      exact ledger_replaced hent none q u
  | rename old new => exact ledger_rename h he
  | clone source target copyPackage copyThreads => exact ledger_clone ha.2 he

theorem ledger_written (b : Book) : b.written.ledger = b.ledger := by
  unfold Book.written
  split
  · next hb =>
    subst hb
    rfl
  · rfl

/-- **The ledger over a run**: the operations that went through, and no other, have moved it. -/
theorem ledger_run {calls : List (Option WriteFault × EditCall)} (h : b.Ok topo)
    (hcalls : ∀ c ∈ calls, c.2.Admitted topo) :
    (Mealy.emit Book.step b calls).length = calls.length ∧
      (Mealy.final Book.step b calls).ledger
        = b.ledger.run ((calls.map (·.2)).zip (Mealy.emit Book.step b calls)) := by
  induction calls generalizing b with
  | nil => exact ⟨rfl, rfl⟩
  | cons c calls ih =>
    obtain ⟨hc, hrest⟩ := List.forall_mem_cons.mp hcalls
    rw [Mealy.emit_cons, Mealy.final_cons]
    have hstep : ∃ e, (b.step c).2 = [e] ∧ (b.step c).1.Ok topo ∧
        (b.step c).1.ledger = if e = .ok then b.ledger.apply c.2 else b.ledger := by
      unfold Book.step
      cases he : b.edit c.2 with
      | error e =>
        have hne : e ≠ .ok := by
          rintro rfl
          rcases Book.edit_error he with he | he <;> cases he
        exact ⟨e, rfl, h, by rw [if_neg hne]⟩
      | ok b' =>
        dsimp only
        split
        · exact ⟨.ioErr, rfl, h, rfl⟩
        · exact ⟨.ok, rfl, (h.edit hc he).written, by rw [if_pos rfl, ledger_written, ledger_edit h hc he]⟩
    obtain ⟨e, he, hok, hledger⟩ := hstep
    obtain ⟨hlen, hrun⟩ := ih hok hrest
    rw [he]
    refine ⟨by simp [hlen], ?_⟩
    rw [hrun, hledger, List.singleton_append, List.map_cons, List.zip_cons_cons]
    rfl

/-! ## The loader -/

/-- In a list with distinct keys, the entries of a key are the one that is found. -/
theorem filter_key {threads : List (Str × SpecText)} (hd : (threads.map (·.1)).Nodup) (u : Str) :
    threads.filter (fun t => t.1 = u) = (threads.find? fun t => t.1 = u).toList := by
  induction threads with
  | nil => rfl
  | cons t threads ih =>
    rw [List.map_cons, List.nodup_cons] at hd
    by_cases ht : t.1 = u
    · have hnone : threads.filter (fun t => t.1 = u) = [] := by
        refine List.filter_eq_nil_iff.mpr fun t' ht' => ?_
        have hne : t'.1 ≠ u := fun he => hd.1 (ht ▸ he ▸ List.mem_map_of_mem ht')
        simpa using hne
      simp [ht, hnone]
    · simp [ht, ih hd.2]

/-- The specs of a body for one thread: the one of the ledger, or none. -/
theorem specs_filter (hb : body.Ok topo) (u : Str) :
    (body.specs.filter fun e => e.1 = u).map (·.2) = (body.spec u).toList := by
  have hsplit : body.specs = (body.pkgSpec.toList.map fun s => ([], s.cpus)) ++
      body.threadSpecs.map fun t => (t.1, t.2.cpus) := by cases body <;> rfl
  have hthreads : ((body.threadSpecs.map fun t => (t.1, t.2.cpus)).filter fun e => e.1 = u).map (·.2)
      = ((body.threadSpecs.find? fun t => t.1 = u).map (·.2.cpus)).toList := by
    rw [List.filter_map, List.map_map]
    have := filter_key hb.distinct u
    rw [show (body.threadSpecs.filter ((fun e : Str × Str => decide (e.1 = u)) ∘ fun t => (t.1, t.2.cpus)))
      = (body.threadSpecs.find? fun t => t.1 = u).toList from this]
    cases body.threadSpecs.find? fun t => t.1 = u <;> rfl
  rw [hsplit, List.filter_append, List.map_append, hthreads]
  unfold Body.spec
  by_cases hu : u = []
  · subst hu
    -- no thread is called by the empty name
    have hnone : (body.threadSpecs.find? fun t => t.1 = []) = none := by
      refine List.find?_eq_none.mpr fun t ht => ?_
      simpa using (hb.threads t ht).1.name.ne
    rw [hnone, if_pos rfl]
    cases body.pkgSpec <;> simp
  · rw [if_neg hu]
    have hnone : (body.pkgSpec.toList.map fun s => (([] : Str), s.cpus)).filter (fun e => e.1 = u) = [] := by
      refine List.filter_eq_nil_iff.mpr fun e he => ?_
      obtain ⟨s, _, rfl⟩ := List.mem_map.mp he
      simpa using Ne.symm hu
    rw [hnone]
    rfl

theorem rules_absent (hq : q ∉ b.pkgs) (u : Str) : (b.rules.filter fun e => e.1 = q ∧ e.2.1 = u) = [] := by
  refine List.filter_eq_nil_iff.mpr fun e he => ?_
  obtain ⟨it, hit, he⟩ := List.mem_flatMap.mp he
  cases it with
  | gap => cases he
  | entry pkg body =>
    obtain ⟨s, _, rfl⟩ := List.mem_map.mp he
    have hne : pkg ≠ q := by
      rintro rfl
      exact hq (List.mem_filterMap.mpr ⟨_, hit, rfl⟩)
    simp [hne]

theorem rules_filter (h : b.Ok topo) (q u : Str) :
    (b.rules.filter fun e => e.1 = q ∧ e.2.1 = u).map (·.2.2) = (b.ledger q u).toList := by
  cases hf : b.find q with
  | none =>
    rw [rules_absent (Book.find_eq_none.mp hf), Book.ledger_of_absent hf]
    rfl
  | some body =>
    rw [Book.ledger_of_find hf]
    obtain ⟨pre, post, rfl, he⟩ := h.entry hf
    have hsplit : Book.rules (pre ++ .entry q body :: post)
        = Book.rules pre ++ ((body.specs.map fun s => (q, s.1, s.2)) ++ Book.rules post) := by
      rw [Book.rules, List.flatMap_append, List.flatMap_cons]
      rfl
    have hown : (fun e : Str × Str × Str => decide (e.1 = q ∧ e.2.1 = u)) ∘ (fun s : Str × Str => (q, s.1, s.2))
        = fun e => decide (e.1 = u) := by
      funext e
      simp
    rw [hsplit, List.filter_append, List.filter_append, rules_absent he.before, rules_absent he.after,
      List.nil_append, List.append_nil, List.filter_map, hown, List.map_map, ← specs_filter he.body u]
    rfl

/-- **The loader reads the ledger.** After any run of admitted operations on a file that holds a book, with any
    writes failing, the loader counts no failure, and for each thread of each package it has the one rule of the
    ledger, or none. -/
theorem loader_reads_ledger {d : Disk} {calls : List (Option WriteFault × EditCall)} {fuel : Nat} (h : b.Ok topo)
    (hd : d.Holds b) (hcalls : ∀ c ∈ calls, c.2.Admitted topo) (hfuel : 2 ≤ fuel)
    (createCpusetDir : Nat → Str → Bool) :
    ∃ es d', editRun fuel d calls = some (es, d') ∧ es.length = calls.length ∧
      parseFails (loadLines createCpusetDir topo (lines (d'.readText.getD []))) = 0 ∧
      ∀ q u, ((loadLines createCpusetDir topo (lines (d'.readText.getD []))).rules.filter
            fun r => r.pkg = q ∧ r.thread = u).map (·.cpus)
          = (b.ledger.run ((calls.map (·.2)).zip es) q u).toList.map fun cpus => parseCpuSpec cpus topo := by
  obtain ⟨d', hrun, hheld, hok⟩ := editRun_book h hd hcalls hfuel
  obtain ⟨hlen, hledger⟩ := ledger_run h hcalls
  have hload := loadLines_book createCpusetDir hok.items
  refine ⟨_, d', hrun, hlen, ?_, fun q u => ?_⟩
  · rw [hheld.file, parseFails, hload.ctl, hload.fails]
    rfl
  · rw [hheld.file, ← hledger, ← rules_filter hok q u]
    have hrules := hload.rules
    -- a filter on package and thread can be asked of the views
    have hview : ∀ rules : List AffinityRule, (rules.filter fun r => r.pkg = q ∧ r.thread = u).map (·.cpus)
        = ((rules.map AffinityRule.view).filter fun v => v.1 = q ∧ v.2.1 = u).map (·.2.2) := by
      intro rules
      rw [List.filter_map, List.map_map]
      rfl
    rw [hview, hrules, List.map_nil, List.nil_append, List.filter_map, List.map_map, List.map_map]
    rfl

/-- The run `firstRun` on an empty disk: the clone has copied the thread rule and not the package's own. -/
theorem loader_reads_ledger_first : ∃ es d', editRun 2 { file := none } firstRun = some (es, d') ∧
    parseFails (loadLines (fun _ _ => true) quadTopology (lines (d'.readText.getD []))) = 0 ∧
    ((loadLines (fun _ _ => true) quadTopology (lines (d'.readText.getD []))).rules.filter
      fun r => r.pkg = "com.b".toList ∧ r.thread = "Render".toList).map (·.cpus)
        = [parseCpuSpec "2".toList quadTopology] := by
  obtain ⟨es, d', hrun, _, hfails, hrules⟩ := loader_reads_ledger (b := []) (d := { file := none })
    ⟨by simp, List.nodup_nil⟩ ⟨rfl, by simp⟩ firstRun_admitted (Nat.le_refl 2) fun _ _ => true
  refine ⟨es, d', hrun, hfails, ?_⟩
  have hes : es = [.ok, .ok, .ioErr, .ok, .conflict] := by
    obtain ⟨d'', hbook, _⟩ := editRun_book (b := []) (d := { file := none }) ⟨by simp, List.nodup_nil⟩
      ⟨rfl, by simp⟩ firstRun_admitted (Nat.le_refl 2)
    rw [hbook] at hrun
    have hemit : Mealy.emit Book.step [] firstRun = es := congrArg Prod.fst (Option.some.inj hrun)
    rw [← hemit]
    decide +kernel
  rw [hrules, hes]
  decide +kernel

end AppOptR
