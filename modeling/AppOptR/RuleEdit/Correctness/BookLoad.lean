import AppOptR.RuleEdit.Correctness.BookScan

/-!
# `RuleEdit.Correctness.BookLoad` — what the loader reads of a book

The loader's side of `RuleEdit.Correctness.BookScan`: over the text of a book it calls `add_rule` once for
every rule of the book, every call succeeds, and no line is counted as a failure (`loadLines_book`).
-/

namespace AppOptR

open Text

variable {topo : CpuTopology} {createCpusetDir : Nat → Str → Bool} {b : Book} {pkg thread cpus l : Str} {body : Body}
  {s : SpecText} {i k max : Nat} {st st' st'' : LoadState} {c c' : LoadCtl} {es es' : List (Str × Str × Str)}

/-- A rule of a book as the loader has it. -/
def parsed (topo : CpuTopology) (e : Str × Str × Str) : Str × Str × CpuSet := (e.1, e.2.1, parseCpuSpec e.2.2 topo)

/-- A call that `add_rule` accepts. -/
structure Welcome (topo : CpuTopology) (e : Str × Str × Str) : Prop where
  pkg : Title maxPkgLen e.1
  thread : e.2.1 ≠ [] → Title maxThreadLen e.2.1
  cpus : Spec topo e.2.2

theorem Welcome.addRule {e : Str × Str × Str} (h : Welcome topo e) (create : Str → Bool) :
    ∃ r, addRule create topo e.1 e.2.1 e.2.2 = some r ∧ r.view = parsed topo e := by
  obtain ⟨r, hr, hpkg, hthread, hcpus⟩ :=
    addRule_ok create h.pkg.name (fun hne => (h.thread hne).name) h.cpus
  exact ⟨r, hr, by rw [AffinityRule.view, hpkg, hthread, hcpus]; rfl⟩

/-- The loader has read some lines: it stands at `c`, has the rules `es` more, and no failure more. -/
structure Loads (topo : CpuTopology) (st : LoadState) (es : List (Str × Str × Str)) (c : LoadCtl)
    (st' : LoadState) : Prop where
  ctl : st'.ctl = c
  fails : st'.failCnt = st.failCnt
  rules : st'.rules.map AffinityRule.view = st.rules.map AffinityRule.view ++ es.map (parsed topo)

theorem Loads.refl (st : LoadState) : Loads topo st [] st.ctl st := ⟨rfl, rfl, by simp⟩

theorem Loads.trans (h : Loads topo st es c st') (h' : Loads topo st' es' c' st'') :
    Loads topo st (es ++ es') c' st'' where
  ctl := h'.ctl
  fails := h'.fails.trans h.fails
  rules := by rw [h'.rules, h.rules, List.map_append, List.append_assoc]

/-- **One line** whose calls are all accepted. -/
theorem loads_line (hstep : loadCtlStep st.ctl l = (c, es.map fun e => .addRule e.1 e.2.1 e.2.2))
    (hes : ∀ e ∈ es, Welcome topo e) : Loads topo st es c (loadLine createCpusetDir topo st (l, i)) := by
  have hacts : ∀ (es : List (Str × Str × Str)) (st : LoadState), (∀ e ∈ es, Welcome topo e) →
      Loads topo st es st.ctl
        ((es.map fun e => LoadAct.addRule e.1 e.2.1 e.2.2).foldl (loadAct createCpusetDir topo i) st) := by
    intro es
    induction es with
    | nil => exact fun st _ => .refl st
    | cons e es ih =>
      intro st h
      obtain ⟨r, hr, hview⟩ := (h e (by simp)).addRule (createCpusetDir i)
      have hone : Loads topo st [e] st.ctl (loadAct createCpusetDir topo i st (.addRule e.1 e.2.1 e.2.2)) := by
        simp only [loadAct, hr]
        exact ⟨rfl, rfl, by simp [hview]⟩
      have hrest := ih (loadAct createCpusetDir topo i st (.addRule e.1 e.2.1 e.2.2))
        fun e' he' => h e' (by simp [he'])
      rw [hone.ctl] at hrest
      exact hone.trans hrest
  have h := hacts es { st with ctl := c } hes
  unfold loadLine
  rw [hstep]
  exact ⟨h.ctl, h.fails, h.rules⟩

/-! ## The lines of a book -/

theorem loads_threadLines (createCpusetDir : Nat → Str → Bool) {threads : List (Str × SpecText)}
    (hp : Title maxPkgLen pkg) (h : ∀ t ∈ threads, Title maxThreadLen t.1 ∧ t.2.Ok topo)
    (hctl : st.ctl = ⟨pkg, [], true⟩) :
    Loads topo st (threads.map fun t => (pkg, t.1, t.2.cpus)) ⟨pkg, [], true⟩
      (((threads.map threadLine).zipIdx k).foldl (loadLine createCpusetDir topo) st) := by
  induction threads generalizing st k with
  | nil => exact hctl ▸ .refl st
  | cons t threads ih =>
    obtain ⟨⟨ht, hs⟩, hrest⟩ := List.forall_mem_cons.mp h
    obtain ⟨hskip, hclose, hrule⟩ := threadLine_rule ht hs
    have hline : Loads topo st [(pkg, t.1, t.2.cpus)] ⟨pkg, [], true⟩
        (loadLine createCpusetDir topo st (threadLine t, k)) := by
      refine loads_line (by simp [hctl, loadCtlStep, hskip, hclose, hrule]) fun e he => ?_
      obtain rfl := List.mem_singleton.mp he
      exact ⟨hp, fun _ => ht, hs.spec.toSpec⟩
    rw [List.map_cons, List.map_cons, List.zipIdx_cons, List.foldl_cons]
    exact hline.trans (ih hrest hline.ctl)

/-- The header of an entry. -/
theorem loads_header (createCpusetDir : Nat → Str → Bool) (hp : Title maxPkgLen pkg) (hb : body.Ok topo)
    (hctl : st.ctl = {}) :
    Loads topo st (body.pkgSpec.toList.map fun s => (pkg, [], s.cpus))
      (match body with | .line _ => {} | .block _ _ => ⟨pkg, [], true⟩)
      (loadLine createCpusetDir topo st (body.header pkg, i)) := by
  have hone : ∀ s : SpecText, s.Ok topo → ∀ e ∈ [(pkg, ([] : Str), s.cpus)], Welcome topo e := by
    intro s hs e he
    obtain rfl := List.mem_singleton.mp he
    exact ⟨hp, fun h => absurd rfl h, hs.spec.toSpec⟩
  have hdangling : danglingFail {} = [] := rfl
  cases body with
  | line s =>
    obtain ⟨hskip, houter⟩ := line_outer hp (hb.spec s rfl)
    refine loads_line ?_ (hone s (hb.spec s rfl))
    simp [Body.header, Body.pkgSpec, hctl, loadCtlStep, hskip, houter, hdangling]
  | block s threads =>
    cases s with
    | none =>
      obtain ⟨hskip, houter⟩ := bare_outer hp
      refine loads_line ?_ (by simp [Body.pkgSpec])
      simp [Body.header, Body.pkgSpec, hctl, loadCtlStep, hskip, houter, hdangling, hp.name.ne]
    | some s =>
      obtain ⟨hskip, houter⟩ := open_outer hp (hb.spec s rfl)
      refine loads_line ?_ (hone s (hb.spec s rfl))
      simp [Body.header, Body.pkgSpec, hctl, loadCtlStep, hskip, houter, hdangling]

theorem loads_close (createCpusetDir : Nat → Str → Bool) (topo : CpuTopology) (hctl : st.ctl = ⟨pkg, [], true⟩) :
    Loads topo st [] {} (loadLine createCpusetDir topo st (['}'], i)) := by
  obtain ⟨hskip, hclose⟩ := close_line
  exact loads_line (by simp [hctl, loadCtlStep, hskip, hclose]) (by simp)

/-- **One item**: its rules, and the loader is outside every block again. -/
theorem loads_item (createCpusetDir : Nat → Str → Bool) {it : Item} (h : it.Ok topo) (hctl : st.ctl = {}) :
    Loads topo st it.rules {} ((it.text.zipIdx k).foldl (loadLine createCpusetDir topo) st) := by
  cases it with
  | gap =>
    have hline : Loads topo st [] {} (loadLine createCpusetDir topo st ([], k)) :=
      loads_line (by rw [hctl]; rfl) (by simp)
    exact hline
  | entry pkg body =>
    obtain ⟨hp, hb⟩ := h
    have hheader := loads_header createCpusetDir (i := k) hp hb hctl
    cases body with
    | line s => exact hheader
    | block s threads =>
      have hthreads := loads_threadLines createCpusetDir (k := k + 1) hp hb.inside hheader.ctl
      have hclose := loads_close createCpusetDir topo (i := k + 1 + (threads.map threadLine).length) hthreads.ctl
      have hall := (hheader.trans hthreads).trans hclose
      show Loads topo st _ {}
        ((((Body.block s threads).header pkg :: (threads.map threadLine ++ [['}']])).zipIdx k).foldl _ st)
      rw [List.zipIdx_cons, List.foldl_cons, List.zipIdx_append, List.foldl_append, List.zipIdx_singleton]
      have hrules : (Item.entry pkg (.block s threads)).rules
          = (s.toList.map fun s => (pkg, [], s.cpus)) ++ (threads.map fun t => (pkg, t.1, t.2.cpus)) ++ [] := by
        simp [Item.rules, Body.specs, Function.comp_def]
      rw [hrules]
      exact hall

/-- **The loader reads a book's rules**, each once and in order, and counts no failure. -/
theorem loadLines_book (createCpusetDir : Nat → Str → Bool) (h : ∀ it ∈ b, it.Ok topo) :
    Loads topo {} b.rules {} (loadLines createCpusetDir topo b.text) := by
  have hfrom : ∀ (b : Book) (k : Nat) (st : LoadState), (∀ it ∈ b, it.Ok topo) → st.ctl = {} →
      Loads topo st b.rules {} ((b.text.zipIdx k).foldl (loadLine createCpusetDir topo) st) := by
    intro b
    induction b with
    | nil => exact fun k st _ hctl => hctl ▸ .refl st
    | cons it b ih =>
      intro k st hb hctl
      obtain ⟨hit, hrest⟩ := List.forall_mem_cons.mp hb
      have hitem := loads_item createCpusetDir (k := k) hit hctl
      rw [Book.text_cons, List.zipIdx_append, List.foldl_append]
      exact hitem.trans (ih _ _ hrest hitem.ctl)
  exact hfrom b 0 {} h rfl

end AppOptR
