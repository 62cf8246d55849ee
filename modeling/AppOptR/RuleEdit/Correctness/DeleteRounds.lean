import AppOptR.RuleEdit.Correctness.DeletePackage
import AppOptR.RuleEdit.Correctness.UpsertPackage

/-!
# `RuleEdit.Correctness.DeleteRounds` — a round of `rule_delete_pkg` and the other packages

A round removes the first header, the first block and the single-line rules of the package in one rewriting of
the text (`deletePkgRound_eq`). Its lines are lines of the package, so that another package loses nothing; what
it could gain stands behind a removed line that kept a header and a brace apart (`Bridged`), or behind an
unclosed block, whose last lines are read outside then. Those state no rule there either (`Inert`).
-/

namespace AppOptR

open Text Relation

variable {q pkg line : Str} {ls ls' old new seg : List Str} {D : List Nat} {i o : Nat} {r : Role}

/-! ## Lines that state nothing -/

/-- A line that neither states a rule nor ends a block, inside one. -/
def Inert (line : Str) : Prop :=
  skipped (trim line) = true ∨ insideRole (trim line) = .idle

theorem insideRole_ne_skip (p : Str) : insideRole p ≠ .skip := by
  unfold insideRole
  split
  · exact fun h => by cases h
  · split
    · exact fun h => by cases h
    · split <;> exact fun h => by cases h

/-- **Outside a block** such a line states no rule either, but for one without a package. -/
theorem Inert.outside (h : Inert line) (w : Option Str) :
    roleOf (.outside w) line = .skip ∨ ∃ l, roleOf (.outside w) line = .outer l ∧
      (l.spec = none ∨ ∃ c opens, l = .rule [] c opens) := by
  by_cases hs : skipped (trim line) = true
  · exact .inl (roleOf_skipped hs)
  right
  have hidle := h.resolve_left hs
  refine ⟨_, roleOf_outside (by simpa using hs), ?_⟩
  rw [parseOuter_core]
  unfold insideRole at hidle
  rw [splitRuleLine_core] at hidle
  split at hidle
  · cases hidle
  cases hsplit : splitCore (core line) with
  | some x =>
    rw [hsplit] at hidle
    cases hidle
  | none =>
    rw [hsplit] at hidle
    dsimp only at hidle
    split at hidle
    · cases hidle
    next hbrace =>
    by_cases heq : '=' ∈ core line
    · obtain ⟨l, v, hcore, hv⟩ := eq_pair heq
      -- the key is blank, or `kv` would have found a rule
      have hblank : (trim l).isEmpty = true := by
        unfold splitCore at hsplit
        split at hsplit
        · cases hsplit
        · rw [hcore, kv_pair hv] at hsplit
          by_contra hl
          rw [if_neg hl] at hsplit
          cases hsplit
      have hnil : trim l = [] := List.isEmpty_iff.mp hblank
      -- a key of the form `pkg{thread}` would show a brace
      have hkey : singleKey l = none := by
        cases hk : singleKey l with
        | none => rfl
        | some k =>
          obtain ⟨a, b, w, w', hl, _⟩ := singleKey_eq_some hk
          obtain ⟨t, _, htrim⟩ := trim_eq_core line
          exact absurd (by rw [htrim, hcore, hl]; simp) hbrace
      rw [hcore, parseCore_pair hv, parsePair, hkey]
      dsimp only
      split
      · exact .inl rfl
      · split
        · split <;> exact .inl rfl
        · exact .inr ⟨_, _, by rw [hnil]⟩
    · rw [parseCore_plain heq]
      left
      split
      · rfl
      · split <;> rfl

/-- **Wherever it stands**, it says nothing to a package, and is no single-line rule. -/
theorem Inert.silent (h : Inert line) (hq : q ≠ []) (p : Place) :
    entriesFor q (p, roleOf p line) = [] ∧ (roleOf p line).singleOf pkg = false := by
  cases p with
  | inside o =>
    by_cases hs : skipped (trim line) = true
    · rw [roleOf_skipped hs]
      exact ⟨rfl, rfl⟩
    · rw [roleOf_inside (by simpa using hs), h.resolve_left hs]
      exact ⟨rfl, rfl⟩
  | outside w =>
    rcases h.outside w with hr | ⟨l, hr, hspec | ⟨c, opens, rfl⟩⟩
    · rw [hr]
      exact ⟨rfl, rfl⟩
    · rw [hr]
      cases l with
      | rule pg c opens => cases hspec
      | single pg th c opens => cases hspec
      | bareOpen pg => exact ⟨rfl, rfl⟩
      | pending pg => exact ⟨rfl, rfl⟩
      | junk => exact ⟨rfl, rfl⟩
    · rw [hr]
      exact ⟨by simp [entriesFor, entry, hq.symm], rfl⟩

theorem inert_seen (h : ∀ l ∈ ls, Inert l) (hq : q ≠ []) (p : Place) :
    seen q p ls = [] ∧ ∀ r ∈ rolesFrom p ls, r.singleOf pkg = false := by
  induction ls generalizing p with
  | nil => exact ⟨rfl, fun r hr => (by cases hr)⟩
  | cons l ls ih =>
    obtain ⟨hnone, hsingle⟩ := @Inert.silent q pkg l (h l (by simp)) hq p
    obtain ⟨hrest, hroles⟩ := ih (fun l' hl' => h l' (by simp [hl'])) (nextPlace p (roleOf p l))
    refine ⟨by rw [seen_cons, hnone, hrest, List.append_nil], fun r hr => ?_⟩
    rw [rolesFrom_cons] at hr
    rcases List.mem_cons.mp hr with rfl | hr
    · exact hsingle
    · exact hroles r hr

/-! ## The removals of a round -/

/-- The lines `D` go, the others stay. -/
def keepLine (D : List Nat) (i : Nat) (line : Str) : List Str := if i ∈ D then [] else [line]

theorem editsAt_keepLine (D : List Nat) : editsAt id (fun _ _ => []) D = keepLine D := by
  funext i line
  unfold keepLine
  by_cases hi : i ∈ D
  · rw [if_pos hi]
    unfold editsAt
    cases hf : D.find? fun e => id e = i with
    | none => exact absurd (List.find?_eq_none.mp hf i hi) (by simp)
    | some e => rfl
  · rw [if_neg hi]
    exact editsAt_of_not_mem (fun e he (h : e = i) => hi (h ▸ he)) line

/-- **A round** is one rewriting. -/
theorem deletePkgRound_eq (pkg : Str) (ls : List Str) :
    deletePkgRound pkg ls = rewriteFrom (keepLine (deleteRound (targetScan ls pkg))) 0 ls := by
  rw [← editsAt_keepLine]
  exact edits_run (fun ls i _ => eraseIdx_eq_replaceAt ls i) (deleteRound_ascending _) fun i hi => deleteRound_lt hi

/-- What stays of some lines. -/
theorem mem_rewriteFrom_keepLine {k : Nat} (h : line ∈ rewriteFrom (keepLine D) k seg) :
    ∃ pre post, seg = pre ++ line :: post ∧ k + pre.length ∉ D := by
  obtain ⟨a, b, hab⟩ := List.append_of_mem h
  have hone : ∀ i l, (keepLine D i l).length ≤ 1 := fun i l => by
    unfold keepLine
    split <;> simp
  obtain ⟨pre, l, post, hseg, _, hl⟩ := rewriteFrom_split hone hab
  unfold keepLine at hl
  split at hl
  · cases hl
  · next hD => exact ⟨pre, post, by rw [hseg, List.singleton_injective hl], hD⟩

/-- The indices of a round. -/
theorem mem_deleteRound {t : Target} : i ∈ deleteRound t ↔
    (∃ l, t.pkgLine = some l ∧ l.idx = i) ∨ (∃ o, t.blockOpen = some o ∧ o ≤ i ∧ i ≤ blockEnd t o) ∨
      ∃ loc ∈ t.singles, loc.idx = i := by
  unfold deleteRound
  rw [List.mem_dedup, List.mem_insertionSort, List.mem_append, List.mem_append, or_assoc]
  refine or_congr (by simp) (or_congr ?_ (by simp))
  cases t.blockOpen with
  | none => simp
  | some o =>
    simp only [List.mem_range'_1, Option.some.injEq]
    constructor
    · rintro ⟨hlo, hhi⟩
      exact ⟨o, rfl, hlo, by omega⟩
    · rintro ⟨o', rfl, hlo, hhi⟩
      exact ⟨hlo, by omega⟩

/-! ## Stretches of a round -/

/-- A line of the package that stands for itself: a rule that opens no block. -/
def Flat (pkg : Str) (r : Role) : Prop :=
  (∃ c, r = .outer (.rule pkg c false)) ∨ ∃ th c, r = .outer (.single pkg th c false)

/-- What a line says to `q`. -/
abbrev sayTo (q : Str) (e : Nat × Place × Role) : List (Str × Str) := entriesFor q e.2

/-- A line of a block, or one that opens it, says nothing to another package. -/
theorem entriesFor_opener {w : Option Str} {l : OuterLine} (hq : q ≠ pkg)
    (h : nextPlace (.outside w) (.outer l) = .inside pkg) : entriesFor q (.outside w, .outer l) = [] := by
  have hown : ∀ {pg : Str}, Place.inside pg = .inside pkg → pg ≠ q := fun he => by
    rw [Place.inside.inj he]
    exact hq.symm
  cases l with
  | rule pg c opens =>
    cases opens with
    | false => cases h
    | true => simp [entriesFor, entry, hown h]
  | single pg th c opens =>
    cases opens with
    | false => cases h
    | true => simp [entriesFor, entry, hown h]
  | bareOpen pg => rfl
  | pending pg => rfl
  | junk => rfl

/-- **Lines outside the block**: those that go are rules of the package that stand for themselves. -/
theorem Cut.around {post : List Str} (h : Cut q (sayTo q) (fun r => r.singleOf pkg = false) D old new)
    (hq : q ≠ pkg) (hls : ls = old ++ (seg ++ post)) (hc : ClashFree ls) (hb : ¬ Bridged ls D)
    (hgone : ∀ i r, old.length ≤ i → i < old.length + seg.length → i ∈ D → LineAt ls i r → Flat pkg r)
    (hkept : ∀ i r, i ∉ D → LineAt ls i r → r.singleOf pkg = false) :
    Cut q (sayTo q) (fun r => r.singleOf pkg = false) D (old ++ seg)
      (new ++ rewriteFrom (keepLine D) old.length seg) := by
  refine h.run fun pre line post' hseg => ?_
  have hcut : ls = (old ++ pre) ++ line :: (post' ++ post) := by rw [hls, hseg]; simp
  have hat : LineAt ls (old ++ pre).length (roleOf (placeAfter (old ++ pre)) line) := ⟨_, _, _, hcut, rfl, rfl⟩
  rw [← List.length_append]
  unfold keepLine
  by_cases hD : (old ++ pre).length ∈ D
  · rw [if_pos hD]
    have hlen : seg.length = pre.length + (post'.length + 1) := by rw [hseg]; simp
    have hflat := hgone _ _ (by simp) (by simp; omega) hD hat
    rcases hflat with ⟨c, hr⟩ | ⟨th, c, hr⟩
    · refine .flat hD (outer_place hr).1 (by rw [hr]; rfl) ?_
      simp [hr, entriesFor, entry, hq.symm]
    · refine .flat hD (outer_place hr).1 (by rw [hr]; rfl) ?_
      simp [hr, entriesFor, entry, hq.symm]
  · rw [if_neg hD]
    exact .of_not_bridged hb hcut hc hD (hkept _ _ hD hat) rfl

/-- **The block**, from its header on: what stays of it are blank lines. -/
theorem Cut.block (h : Cut q (sayTo q) (fun r => r.singleOf pkg = false) D old new)
    (hlines : ∀ pre line post, seg = pre ++ line :: post →
      (old.length + pre.length ∈ D ∨ skipped (trim line) = true) ∧ sayTo q (lineHere (old ++ pre) line) = [])
    (hout : ∃ w, placeAfter old = .outside w) (hend : placeFrom (placeAfter old) seg = .outside none) :
    Cut q (sayTo q) (fun r => r.singleOf pkg = false) D (old ++ seg)
      (new ++ rewriteFrom (keepLine D) old.length seg) := by
  refine h.drop hlines (fun l hl => ?_) (.inr rfl) hout hend
  obtain ⟨pre, post, hseg, hD⟩ := mem_rewriteFrom_keepLine hl
  exact (hlines pre l post hseg).1.resolve_left hD

/-! ## The first block -/

/-- A removed line that belongs to no block stands for itself. -/
theorem flat_of_mem (hc : ClashFree ls) (hi : i ∈ deleteRound (targetScan ls pkg))
    (hat : LineAt ls i r) (hheader : ∀ l, (targetScan ls pkg).pkgLine = some l → l.idx = i → l.isStandalone = true)
    (hblock : ∀ o, (targetScan ls pkg).blockOpen = some o → o ≤ i → blockEnd (targetScan ls pkg) o < i)
    (hopen : ∀ th c, r ≠ .outer (.single pkg th c true)) : Flat pkg r := by
  rcases mem_deleteRound.mp hi with ⟨l, hl, hidx⟩ | ⟨o, ho, hlo, hhi⟩ | ⟨loc, hloc, hidx⟩
  · have hst := hheader l hl hidx
    have hstands := (targetScan_found pkg hc).2.standing l hl
    cases l with
    | standalone j =>
      obtain ⟨c, hat'⟩ := hstands
      obtain rfl : j = i := hidx
      exact .inl ⟨c, hat.unique hat'⟩
    | openInline j => cases hst
    | bareOpen j => cases hst
    | barePending j => cases hst
  · have := hblock o ho hlo
    omega
  · obtain ⟨pre, line, post, th, c, opens, hls, hr, rfl⟩ := (mem_singles_iff hc).mp hloc
    have hr' := hat.unique ⟨pre, line, post, hls, hidx, hr⟩
    cases opens with
    | false => exact .inr ⟨th, c, hr'⟩
    | true => exact absurd hr' (hopen th c)

/-- A single-line rule of the package goes. -/
theorem single_of_kept (hc : ClashFree ls) (hi : i ∉ deleteRound (targetScan ls pkg))
    (hat : LineAt ls i r) : r.singleOf pkg = false := by
  rw [Bool.eq_false_iff]
  intro hs
  obtain ⟨th, c, opens, rfl⟩ := singleOf_iff.mp hs
  obtain ⟨pre, line, post, hls, rfl, hr⟩ := hat
  have hmem := (mem_singles_iff hc).mpr ⟨pre, line, post, th, c, opens, hls, hr, rfl⟩
  exact hi (mem_deleteRound.mpr (.inr (.inr ⟨_, hmem, rfl⟩)))

/-- Where the stretch of the first block begins: at the block, or at the pending header above it. -/
structure BlockLead (pkg q : Str) (ls : List Str) (o : Nat) (pre lead : List Str) : Prop where
  split : ls.take o = pre ++ lead
  out : ∃ w, placeAfter pre = .outside w
  lines : ∀ a line b, lead = a ++ line :: b →
    (pre.length + a.length ∈ deleteRound (targetScan ls pkg) ∨ skipped (trim line) = true) ∧
      sayTo q (lineHere (pre ++ a) line) = []
  header : ∀ l, (targetScan ls pkg).pkgLine = some l → l.isStandalone = true ∨ pre.length ≤ l.idx ∧ l.idx ≤ o

theorem block_lead (hc : ClashFree ls)
    (hshape : (targetScan ls pkg).singles = [] ∨ (targetScan ls pkg).blockClose = none)
    (ho : (targetScan ls pkg).blockOpen = some o) (hlen : (ls.take o).length = o)
    (hout : ∃ w, placeAfter (ls.take o) = .outside w) : ∃ pre lead, BlockLead pkg q ls o pre lead := by
  -- where the header is on the opening line, or stands alone, nothing leads the block
  have hatOnce : (∀ l, (targetScan ls pkg).pkgLine = some l → l.isStandalone = true ∨ l.idx = o) →
      ∃ pre lead, BlockLead pkg q ls o pre lead := fun h =>
    ⟨ls.take o, [], by simp, hout, fun a line b hab => absurd hab (by simp),
      fun l hl => (h l hl).imp id fun hidx => by omega⟩
  cases hl : (targetScan ls pkg).pkgLine with
  | none => exact hatOnce fun l h => by rw [hl] at h; cases h
  | some l =>
    by_cases hst : l.isStandalone = true
    · exact hatOnce fun l' h => .inl (by rw [hl] at h; rwa [← Option.some.inj h])
    · obtain ⟨o', ho', hopens⟩ := header_opens hc hshape hl (by simpa using hst)
      obtain rfl : o = o' := Option.some.inj (ho.symm.trans ho')
      cases l with
      | standalone i => exact absurd rfl hst
      | openInline i => exact hatOnce fun l' h => .inr (by rw [hl] at h; rw [← Option.some.inj h]; exact hopens.1)
      | bareOpen i => exact hatOnce fun l' h => .inr (by rw [hl] at h; rw [← Option.some.inj h]; exact hopens.1)
      | barePending i =>
        obtain ⟨pre, header, mid, brace, post, hls, rfl, hio, hheader, hmid, _⟩ := hopens
        -- a header that waits leads it, with the blank lines below
        refine ⟨pre, header :: mid, ?_, (outer_place hheader).1, fun a line b hab => ?_, fun l' h => .inr ?_⟩
        · rw [hls, List.append_cons, ← List.append_assoc, List.take_left' (by simp; omega)]
          simp
        · cases a with
          | nil =>
            obtain ⟨rfl, _⟩ := List.cons.inj hab
            rw [List.append_nil]
            refine ⟨.inl (mem_deleteRound.mpr (.inl ⟨_, hl, rfl⟩)), ?_⟩
            simp [hheader, entriesFor, entry]
          | cons x a =>
            have hs : skipped (trim line) = true := by
              refine hmid line ?_
              rw [(List.cons.inj hab).2]
              simp
            refine ⟨.inr hs, ?_⟩
            dsimp only [sayTo, lineHere]
            rw [roleOf_skipped hs]
            rfl
        · rw [hl] at h
          rw [← Option.some.inj h]
          exact ⟨le_refl _, by simp only [PkgLine.idx]; omega⟩

/-! ## One round -/

/-- Another package reads what it read, and no single-line rule of the package is left. -/
structure RoundSpares (pkg q : Str) (ls ls' : List Str) : Prop where
  seen : AppOptR.seen q Place.start ls' = AppOptR.seen q Place.start ls
  singles : ∀ r ∈ rolesFrom Place.start ls', r.singleOf pkg = false

theorem Cut.spares (h : Cut q (sayTo q) (fun r => r.singleOf pkg = false) D ls ls') : RoundSpares pkg q ls ls' :=
  ⟨(h.frame fun _ _ => rfl).seen.symm, h.roles⟩

/-- **No block.** -/
theorem round_flat (hq : q ≠ pkg) (hc : ClashFree ls)
    (hb : ¬ Bridged ls (deleteRound (targetScan ls pkg))) (ho : (targetScan ls pkg).blockOpen = none) :
    RoundSpares pkg q ls (deletePkgRound pkg ls) := by
  obtain ⟨hblock, hheader⟩ := targetScan_found pkg hc
  rw [deletePkgRound_eq]
  refine Cut.spares (@Cut.around q pkg ls _ _ ls _ [] Cut.start hq (by simp) hc hb (fun i r _ _ hi hat => ?_)
    fun i r hi hat => single_of_kept hc hi hat)
  refine flat_of_mem hc hi hat (fun l hl _ => hheader.alone ho l hl) (fun o ho' => ?_) fun th c hr => ?_
  · rw [ho] at ho'
    cases ho'
  · rw [hr] at hat
    exact hblock.unseen ho (i + 1) hat.next

/-- A line of a text that is cut at another line: before that one, that one, or behind it. -/
theorem append_cons_split {xs zs a b : List Str} {y l : Str} (h : xs ++ y :: zs = a ++ l :: b) :
    (∃ c, xs = a ++ l :: c) ∨ (xs = a ∧ y = l) ∨ ∃ c, a = xs ++ y :: c ∧ zs = c ++ l :: b := by
  rcases List.append_eq_append_iff.mp h with ⟨c, hc, hrest⟩ | ⟨c, hc, hrest⟩
  · cases c with
    | nil =>
      obtain ⟨rfl, _⟩ := List.cons.inj hrest
      exact .inr (.inl ⟨by simpa using hc.symm, rfl⟩)
    | cons d c =>
      obtain ⟨rfl, hzs⟩ := List.cons.inj hrest
      exact .inr (.inr ⟨c, hc, hzs⟩)
  · cases c with
    | nil =>
      obtain ⟨rfl, _⟩ := List.cons.inj hrest
      exact .inr (.inl ⟨by simpa using hc, rfl⟩)
    | cons d c =>
      obtain ⟨rfl, _⟩ := List.cons.inj hrest
      exact .inl ⟨c, hc⟩

/-- The lines of the stretch say nothing to another package. -/
theorem BlockLead.says {pre lead inner : List Str} {opener : Str} (h : BlockLead pkg q ls o pre lead) (hq : q ≠ pkg)
    (hout : ∃ w, placeAfter (pre ++ lead) = .outside w)
    (hopen : nextPlace (placeAfter (pre ++ lead)) (roleOf (placeAfter (pre ++ lead)) opener) = .inside pkg)
    (hinner : ∀ a line b, inner = a ++ line :: b → StaysIn pkg a) {a b : List Str}
    (hsplit : lead ++ opener :: inner = a ++ line :: b) : sayTo q (lineHere (pre ++ a) line) = [] := by
  rcases append_cons_split hsplit with ⟨c, hc⟩ | ⟨rfl, rfl⟩ | ⟨c, rfl, hc⟩
  · exact (h.lines a line c hc).2
  · obtain ⟨w, hw⟩ := hout
    dsimp only [sayTo, lineHere]
    rw [hw] at hopen ⊢
    rcases roleOf_outside_cases w opener with hr | ⟨l, hr⟩
    · rw [hr]
      rfl
    · rw [hr] at hopen ⊢
      exact entriesFor_opener hq hopen
  · have hplace : placeAfter (pre ++ (lead ++ opener :: c)) = .inside pkg := by
      rw [← List.append_assoc, placeAfter_append, placeFrom_cons, hopen]
      exact (hinner c line b hc).place
    dsimp only [sayTo, lineHere]
    rw [hplace]
    exact entriesFor_inside hq.symm line

/-- A line of a block, cut out of it. -/
theorem StaysIn.cut {a b : List Str} (h : StaysIn pkg (a ++ line :: b)) :
    StaysIn pkg a ∧ nextPlace (.inside pkg) (roleOf (.inside pkg) line) = .inside pkg := by
  have ha : StaysIn pkg a := (Mealy.along_append.mp h).1
  have hline : nextPlace (placeFrom (.inside pkg) a) (roleOf (placeFrom (.inside pkg) a) line) = .inside pkg :=
    Mealy.along_at h
  rw [ha.place] at hline
  exact ⟨ha, hline⟩

/-- A removed line above the stretch, or below the block, stands for itself. -/
theorem BlockLead.flat {pre lead : List Str} (h : BlockLead pkg q ls o pre lead) (hc : ClashFree ls)
    (ho : (targetScan ls pkg).blockOpen = some o) (hi : i ∈ deleteRound (targetScan ls pkg)) (hat : LineAt ls i r)
    (hpre : i < pre.length ∨ blockEnd (targetScan ls pkg) o < i) (hlo : pre.length ≤ o)
    (hend : o ≤ blockEnd (targetScan ls pkg) o) (hopen : ∀ th c, r ≠ .outer (.single pkg th c true)) : Flat pkg r := by
  refine flat_of_mem hc hi hat (fun l hl hidx => ?_) (fun o' ho' _ => ?_) hopen
  · rcases h.header l hl with hst | ⟨h₁, h₂⟩
    · exact hst
    · omega
  · obtain rfl : o = o' := Option.some.inj (ho.symm.trans ho')
    omega

/-- **A closed block.** -/
theorem round_closed (hq : q ≠ pkg) (hc : ClashFree ls)
    (hb : ¬ Bridged ls (deleteRound (targetScan ls pkg))) (hsingles : (targetScan ls pkg).singles = []) {c : Nat}
    (hclose : (targetScan ls pkg).blockClose = some c) : RoundSpares pkg q ls (deletePkgRound pkg ls) := by
  obtain ⟨hblock, _⟩ := targetScan_found pkg hc
  obtain ⟨o, ho, pre', opener, body, closer, post, hls, hlen, hlenc, hout, hopen, hstays, hcloses, _⟩ :=
    hblock.closed c hclose
  have htake : ls.take o = pre' := by rw [hls, List.take_left' hlen]
  obtain ⟨pre, lead, hlead⟩ := @block_lead q _ _ _ hc (.inl hsingles) ho (by rw [htake, hlen]) (by rwa [htake])
  obtain rfl : pre' = pre ++ lead := htake.symm.trans hlead.split
  have hend : blockEnd (targetScan ls pkg) o = c := by simp [blockEnd, hclose]
  have hlo : pre.length ≤ o := by rw [← hlen]; simp
  have hsplit : ls = pre ++ ((lead ++ opener :: (body ++ [closer])) ++ post) := by rw [hls]; simp
  have hseg : pre.length + (lead ++ opener :: (body ++ [closer])).length = c + 1 := by
    simp only [List.length_append, List.length_cons, List.length_nil] at hlen hlenc ⊢
    omega
  -- the stretch from the header to the closing brace goes, and says nothing to `q`
  have hlines : ∀ a line b, lead ++ opener :: (body ++ [closer]) = a ++ line :: b →
      (pre.length + a.length ∈ deleteRound (targetScan ls pkg) ∨ skipped (trim line) = true) ∧
        sayTo q (lineHere (pre ++ a) line) = [] := by
    intro a line b hab
    refine ⟨?_, hlead.says hq hout hopen (fun a line b hab => ?_) hab⟩
    · have hlen' := congrArg List.length hab
      simp only [List.length_append, List.length_cons] at hlen hseg hlen'
      rcases append_cons_split hab with ⟨x, hx⟩ | ⟨rfl, _⟩ | ⟨x, rfl, _⟩
      · exact (hlead.lines a line x hx).1
      · exact .inl (mem_deleteRound.mpr (.inr (.inl ⟨o, ho, by omega, by omega⟩)))
      · simp only [List.length_append, List.length_cons] at hlen' ⊢
        exact .inl (mem_deleteRound.mpr (.inr (.inl ⟨o, ho, by omega, by omega⟩)))
    · obtain ⟨t, rfl⟩ : a <+: body := by
        refine List.prefix_of_prefix_length_le ⟨line :: b, hab.symm⟩ (List.prefix_append body [closer]) ?_
        have := congrArg List.length hab
        simp only [List.length_append, List.length_cons, List.length_nil] at this
        omega
      exact (Mealy.along_append.mp hstays).1
  have hfinal : placeFrom (placeAfter pre) (lead ++ opener :: (body ++ [closer])) = .outside none := by
    rw [← placeAfter_append, ← List.append_assoc, placeAfter_append, placeFrom_cons, hopen, placeFrom_append,
      hstays.place]
    exact hcloses
  generalize lead ++ opener :: (body ++ [closer]) = seg at hsplit hseg hlines hfinal
  -- elsewhere the removed lines stand for themselves
  have hgone : ∀ i r, i < pre.length ∨ c < i → i ∈ deleteRound (targetScan ls pkg) → LineAt ls i r → Flat pkg r := by
    intro i r hi hD hat
    refine hlead.flat hc ho hD hat (hend ▸ hi) hlo (by omega) fun th cp hr => ?_
    obtain ⟨a, line, b, hab, rfl, hr'⟩ := hr ▸ hat
    have hmem := (mem_singles_iff hc).mpr ⟨a, line, b, th, cp, true, hab, hr', rfl⟩
    rw [hsingles] at hmem
    cases hmem
  have hkept := fun i r hi hat => @single_of_kept pkg ls i r hc hi hat
  -- above the stretch, the stretch, below it
  have hbefore := Cut.start.around hq (by simpa using hsplit) hc hb
    (fun i r _ hi => hgone i r (.inl (by simpa using hi))) hkept
  have hdropped := hbefore.block hlines hlead.out hfinal
  have hafter := @Cut.around _ _ _ _ _ post _ [] hdropped hq (by rw [hsplit]; simp) hc hb
    (fun i r hi _ => hgone i r (.inr (by rw [List.nil_append, List.length_append, hseg] at hi; omega))) hkept
  have hspares := hafter.spares
  rw [deletePkgRound_eq]
  generalize keepLine (deleteRound (targetScan ls pkg)) = f at hspares ⊢
  rw [hsplit]
  simpa [rewriteFrom_append, Nat.add_assoc] using hspares

/-- In an unclosed block the round goes down to the last thread rule. -/
theorem le_blockEnd {t : Target} {name : Str} {loc : ThreadLoc} (hnone : t.blockClose = none)
    (h : (name, loc) ∈ t.threads) (hs : loc.single = false) : loc.idx ≤ blockEnd t o := by
  have hmem : loc.idx ∈ ((t.threads.map (·.2)).filter (!·.single)).map (·.idx) :=
    List.mem_map_of_mem (List.mem_filter.mpr ⟨List.mem_map_of_mem (f := (·.2)) h, by simp [hs]⟩)
  unfold blockEnd
  rw [hnone, Option.none_or]
  cases hm : (((t.threads.map (·.2)).filter (!·.single)).map (·.idx)).max? with
  | none =>
    rw [List.max?_eq_none_iff.mp hm] at hmem
    cases hmem
  | some m => exact (List.max?_eq_some_iff.mp hm).2 _ hmem

/-- The thread rules of the package all stand in the block that is open. -/
theorem opener_le_blockEnd (hc : ClashFree ls) (hopen : OpenBlock pkg ls o)
    (hnone : (targetScan ls pkg).blockClose = none) : o ≤ blockEnd (targetScan ls pkg) o := by
  unfold blockEnd
  rw [hnone, Option.none_or]
  cases hm : ((((targetScan ls pkg).threads.map (·.2)).filter (!·.single)).map (·.idx)).max? with
  | none => exact le_refl o
  | some m =>
    obtain ⟨loc, hloc, rfl⟩ := List.mem_map.mp (List.max?_mem hm)
    obtain ⟨hloc, hs⟩ := List.mem_filter.mp hloc
    obtain ⟨t, ht, rfl⟩ := List.mem_map.mp hloc
    obtain ⟨a, line, b, hab, hat⟩ := (mem_threads hc).mp ht
    rcases mem_threadOf.mp hat with ⟨_, _, he, hidx⟩ | ⟨_, _, _, hidx⟩
    · by_contra hlt
      rw [Option.getD_some, hidx] at hlt
      obtain ⟨pre, opener, body, hls, hlen, _, _, _, hunseen⟩ := hopen
      refine hunseen a.length ?_
      have htake : pre.take a.length = ls.take a.length := by
        rw [hls, List.take_append_of_le_length]
        rw [hlen]
        exact Nat.le_of_not_le hlt
      rw [htake, hab, List.take_left' rfl]
      exact (Prod.mk.inj he).1
    · rw [hidx] at hs
      cases hs

/-- Behind its last rule the lines of an unclosed block are inert. -/
theorem inert_of_behind {pre post : List Str} (hc : ClashFree ls)
    (hnone : (targetScan ls pkg).blockClose = none) (hls : ls = pre ++ line :: post)
    (hplace : placeAfter pre = .inside pkg) (hlt : blockEnd (targetScan ls pkg) o < pre.length) : Inert line := by
  have hblock := (targetScan_found pkg hc).1
  rw [hnone] at hblock
  have hnext := hblock.no_close hls hplace
  by_cases hs : skipped (trim line) = true
  · exact .inl hs
  have hrole : roleOf (placeAfter pre) line = insideRole (trim line) := by
    rw [hplace, roleOf_inside (by simpa using hs)]
  rw [hrole] at hnext
  cases hr : insideRole (trim line) with
  | idle => exact .inr hr
  | skip => exact absurd hr (insideRole_ne_skip _)
  | close =>
    rw [hr] at hnext
    cases hnext
  | outer lo => exact absurd hr (insideRole_ne_outer _ _)
  | thread name cpus closed =>
    have ht : (name, ({ idx := pre.length, single := false, closed, opens := false } : ThreadLoc)) ∈
        threadOf pkg (lineHere pre line) :=
        mem_threadOf.mpr (.inl ⟨cpus, closed, Prod.ext hplace (hrole.trans hr), rfl⟩)
    have hle := le_blockEnd (o := o) hnone ((mem_threads hc).mpr ⟨pre, line, post, hls, ht⟩) rfl
    dsimp only at hle
    omega

/-- **An unclosed block**: it goes down to its last rule, and the lines behind that are inert. -/
theorem round_open (hq : q ≠ pkg) (hempty : q ≠ []) (hc : ClashFree ls)
    (hb : ¬ Bridged ls (deleteRound (targetScan ls pkg))) (ho : (targetScan ls pkg).blockOpen = some o)
    (hnone : (targetScan ls pkg).blockClose = none) : RoundSpares pkg q ls (deletePkgRound pkg ls) := by
  have hblock := (targetScan_found pkg hc).1.opened o ho hnone
  have hend := opener_le_blockEnd hc hblock hnone
  obtain ⟨pre', opener, body, hls, hlen, hout, hopen, hstays, hunseen⟩ := hblock
  have htake : ls.take o = pre' := by rw [hls, List.take_left' hlen]
  obtain ⟨pre, lead, hlead⟩ := @block_lead q _ _ _ hc (.inr hnone) ho (by rw [htake, hlen]) (by rwa [htake])
  obtain rfl : pre' = pre ++ lead := htake.symm.trans hlead.split
  have hsplit : ls = pre ++ (lead ++ opener :: body) := by rw [hls, List.append_assoc]
  have hlo : pre.length ≤ o := by rw [← hlen]; simp
  -- above the stretch the removed lines stand for themselves
  have hgone : ∀ i r, i < pre.length → i ∈ deleteRound (targetScan ls pkg) → LineAt ls i r → Flat pkg r := by
    intro i r hi hD hat
    refine hlead.flat hc ho hD hat (.inl hi) hlo hend fun th cp hr => hunseen (i + 1) ?_
    have hbelow : ls.take (i + 1) = (pre ++ lead).take (i + 1) := by
      rw [hls]
      exact List.take_append_of_le_length (by omega)
    rw [hr] at hat
    rw [← hbelow, hat.next]
    rfl
  have hcut := @Cut.around _ _ _ _ _ pre _ _ Cut.start hq (by simpa using hsplit) hc hb
    (fun i r _ hi => hgone i r (by simpa using hi)) fun i r hi hat => single_of_kept hc hi hat
  -- from there on what stays is inert
  have hinert : ∀ l ∈ rewriteFrom (keepLine (deleteRound (targetScan ls pkg))) pre.length
      (lead ++ opener :: body), Inert l := by
    intro l hl
    obtain ⟨a, b, hab, hD⟩ := mem_rewriteFrom_keepLine hl
    have hrange : ∀ i, o ≤ i → i ∉ deleteRound (targetScan ls pkg) → blockEnd (targetScan ls pkg) o < i :=
      fun i hi hD => by
        by_contra hlt
        exact hD (mem_deleteRound.mpr (.inr (.inl ⟨o, ho, hi, by omega⟩)))
    rw [List.length_append] at hlen
    rcases append_cons_split hab with ⟨c, hx⟩ | ⟨rfl, rfl⟩ | ⟨c, rfl, hx⟩
    · exact .inl ((hlead.lines a l c hx).1.resolve_left hD)
    · have := hrange _ hlen.ge hD
      omega
    · rw [List.length_append, List.length_cons] at hD
      have hcut : ls = (pre ++ lead ++ opener :: c) ++ l :: b := by rw [hls, hx]; simp
      refine inert_of_behind hc hnone hcut ?_ (by simpa [Nat.add_assoc] using hrange _ (by omega) hD)
      rw [placeAfter_append, placeFrom_cons, hopen]
      rw [hx] at hstays
      exact hstays.cut.1.place
  have hsays : ∀ a line b, lead ++ opener :: body = a ++ line :: b → sayTo q (lineHere (pre ++ a) line) = [] :=
    fun a line b hab => hlead.says hq hout hopen (fun a line b hx => by rw [hx] at hstays; exact hstays.cut.1) hab
  have hold : seen q Place.start ls = seen q Place.start pre := by
    rw [hsplit, seen_eq_outlineAt, seen_eq_outlineAt]
    exact outlineAt_flatMap_append hsays
  rw [deletePkgRound_eq]
  generalize keepLine (deleteRound (targetScan ls pkg)) = f at hcut hinert ⊢
  have hnew : rewriteFrom f 0 ls = rewriteFrom f 0 pre ++ rewriteFrom f pre.length (lead ++ opener :: body) := by
    rw [hsplit, rewriteFrom_append, Nat.zero_add]
  obtain ⟨habove, hsingles⟩ : RoundSpares pkg q pre (rewriteFrom f 0 pre) := hcut.spares
  obtain ⟨hbelow, hroles⟩ := @inert_seen q pkg _ hinert hempty (placeAfter (rewriteFrom f 0 pre))
  rw [hnew]
  refine ⟨?_, fun r hr => ?_⟩
  · rw [seen_append, hold, habove]
    exact (congrArg _ hbelow).trans (List.append_nil _)
  · rw [rolesFrom_append] at hr
    exact (List.mem_append.mp hr).elim (hsingles r) (hroles r)

/-- **One round**: another package reads what it read. -/
theorem round_spares (hq : q ≠ pkg) (hempty : q ≠ []) (hc : ClashFree ls)
    (hb : ¬ Bridged ls (deleteRound (targetScan ls pkg)))
    (hshape : (targetScan ls pkg).singles = [] ∨ (targetScan ls pkg).blockClose = none) :
    RoundSpares pkg q ls (deletePkgRound pkg ls) := by
  cases ho : (targetScan ls pkg).blockOpen with
  | none => exact round_flat hq hc hb ho
  | some o =>
    cases hclose : (targetScan ls pkg).blockClose with
    | none => exact round_open hq hempty hc hb ho hclose
    | some c =>
      refine round_closed hq hc hb (hshape.resolve_right fun h => ?_) hclose
      rw [hclose] at h
      cases h

/-! ## The loop -/

/-- No text the loop comes to has a clash, and in none do the removed lines keep a header and a brace apart. -/
def DeletesApart (pkg : Str) (ls : List Str) : Prop :=
  ∀ mid, ReflTransGen (DeleteStep pkg) ls mid → ClashFree mid ∧ ¬ Bridged mid (deleteRound (targetScan mid pkg))

/-- **The run lemma.** -/
theorem rounds_spare (hq : q ≠ pkg) (hempty : q ≠ []) (hsafe : DeletesApart pkg ls)
    (hshape : (targetScan ls pkg).singles = [] ∨ (targetScan ls pkg).blockClose = none)
    (hrun : ReflTransGen (DeleteStep pkg) ls ls') :
    seen q Place.start ls' = seen q Place.start ls ∧
      ((targetScan ls' pkg).singles = [] ∨ (targetScan ls' pkg).blockClose = none) := by
  induction hrun with
  | refl => exact ⟨rfl, hshape⟩
  | @tail mid ls' hmid hstep ih =>
    obtain ⟨hsame, hmidshape⟩ := ih
    obtain ⟨hc, hb⟩ := hsafe mid hmid
    have hround := round_spares hq hempty hc hb hmidshape
    have hc' := (hsafe ls' (hmid.tail hstep)).1
    rw [hstep.2] at hc' ⊢
    exact ⟨hround.seen.trans hsame, .inl (singles_eq_nil hc' hround.singles)⟩

end AppOptR
