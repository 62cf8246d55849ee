import AppOptR.RuleEdit.Correctness.HeaderAgain

/-!
# `RuleEdit.Correctness.ThreadAgain` — a thread rule set a second time

The thread half of `rule_upsert` leaves one occurrence of the thread (`one_occurrence`), which the second call
finds. Where the thread had none, one comes from the inserted lines (`gains_lands`). Where it had some, the last
one is kept and the others go (`LastKept`), which may take away the single-line rules the text had, and with
them the reason why `normalize_singles` left the text alone.
-/

namespace AppOptR

open Text

variable {q pkg thread cpus line c : Str} {ls ls' pre post : List Str} {topo : CpuTopology} {i : Nat}
  {loc last : ThreadLoc}

/-! ## One occurrence -/

/-- A line is an occurrence of the thread as often as it states a rule of it. -/
theorem threadOf_length (hth : thread ≠ []) (e : Nat × Place × Role) :
    ((threadOf pkg e).filter fun t => t.1 = thread).length
      = ((entriesFor pkg e.2).filter fun x => x.1 = thread).length := by
  obtain ⟨i, place, role⟩ := e
  cases role with
  | skip => rfl
  | idle => rfl
  | close => rfl
  | thread name c closed =>
    cases place with
    | outside w => rfl
    | inside o =>
      by_cases ho : o = pkg <;> by_cases hn : name = thread <;> simp [threadOf, entriesFor, entry, ho, hn]
  | outer l =>
    cases l with
    | single pg th c opens =>
      by_cases ho : pg = pkg <;> by_cases hn : th = thread <;> simp [threadOf, entriesFor, entry, ho, hn]
    | rule pg c opens =>
      by_cases ho : pg = pkg <;> simp [threadOf, entriesFor, entry, ho, Ne.symm hth]
    | bareOpen pg => rfl
    | pending key => rfl
    | junk => rfl

/-- The thread occurs as often as the text states a rule of it. -/
theorem locs_length (hc : ClashFree ls) (hth : thread ≠ []) :
    ((targetScan ls pkg).locs thread).length
      = ((seen pkg Place.start ls).filter fun x => x.1 = thread).length := by
  rw [Target.locs, List.length_map, targetScan_threads hc, seen_eq_outlineAt, List.filter_flatMap,
    List.filter_flatMap, List.length_flatMap, List.length_flatMap]
  exact congrArg List.sum (List.map_congr_left fun e _ => threadOf_length hth e)

/-- **The one occurrence** after an edit that leaves one rule of the thread. -/
theorem one_occurrence (hth : thread ≠ []) (hchanged : Changed pkg thread [(thread, c)] ls ls')
    (hls' : ls' = pre ++ line :: post) (ht : (thread, loc) ∈ threadOf pkg (lineHere pre line)) :
    (targetScan ls' pkg).locs thread = [loc] := by
  have hmem : loc ∈ (targetScan ls' pkg).locs thread :=
    (mem_locs_iff hchanged.clashFree).mpr ⟨pre, line, post, hls', ht⟩
  have hone : ((targetScan ls' pkg).locs thread).length = 1 := by
    rw [locs_length hchanged.clashFree hth, hchanged.here.length_eq]
    rfl
  obtain ⟨loc', hlocs⟩ := List.length_eq_one_iff.mp hone
  rw [hlocs] at hmem ⊢
  rw [List.mem_singleton.mp hmem]

/-! ## A rule put in -/

/-- **An inserted rule** is the line of the second edit, if the text has no single-line rule of the package. -/
theorem gains_lands (hth : thread ≠ []) (hc : ClashFree ls)
    (hnil : (targetScan ls pkg).singles = []) (hnone : (targetScan ls pkg).locs thread = [])
    (hg : Gains pkg [(thread, cpus)] ls ls') (hls' : ls' = pre ++ line :: post)
    (hin : placeAfter pre = .inside pkg) (hrole : roleOf (.inside pkg) line = .thread thread c false) :
    Lands pkg thread ls' pre.length := by
  have ht : (thread, { idx := pre.length, single := false, closed := false, opens := false })
      ∈ threadOf pkg (lineHere pre line) :=
    mem_threadOf.mpr (.inl ⟨c, false, by show (placeAfter pre, roleOf (placeAfter pre) line) = _; rw [hin, hrole], rfl⟩)
  refine ⟨?_, ?_, fun h => absurd h hth, fun _ => ?_⟩
  · refine normalizeRuns_eq_false.mpr (.inl (singles_eq_nil hg.clashFree fun r hr => ?_))
    rcases hg.roles r hr with hr | hr
    · obtain ⟨e, he, rfl⟩ := List.mem_map.mp hr
      exact (singles_nil_iff hc).mp hnil e he
    · exact hr
  · rw [hls']
    simp
  · exact ⟨_, one_occurrence hth (hg.changed_new hc hth hnone) hls' ht, rfl⟩

/-! ## The last occurrence kept -/

/-- The text with the last occurrence reworded and the others gone. -/
def lastKeptText (ls : List Str) (pkg thread cpus : Str) (last : ThreadLoc) : List Str → List Str :=
  rewriteFrom (editsAt ThreadLoc.idx (keepLast pkg cpus last) ((targetScan ls pkg).locs thread)) 0

/-- The edit of a thread with occurrences: the last one is found again, with the spec `c`, and no removed line
    keeps a waiting header and a bare `{` apart. -/
structure KeepsLast (pkg thread cpus c : Str) (ls : List Str) (last : ThreadLoc) : Prop where
  clashFree : ClashFree ls
  isLast : ((targetScan ls pkg).locs thread).getLast? = some last
  apart : ¬ Bridged ls (erasedOthers ls pkg thread)
  reworded : ∀ pre line post, ls = pre ++ line :: post → pre.length = last.idx →
    roleOf (placeAfter pre) (specSwap line cpus) = (roleOf (placeAfter pre) line).withSpec c

/-- **Old and new text**, up to some line. -/
theorem KeepsLast.cut (h : KeepsLast pkg thread cpus c ls last) (q : Str) (hls : ls = pre ++ post) :
    Cut q (restated pkg q (((targetScan ls pkg).locs thread).map (·.idx)) last.idx [(thread, c)]) (fun _ => True)
      (erasedOthers ls pkg thread) pre (lastKeptText ls pkg thread cpus last pre) := by
  refine locs_cut h.clashFree h.apart (fun i hi => erasedOthers_subset hi) (fun a line b loc hls' hloc ht => ?_) hls
  exact keepLast_line h.isLast hloc ht fun hidx => h.reworded a line b hls' hidx

theorem KeepsLast.changed (h : KeepsLast pkg thread cpus c ls last) (hth : thread ≠ []) :
    Changed pkg thread [(thread, c)] ls (lastKeptText ls pkg thread cpus last ls) := by
  refine locs_changed h.clashFree hth h.apart (fun i hi => erasedOthers_subset hi) (fun x hx => ?_)
    (fun _ => List.mem_map_of_mem (List.mem_of_getLast? h.isLast)) fun q pre line post loc hls hloc ht =>
      keepLast_line h.isLast hloc ht fun hidx => h.reworded pre line post hls hidx
  rw [List.mem_singleton.mp hx]

/-- What a line of the new text does, compared with the line of the old text it comes from: the same; the same
    with another spec; or what is left of a removed occurrence. -/
inductive KeptRole (pkg thread c : Str) (ls : List Str) (last : ThreadLoc) (pre : List Str) (line : Str) : Role → Prop
  | same (hi : ∀ loc ∈ (targetScan ls pkg).locs thread, loc.idx ≠ pre.length) :
      KeptRole pkg thread c ls last pre line (roleOf (placeAfter pre) line)
  | reworded (hi : pre.length = last.idx) :
      KeptRole pkg thread c ls last pre line ((roleOf (placeAfter pre) line).withSpec c)
  | opens {loc : ThreadLoc} (ht : (thread, loc) ∈ threadOf pkg (lineHere pre line)) (ho : loc.opens = true) :
      KeptRole pkg thread c ls last pre line (.outer (.bareOpen pkg))
  | closes {loc : ThreadLoc} (ht : (thread, loc) ∈ threadOf pkg (lineHere pre line)) (hcl : loc.closed = true) :
      KeptRole pkg thread c ls last pre line .close

theorem editsAt_length {ι : Type} {idx : ι → Nat} {g : ι → Str → List Str} (hg : ∀ e line, (g e line).length ≤ 1)
    (es : List ι) (i : Nat) (line : Str) : (editsAt idx g es i line).length ≤ 1 := by
  unfold editsAt
  cases es.find? fun e => idx e = i with
  | none => exact le_refl 1
  | some e => exact hg e line

theorem keepLast_length (pkg cpus : Str) (last loc : ThreadLoc) (line : Str) :
    (keepLast pkg cpus last loc line).length ≤ 1 := by
  unfold keepLast lineGone
  split
  · exact le_refl 1
  · split
    · exact le_refl 1
    · split <;> simp

/-- An occurrence that opens a block is a single-line rule, one that closes its block stands inside it. -/
theorem opens_threadOf (ht : (thread, loc) ∈ threadOf pkg (lineHere pre line)) (ho : loc.opens = true) :
    ∃ c, roleOf (placeAfter pre) line = .outer (.single pkg thread c true) := by
  rcases mem_threadOf.mp ht with ⟨_, _, _, hloc⟩ | ⟨c, opens, hrole, hloc⟩
  · rw [show loc = _ from hloc] at ho
    cases ho
  · rw [show loc = _ from hloc] at ho
    replace ho : opens = true := ho
    exact ⟨c, by rw [← ho]; exact hrole⟩

theorem closed_threadOf (ht : (thread, loc) ∈ threadOf pkg (lineHere pre line)) (hcl : loc.closed = true) :
    placeAfter pre = .inside pkg ∧ ∃ c, roleOf (placeAfter pre) line = .thread thread c true := by
  rcases mem_threadOf.mp ht with ⟨c, closed, he, hloc⟩ | ⟨_, _, _, hloc⟩
  · rw [show loc = _ from hloc] at hcl
    replace hcl : closed = true := hcl
    obtain ⟨hplace, hrole⟩ := Prod.mk.inj he
    exact ⟨hplace, c, by rw [← hcl]; exact hrole⟩
  · rw [show loc = _ from hloc] at hcl
    cases hcl

/-- What an occurrence leaves behind where its line is not erased. -/
theorem lineGone_role {l : Str} (ht : (thread, loc) ∈ threadOf pkg (lineHere pre line))
    (hl : lineGone pkg loc line = [l]) :
    loc.opens = true ∧ roleOf (placeAfter pre) l = .outer (.bareOpen pkg) ∨
      loc.closed = true ∧ roleOf (placeAfter pre) l = .close := by
  unfold lineGone at hl
  by_cases ho : loc.opens = true
  · rw [if_pos ho] at hl
    obtain rfl := List.singleton_injective hl
    obtain ⟨c, hrole⟩ := opens_threadOf ht ho
    obtain ⟨⟨w, hw⟩, _⟩ := outer_place hrole
    have hparts := single_parts hrole
    refine .inl ⟨ho, ?_⟩
    rw [hw]
    exact roleOf_bareOpenLine hparts.key hparts.noBrace
  · rw [if_neg ho] at hl
    by_cases hcl : loc.closed = true
    · rw [if_pos hcl] at hl
      obtain rfl := List.singleton_injective hl
      refine .inr ⟨hcl, ?_⟩
      rw [(closed_threadOf ht hcl).1]
      exact roleOf_closeLine
    · rw [if_neg hcl] at hl
      cases hl

/-- **One line** of the new text. -/
theorem KeepsLast.role (h : KeepsLast pkg thread cpus c ls last) (hls : ls = pre ++ line :: post)
    {l : Str}
    (hl : editsAt ThreadLoc.idx (keepLast pkg cpus last) ((targetScan ls pkg).locs thread) pre.length line = [l]) :
    KeptRole pkg thread c ls last pre line (roleOf (placeAfter pre) l) := by
  by_cases hi : ∃ loc ∈ (targetScan ls pkg).locs thread, loc.idx = pre.length
  · obtain ⟨loc, hloc, hidx⟩ := hi
    have ht := locs_line h.clashFree hls hloc hidx
    rw [← hidx, editsAt_of_mem (locs_ascending thread) hloc] at hl
    unfold keepLast at hl
    by_cases heq : loc.idx = last.idx
    · rw [if_pos heq] at hl
      obtain rfl := List.singleton_injective hl
      rw [h.reworded pre line post hls (hidx.symm.trans heq)]
      exact .reworded (hidx.symm.trans heq)
    · rw [if_neg heq] at hl
      rcases lineGone_role ht hl with ⟨ho, hrole⟩ | ⟨hcl, hrole⟩
      · rw [hrole]
        exact .opens ht ho
      · rw [hrole]
        exact .closes ht hcl
  · push Not at hi
    rw [editsAt_of_not_mem hi] at hl
    obtain rfl := List.singleton_injective hl
    exact .same hi

/-- **A line of the new text** comes from a line of the old text. -/
theorem KeepsLast.back (h : KeepsLast pkg thread cpus c ls last) {e : Place × Role}
    (he : e ∈ readings (lastKeptText ls pkg thread cpus last ls)) :
    ∃ pre line post, ls = pre ++ line :: post ∧ Follows pkg (placeAfter pre) e.1 ∧
      KeptRole pkg thread c ls last pre line e.2 := by
  obtain ⟨a, l, b, hsplit, rfl⟩ := mem_readings.mp he
  obtain ⟨pre, line, post, hls, rfl, hl⟩ :=
    rewriteFrom_split (editsAt_length (keepLast_length pkg cpus last) _) hsplit
  rw [Nat.zero_add] at hl
  have hfollows := (h.cut pkg hls).place
  refine ⟨pre, line, post, hls, hfollows, ?_⟩
  show KeptRole pkg thread c ls last pre line (roleOf (placeAfter (lastKeptText ls pkg thread cpus last pre)) l)
  rw [← hfollows.role l]
  exact h.role hls hl

/-- **A line of the old text** that is not erased is in the new text. -/
theorem KeepsLast.forth (h : KeepsLast pkg thread cpus c ls last) (hls : ls = pre ++ line :: post)
    {l : Str}
    (hl : editsAt ThreadLoc.idx (keepLast pkg cpus last) ((targetScan ls pkg).locs thread) pre.length line = [l]) :
    ∃ b, lastKeptText ls pkg thread cpus last ls = lastKeptText ls pkg thread cpus last pre ++ l :: b ∧
      roleOf (placeAfter (lastKeptText ls pkg thread cpus last pre)) l = roleOf (placeAfter pre) l := by
  refine ⟨rewriteFrom (editsAt ThreadLoc.idx (keepLast pkg cpus last) ((targetScan ls pkg).locs thread))
    (pre.length + 1) post, ?_, ((h.cut pkg hls).place.role l).symm⟩
  unfold lastKeptText
  conv_lhs => rw [hls, rewriteFrom_append, rewriteFrom_cons, Nat.zero_add, ← hls, hl, List.singleton_append]

theorem Role.singleOf_withSpec (r : Role) : (r.withSpec c).singleOf pkg = r.singleOf pkg := by
  cases r with
  | outer l => cases l <;> rfl
  | _ => rfl

theorem dropLast_before (hlast : ((targetScan ls pkg).locs thread).getLast? = some last)
    (hloc : loc ∈ ((targetScan ls pkg).locs thread).dropLast) : loc.idx < last.idx := by
  obtain ⟨init, hinit⟩ := List.getLast?_eq_some_iff.mp hlast
  have hasc := @locs_ascending ls pkg thread
  rw [hinit] at hloc hasc
  rw [List.dropLast_concat] at hloc
  exact (List.pairwise_append.mp hasc).2.2 loc hloc last (by simp)

/-- A rule header of the new text is one of the old text. -/
theorem KeptRole.rule {r : Role} {c' : Str} {opens : Bool} (hk : KeptRole pkg thread c ls last pre line r)
    (hr : r = .outer (.rule pkg c' opens)) : ∃ c₀, roleOf (placeAfter pre) line = .outer (.rule pkg c₀ opens) := by
  cases hk with
  | same hi => exact ⟨c', hr⟩
  | reworded hi =>
    cases hold : roleOf (placeAfter pre) line with
    | outer l =>
      rw [hold] at hr
      cases l with
      | rule pg c₀ o =>
        simp only [Role.withSpec, OuterLine.withSpec, Role.outer.injEq, OuterLine.rule.injEq] at hr
        obtain ⟨rfl, _, rfl⟩ := hr
        exact ⟨c₀, rfl⟩
      | single => cases hr
      | bareOpen => cases hr
      | pending => cases hr
      | junk => cases hr
    | skip => rw [hold] at hr; cases hr
    | close => rw [hold] at hr; cases hr
    | idle => rw [hold] at hr; cases hr
    | thread => rw [hold] at hr; cases hr
  | opens ht ho => cases hr
  | closes ht hcl => cases hr

/-- A single-line rule of the new text is one of the old text, and none of the occurrences before the last. -/
theorem KeptRole.single {r : Role} (hk : KeptRole pkg thread c ls last pre line r)
    (hlast : ((targetScan ls pkg).locs thread).getLast? = some last) (hs : r.singleOf pkg = true) :
    (roleOf (placeAfter pre) line).singleOf pkg = true ∧
      ∀ loc ∈ ((targetScan ls pkg).locs thread).dropLast, loc.idx ≠ pre.length := by
  cases hk with
  | same hi => exact ⟨hs, fun loc hloc => hi loc (List.dropLast_subset _ hloc)⟩
  | reworded hi =>
    rw [Role.singleOf_withSpec] at hs
    refine ⟨hs, fun loc hloc => ?_⟩
    rw [hi]
    exact (dropLast_before hlast hloc).ne
  | opens ht ho => cases hs
  | closes ht hcl => cases hs

/-- Inside a block of the package, the old text is inside one too. -/
theorem Follows.own {p : Place} (h : Follows q p (.inside q)) : p = .inside q := by
  rcases h with h | ⟨_, w, hw⟩
  · cases h with
    | inside hk => rw [hk.own.mpr rfl]
  · cases hw

/-- **Nothing to normalise is added** by the edit. -/
theorem KeepsLast.noMore (h : KeepsLast pkg thread cpus c ls last) (hth : thread ≠ []) :
    NoMore pkg ls (lastKeptText ls pkg thread cpus last ls) := by
  refine ⟨fun _ => (h.changed hth).clashFree, fun hnone e he => ?_, fun hcl => ?_⟩
  · obtain ⟨pre, line, post, hls, _, hk⟩ := h.back he
    rw [Bool.eq_false_iff]
    intro hs
    have hold := hnone _ (mem_readings.mpr ⟨pre, line, post, hls, rfl⟩)
    rw [(hk.single h.isLast hs).1] at hold
    cases hold
  · obtain ⟨e, he, hin, hout⟩ := ownCloses_iff.mp hcl
    obtain ⟨pre, line, post, hls, hfollows, hrole⟩ := h.back he
    rw [hin] at hfollows hout
    have hplace := hfollows.own
    refine ⟨pre, line, post, hls, hplace, ?_⟩
    generalize e.2 = r at hrole hout
    cases hrole with
    | same hi => rwa [hplace] at hout ⊢
    | reworded hi =>
      rw [nextPlace_withSpec] at hout
      rwa [hplace] at hout ⊢
    | opens ht ho =>
      -- a rule that opens a block stands outside every block
      exfalso
      obtain ⟨_, hsingle⟩ := opens_threadOf ht ho
      obtain ⟨⟨w, hw⟩, _⟩ := outer_place hsingle
      rw [hplace] at hw
      cases hw
    | closes ht hcl =>
      obtain ⟨_, c', hold⟩ := closed_threadOf ht hcl
      rw [hold]
      rfl

/-- A single-line rule that opens a block stays, unless it is an occurrence before the last. -/
theorem KeepsLast.singleOpens (h : KeepsLast pkg thread cpus c ls last)
    (hkept : ∀ loc ∈ ((targetScan ls pkg).locs thread).dropLast, loc.opens = false) (hold : SingleOpens pkg ls) :
    SingleOpens pkg (lastKeptText ls pkg thread cpus last ls) := by
  obtain ⟨e, he, th, c₀, hrole⟩ := hold
  obtain ⟨pre, line, post, hls, rfl⟩ := mem_readings.mp he
  replace hrole : roleOf (placeAfter pre) line = .outer (.single pkg th c₀ true) := hrole
  obtain ⟨l, hl, c₁, hnew⟩ : ∃ l, editsAt ThreadLoc.idx (keepLast pkg cpus last) ((targetScan ls pkg).locs thread)
      pre.length line = [l] ∧ ∃ c₁, roleOf (placeAfter pre) l = .outer (.single pkg th c₁ true) := by
    by_cases hi : ∃ loc ∈ (targetScan ls pkg).locs thread, loc.idx = pre.length
    · obtain ⟨loc, hloc, hidx⟩ := hi
      have ht := locs_line h.clashFree hls hloc hidx
      have ho : loc.opens = true := by
        rcases mem_threadOf.mp ht with ⟨_, _, he, _⟩ | ⟨c', opens, hrole', hloc'⟩
        · rw [(Prod.mk.inj he).2] at hrole
          cases hrole
        · replace hrole' : roleOf (placeAfter pre) line = .outer (.single pkg thread c' opens) := hrole'
          rw [hrole] at hrole'
          obtain ⟨_, _, _, rfl⟩ := OuterLine.single.inj (Role.outer.inj hrole')
          rw [show loc = _ from hloc']
      rcases loc_cases h.isLast hloc with hbefore | rfl
      · rw [hkept loc hbefore] at ho
        cases ho
      · refine ⟨specSwap line cpus, ?_, c, ?_⟩
        · rw [← hidx, editsAt_of_mem (locs_ascending thread) hloc, keepLast, if_pos rfl]
        · rw [h.reworded pre line post hls hidx.symm, hrole]
          rfl
    · push Not at hi
      exact ⟨line, editsAt_of_not_mem hi line, c₀, hrole⟩
  obtain ⟨b, hsplit, hsame⟩ := h.forth hls hl
  exact ⟨_, mem_readings.mpr ⟨_, l, b, hsplit, rfl⟩, th, c₁, hsame.trans hnew⟩

/-- **The opener stays**: single-line rules that were left alone are gone with the edit, or there still is a reason
    to leave them. -/
theorem KeepsLast.opener (h : KeepsLast pkg thread cpus c ls last) (hth : thread ≠ [])
    (halone : (targetScan ls pkg).singles ≠ [] → (∃ i, (targetScan ls pkg).pkgLine = some (.standalone i)) →
      (∀ loc ∈ ((targetScan ls pkg).locs thread).dropLast, loc.opens = false) ∨
        ∀ loc ∈ (targetScan ls pkg).singles, loc ∈ ((targetScan ls pkg).locs thread).dropLast)
    (hleft : LeftAlone (targetScan ls pkg)) :
    (targetScan (lastKeptText ls pkg thread cpus last ls) pkg).singles = [] ∨
      SingleOpens pkg (lastKeptText ls pkg thread cpus last ls) ∨
        ∃ l, (targetScan (lastKeptText ls pkg thread cpus last ls) pkg).pkgLine = some l ∧ l.isStandalone = false := by
  have hc' := (h.changed hth).clashFree
  have hno : ¬ OwnCloses pkg ls := (blockClose_eq_none h.clashFree).mp hleft.1
  have hnone := (blockClose_eq_none hc').mpr fun hcl => hno ((h.noMore hth).closes hcl)
  obtain ⟨hblock, hheader⟩ := targetScan_found pkg hc'
  -- the new text ends inside the block too
  have hplace : placeAfter (lastKeptText ls pkg thread cpus last ls) = .inside pkg := by
    have hfollows := (h.cut pkg ls.append_nil.symm).place
    rw [hleft.place h.clashFree] at hfollows
    obtain ⟨k, hk, halike⟩ := hfollows.inside_exists
    rw [hk, halike.own.mp rfl]
  obtain ⟨o, ho⟩ : ∃ o, (targetScan (lastKeptText ls pkg thread cpus last ls) pkg).blockOpen = some o := by
    by_contra hn
    have hun := hblock.unseen (by simpa [Option.eq_none_iff_forall_ne_some] using hn)
      (lastKeptText ls pkg thread cpus last ls).length
    rw [List.take_length] at hun
    exact hun hplace
  rcases hheader.opener o ho with ⟨th, c', hat⟩ | ⟨l, hl, hst | hop⟩
  · -- a single-line rule opened it
    obtain ⟨a, l, b, hsplit, _, hrole⟩ := hat
    exact .inr (.inl ⟨_, mem_readings.mpr ⟨a, l, b, hsplit, rfl⟩, th, c', hrole⟩)
  · -- a header that stands alone came from one of the old text
    cases l with
    | openInline i => cases hst
    | bareOpen i => cases hst
    | barePending i => cases hst
    | standalone i =>
      obtain ⟨c', a, l, b, hsplit, _, hrole⟩ := hheader.standing _ hl
      obtain ⟨pre, line, post, hls, _, hk⟩ := h.back (mem_readings.mpr ⟨a, l, b, hsplit, rfl⟩)
      obtain ⟨c₀, hold⟩ := hk.rule hrole
      have hfirst : ∃ i, (targetScan ls pkg).pkgLine = some (.standalone i) := by
        have hc := h.clashFree
        rw [hls] at hc hno ⊢
        exact standalone_of_rule hc hno hold
      have hsingle : ∃ loc ∈ (targetScan ls pkg).singles, loc.opens = true := by
        refine hleft.2.resolve_right ?_
        rintro ⟨l', hl', hst'⟩
        obtain ⟨i', hi'⟩ := hfirst
        rw [hi', Option.some.injEq] at hl'
        rw [← hl'] at hst'
        cases hst'
      obtain ⟨loc, hloc, _⟩ := id hsingle
      rcases halone (List.ne_nil_of_mem hloc) hfirst with hkept | hall
      · exact .inr (.inl (h.singleOpens hkept ((singleOpens_iff h.clashFree).mp hsingle)))
      · refine .inl ((singles_nil_iff hc').mpr fun e he => ?_)
        obtain ⟨pre, line, post, hls, _, hk⟩ := h.back he
        rw [Bool.eq_false_iff]
        intro hs
        obtain ⟨hold, hbefore⟩ := hk.single h.isLast hs
        obtain ⟨th, c', opens, hrole⟩ := singleOf_iff.mp hold
        have hmem := (mem_singles_iff h.clashFree).mpr ⟨pre, line, post, th, c', opens, hls, hrole, rfl⟩
        exact hbefore _ (hall _ hmem) rfl
  · refine .inr (.inr ⟨l, hl, ?_⟩)
    cases l with
    | standalone i => cases hop
    | openInline i => rfl
    | bareOpen i => rfl
    | barePending i => rfl

/-- An occurrence states a spec. -/
theorem threadOf_spec (ht : (thread, loc) ∈ threadOf pkg (lineHere pre line)) :
    ∃ c, (roleOf (placeAfter pre) line).spec = some c := by
  rcases mem_threadOf.mp ht with ⟨c, closed, he, _⟩ | ⟨c, opens, hrole, _⟩
  · exact ⟨c, by rw [show roleOf (placeAfter pre) line = _ from (Prod.mk.inj he).2]; rfl⟩
  · exact ⟨c, by rw [show roleOf (placeAfter pre) line = _ from hrole]; rfl⟩

/-- The reworded line is an occurrence, wherever it has come to stand. -/
theorem threadOf_reworded {new : List Str} {l : Str} (ht : (thread, loc) ∈ threadOf pkg (lineHere pre line))
    (hfollows : Follows pkg (placeAfter pre) (placeAfter new))
    (hrole : roleOf (placeAfter new) l = (roleOf (placeAfter pre) line).withSpec c) :
    ∃ loc', (thread, loc') ∈ threadOf pkg (lineHere new l) ∧ loc'.idx = new.length := by
  rcases mem_threadOf.mp ht with ⟨c₀, closed, he, _⟩ | ⟨c₀, opens, hold, _⟩
  · obtain ⟨hplace, hold⟩ := Prod.mk.inj he
    dsimp only at hplace hold
    rw [hplace] at hfollows
    obtain ⟨k, hk, halike⟩ := hfollows.inside_exists
    rw [hold] at hrole
    refine ⟨_, mem_threadOf.mpr (.inl ⟨c, closed, ?_, rfl⟩), rfl⟩
    show (placeAfter new, roleOf (placeAfter new) l) = _
    rw [hrole, hk, halike.own.mp rfl]
    rfl
  · rw [show roleOf (placeAfter pre) line = _ from hold] at hrole
    exact ⟨{ idx := new.length, single := true, closed := false, opens },
      mem_threadOf.mpr (.inr ⟨c, opens, hrole, rfl⟩), rfl⟩

/-- **The last occurrence kept** is the line of the second edit. -/
theorem KeepsLast.lands (h : KeepsLast pkg thread cpus c ls last) (hth : thread ≠ [])
    (hidle : normalizeRuns ls pkg = false)
    (halone : (targetScan ls pkg).singles ≠ [] → (∃ i, (targetScan ls pkg).pkgLine = some (.standalone i)) →
      (∀ loc ∈ ((targetScan ls pkg).locs thread).dropLast, loc.opens = false) ∨
        ∀ loc ∈ (targetScan ls pkg).singles, loc ∈ ((targetScan ls pkg).locs thread).dropLast) :
    ∃ i, Lands pkg thread (lastKeptText ls pkg thread cpus last ls) i ∧
      (lastKeptText ls pkg thread cpus last ls).getD i [] = specSwap (ls.getD last.idx []) cpus := by
  have hlast := List.mem_of_getLast? h.isLast
  obtain ⟨pre, line, post, hls, ht⟩ := (mem_locs_iff h.clashFree).mp hlast
  have hidx : last.idx = pre.length := threadOf_idx ht
  have hedit : editsAt ThreadLoc.idx (keepLast pkg cpus last) ((targetScan ls pkg).locs thread) pre.length line
      = [specSwap line cpus] := by
    rw [← hidx, editsAt_of_mem (locs_ascending thread) hlast, keepLast, if_pos rfl]
  obtain ⟨b, hsplit, hsame⟩ := h.forth hls hedit
  rw [h.reworded pre line post hls hidx.symm] at hsame
  obtain ⟨loc', ht', hidx'⟩ := threadOf_reworded ht (h.cut pkg hls).place hsame
  have hget : ls.getD last.idx [] = line := by rw [hidx, hls, getD_after]
  refine ⟨_, ⟨(h.noMore hth).idle h.clashFree hidle (h.opener hth halone), ?_, fun hn => absurd hn hth,
    fun _ => ⟨loc', one_occurrence hth (h.changed hth) hsplit ht', hidx'⟩⟩, ?_⟩
  · rw [hsplit]
    simp
  · rw [hget, hsplit, getD_after]

end AppOptR
