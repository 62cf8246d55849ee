import AppOptR.RuleEdit.Correctness.ThreadAgain
import AppOptR.RuleEdit.Renames

/-!
# `RuleEdit.Correctness.NamedHeaders` — empty headers, as the editor takes them

A line `=` is a header to `target_scan` and none to the loader, and a bare `{` under it is where the two part
(`Clash`). An edit scans and does not load; to the editor alone such a text is like any other. Here every empty
header gets a name that is not the package's (`nameHeaders`). The scan does not see the difference
(`targetScan_named`), the edit carries the names along (`normalizeSingles_named`, `upsertPackage_named`,
`upsertThread_named`), and the named text has no clash (`clashFree_named`). So what the clash-free texts teach
about two edits in a row holds of all texts.
-/

namespace AppOptR

open Text

variable {pkg thread cpus l : Str} {ls : List Str} {place : Place} {topo : CpuTopology}

/-! ## The name -/

/-- A name for the headers that have none, other than the package's. -/
def standIn (pkg : Str) : Str := if pkg = ['x'] then ['y'] else ['x']

theorem standIn_ne (pkg : Str) : standIn pkg ≠ pkg := by
  unfold standIn
  split
  · next h =>
    rw [h]
    decide
  · next h => exact fun heq => h heq.symm

theorem standIn_cases (pkg : Str) : standIn pkg = ['x'] ∨ standIn pkg = ['y'] := by
  unfold standIn
  split
  · exact .inr rfl
  · exact .inl rfl

/-- An empty header gets the name; its comment stays. -/
def nameHeader (pkg l : Str) : Str := if core l = ['='] then standIn pkg ++ commentTail l else l

/-- The text with a name in every empty header. -/
def nameHeaders (pkg : Str) (ls : List Str) : List Str := ls.map (nameHeader pkg)

theorem nameHeader_eq (h : core l ≠ ['=']) : nameHeader pkg l = l := if_neg h

theorem solid_char {c : Char} (hc : isWhitespace c = false) : Solid [c] :=
  ⟨by simpa [HeadSolid] using hc, by simpa [LastSolid] using hc, rfl⟩

/-- What is read of an empty header is its new name. -/
theorem core_named (h : core l = ['=']) : core (nameHeader pkg l) = standIn pkg := by
  have hs : Solid (standIn pkg) ∧ standIn pkg ≠ [] := by
    rcases standIn_cases pkg with hx | hx <;> rw [hx] <;> exact ⟨solid_char (by decide), by decide⟩
  rw [nameHeader, if_pos h]
  have hcore := hs.1.core hs.2 blank_nil (commentTail_cases l)
  rwa [List.nil_append] at hcore

theorem parseCore_empty : parseCore ['='] = .pending [] := by decide

/-- A line with an `=` is the same in the named text. -/
theorem nameHeader_of_eq (h : '=' ∈ core (nameHeader pkg l)) : nameHeader pkg l = l := by
  refine nameHeader_eq fun hl => ?_
  rw [core_named hl] at h
  rcases standIn_cases pkg with hx | hx <;> rw [hx] at h <;> revert h <;> decide

/-- A line that states a spec is no empty header. -/
theorem core_ne_of_spec {c : Str} (h : (roleOf place l).spec = some c) : core l ≠ ['='] := by
  intro hl
  obtain ⟨hs, _⟩ := eq_of_spec h
  cases place with
  | outside w =>
    rw [roleOf_outside hs, parseOuter_core, hl, parseCore_empty] at h
    cases h
  | inside o =>
    rw [roleOf_inside hs] at h
    cases hr : insideRole (trim l) with
    | thread k v closed =>
      have := (insideRole_thread.mp hr).2
      rw [hl] at this
      cases this
    | outer r => exact insideRole_ne_outer _ _ hr
    | skip => rw [hr] at h; cases h
    | close => rw [hr] at h; cases h
    | idle => rw [hr] at h; cases h

/-- Nor is a line that opens a block of a package with a name. -/
theorem core_ne_of_bareOpen {k : Str} (h : roleOf place l = .outer (.bareOpen k)) : core l ≠ ['='] := by
  intro hl
  have := (outer_core h).2
  rw [hl, parseCore_empty] at this
  cases this

/-- An empty header is a line `=`. -/
theorem core_of_pending (h : roleOf place l = .outer (.pending [])) : core l = ['='] := by
  obtain ⟨hs, hp⟩ := outer_core h
  have hhead := headSolid_core l
  have hlast := lastSolid_core l
  generalize core l = c at hs hp hhead hlast
  by_cases heq : '=' ∈ c
  · obtain ⟨k, v, rfl, hv⟩ := eq_pair heq
    rw [parseCore_pair hv, parsePair] at hp
    split at hp
    · cases hp
    · split at hp
      · cases hp
      split at hp
      · next hvalue =>
        split at hp
        · cases hp
        next hopens =>
        -- neither the key nor the value has anything but blanks, and the line none at its ends
        have hk : k = [] := by
          by_contra hne
          have htrim : trim k = trimEnd k := HeadSolid.trim_eq hhead.of_append
          have hnil : trimEnd k = [] := htrim ▸ OuterLine.pending.inj hp
          obtain ⟨x, k', rfl⟩ := List.exists_cons_of_ne_nil hne
          have hx := trimEnd_eq_nil.mp hnil x (by simp)
          rw [hhead x rfl] at hx
          cases hx
        have hv' : v = [] := by
          rw [valueText, if_neg hopens, List.isEmpty_iff] at hvalue
          by_contra hne
          have hx := trim_eq_nil.mp hvalue (v.getLast hne) (List.getLast_mem hne)
          rw [hlast (v.getLast hne) (by rw [List.getLast?_append_of_ne_nil _ (by simp),
            List.getLast?_cons, List.getLast?_eq_getLast_of_ne_nil hne]; rfl)] at hx
          cases hx
        rw [hk, hv']
        rfl
      · cases hp
  · rw [parseCore_plain heq] at hp
    split at hp
    · cases hp
    split at hp
    · cases hp
    rw [OuterLine.pending.inj hp] at hs
    cases hs

/-! ## The scan -/

/-- The name opens no block, closes none and states no rule: it waits, as the empty header did. -/
theorem standIn_reads (pkg : Str) : skipped (standIn pkg) = false ∧ closeLike (standIn pkg) = false ∧
    splitCore (standIn pkg) = none ∧ parseCore (standIn pkg) = .pending (standIn pkg) := by
  rcases standIn_cases pkg with hx | hx <;> rw [hx] <;> decide

theorem mem_trim_iff {c : Char} (hc : isWhitespace c = false) {s : Str} : c ∈ trim s ↔ c ∈ s :=
  ⟨fun h => trim_subset s h, fun h => mem_trim_of_mem h hc⟩

/-- Of the line `=` only the comment may hold a brace. -/
theorem close_named (h : core l = ['=']) : '}' ∈ trim (nameHeader pkg l) ↔ '}' ∈ trim l := by
  have hs : skipped (trim l) = false := by
    rw [skipped_core, h]
    rfl
  obtain ⟨w, x, hstrip, hw, _, _, _, hcore⟩ := core_decomp hs
  obtain ⟨w', hw', hx⟩ := trimEnd_decomp x
  have hl : '}' ∈ l ↔ '}' ∈ commentTail l := by
    have hno : ∀ u : Str, Blank u → '}' ∉ u := fun u hu hm => absurd (hu _ hm) (by decide)
    conv_lhs => rw [← stripComment_append_commentTail l, hstrip, hx, ← hcore, h]
    simp [hno w hw, hno w' hw']
  rw [mem_trim_iff (by decide), mem_trim_iff (by decide), hl, nameHeader, if_pos h]
  rcases standIn_cases pkg with hx | hx <;> rw [hx] <;> simp

theorem getD_named (i : Nat) : (nameHeaders pkg ls).getD i [] = nameHeader pkg (ls.getD i []) := by
  rw [nameHeaders, List.getD_eq_getElem?_getD, List.getD_eq_getElem?_getD, List.getElem?_map]
  cases ls[i]? with
  | none => rfl
  | some l => rfl

/-- The second reading of a header line. -/
theorem pending_named (hpkg : pkg ≠ []) (l : Str) :
    parseOuter (trim (nameHeader pkg l)) = .pending pkg ↔ parseOuter (trim l) = .pending pkg := by
  by_cases h : core l = ['=']
  · rw [parseOuter_core, parseOuter_core, core_named h, h, (standIn_reads pkg).2.2.2, parseCore_empty,
      OuterLine.pending.injEq, OuterLine.pending.injEq]
    exact ⟨fun hx => absurd hx (standIn_ne pkg), fun hx => absurd hx.symm hpkg⟩
  · rw [nameHeader_eq h]

/-- **One line of the scan.** -/
theorem scanLine_named (hpkg : pkg ≠ []) (s : ScanState) (l : Str) (i : Nat) :
    scanLine (nameHeaders pkg ls) pkg s (nameHeader pkg l, i) = scanLine ls pkg s (l, i) := by
  obtain ⟨hskip, hclose, hsplit, hparse⟩ := standIn_reads pkg
  by_cases h : core l = ['=']
  · have hs : skipped (trim (nameHeader pkg l)) = skipped (trim l) := by
      rw [skipped_core, skipped_core, core_named h, h, hskip]
      rfl
    have hcl : closeLike (trim (nameHeader pkg l)) = closeLike (trim l) := by
      rw [closeLike_core, closeLike_core, core_named h, h, hclose]
      rfl
    have hrule : splitRuleLine (trim (nameHeader pkg l)) = none ∧ splitRuleLine (trim l) = none := by
      rw [splitRuleLine_core, splitRuleLine_core, core_named h, h, hsplit]
      exact ⟨rfl, rfl⟩
    simp only [scanLine, hs, hcl, hrule.1, hrule.2, close_named h, parseOuter_core, core_named h, h, hparse,
      parseCore_empty]
  · rw [nameHeader_eq h]
    simp only [scanLine, getD_named, pending_named hpkg]

/-- **The scan does not see the names.** -/
theorem targetScan_named (hpkg : pkg ≠ []) (ls : List Str) :
    targetScan (nameHeaders pkg ls) pkg = targetScan ls pkg := by
  have hrun : ∀ pre, scanPrefix (nameHeaders pkg ls) pkg (nameHeaders pkg pre) = scanPrefix ls pkg pre := by
    intro pre
    induction pre using List.reverseRecOn with
    | nil => rfl
    | append_singleton pre line ih =>
      have hsplit : nameHeaders pkg (pre ++ [line]) = nameHeaders pkg pre ++ [nameHeader pkg line] := by
        simp [nameHeaders]
      have hlen : (nameHeaders pkg pre).length = pre.length := List.length_map _
      rw [hsplit, scanPrefix_concat, scanPrefix_concat, ih, hlen]
      exact scanLine_named hpkg _ _ _
  unfold targetScan
  rw [hrun ls]

/-- An empty header waits only behind an empty header. -/
theorem nextPlace_empty {r : Role} (h : nextPlace place r = .outside (some [])) :
    place = .outside (some []) ∨ r = .outer (.pending []) := by
  cases r with
  | skip => exact .inl h
  | idle => exact .inl h
  | close => cases h
  | thread k v closed => cases closed <;> first | exact .inl h | cases h
  | outer lo =>
    cases lo with
    | pending key =>
      rw [nextPlace, Place.outside.injEq, Option.some.injEq] at h
      exact .inr (by rw [h])
    | junk => cases h
    | single k th c opens => cases opens <;> cases h
    | rule k c opens => cases opens <;> cases h
    | bareOpen k =>
      by_cases hk : k = []
      · subst hk
        rcases place with (_ | key) | owner
        · cases h
        · cases h
        · cases h
      · simp only [nextPlace, ne_eq, hk, not_false_eq_true, if_true] at h
        cases h

/-- **No clash is left**: no header is empty. -/
theorem clashFree_named (pkg : Str) (ls : List Str) : ClashFree (nameHeaders pkg ls) := by
  have hplace : ∀ pre, placeAfter (nameHeaders pkg pre) ≠ .outside (some []) := by
    intro pre
    induction pre using List.reverseRecOn with
    | nil => simp [nameHeaders, placeAfter, Mealy.final, Place.start]
    | append_singleton pre line ih =>
      have hsplit : nameHeaders pkg (pre ++ [line]) = nameHeaders pkg pre ++ [nameHeader pkg line] := by
        simp [nameHeaders]
      rw [hsplit, placeAfter_concat]
      intro hnext
      rcases nextPlace_empty hnext with hp | hr
      · exact ih hp
      · have hcore := core_of_pending hr
        by_cases h : core line = ['=']
        · rw [core_named h] at hcore
          rcases standIn_cases pkg with hx | hx <;> rw [hx] at hcore <;> cases hcore
        · rw [nameHeader_eq h] at hcore
          exact h hcore
  induction ls using List.reverseRecOn with
  | nil => trivial
  | append_singleton ls line ih =>
    have hsplit : nameHeaders pkg (ls ++ [line]) = nameHeaders pkg ls ++ [nameHeader pkg line] := by
      simp [nameHeaders]
    rw [hsplit]
    exact clashFree_concat.mpr ⟨ih, fun hcl => hplace ls hcl.1⟩

/-! ## The rewrites -/

/-- A line put in place carries over, unless it is an empty header itself. -/
theorem set_named (i : Nat) (h : core l ≠ ['=']) :
    (nameHeaders pkg ls).set i l = nameHeaders pkg (ls.set i l) := by
  rw [nameHeaders, nameHeaders, List.map_set, nameHeader_eq h]

theorem chunk_named (pkg : Str) {chunk : List Str} (h : ∀ l ∈ chunk, core l ≠ ['=']) :
    nameHeaders pkg chunk = chunk := by
  rw [nameHeaders]
  conv_rhs => rw [← List.map_id chunk]
  exact List.map_congr_left fun l hl => nameHeader_eq (h l hl)

theorem append_named {chunk : List Str} (h : ∀ l ∈ chunk, core l ≠ ['=']) :
    nameHeaders pkg ls ++ chunk = nameHeaders pkg (ls ++ chunk) := by
  conv_lhs => rw [← chunk_named pkg h]
  exact List.map_append.symm

theorem spliceAt_named (i : Nat) {chunk : List Str} (h : ∀ l ∈ chunk, core l ≠ ['=']) :
    spliceAt (nameHeaders pkg ls) i chunk = nameHeaders pkg (spliceAt ls i chunk) := by
  conv_lhs => rw [← chunk_named pkg h]
  simp [spliceAt, nameHeaders]

/-- The comment stays behind the name. -/
theorem commentTail_named (pkg l : Str) : commentTail (nameHeader pkg l) = commentTail l := by
  by_cases h : core l = ['=']
  · have hplain : commentFind false (standIn pkg) = none := by
      rcases standIn_cases pkg with hx | hx <;> rw [hx] <;> rfl
    have hsolid : trimEnd (standIn pkg) = standIn pkg := by
      rcases standIn_cases pkg with hx | hx <;> rw [hx] <;> decide
    have hstrip : stripComment (standIn pkg ++ commentTail l) = standIn pkg := by
      rw [stripComment_append hplain (commentTail_cases l), hsolid, ite_self]
    have hsplit := stripComment_append_commentTail (standIn pkg ++ commentTail l)
    rw [hstrip] at hsplit
    rw [nameHeader, if_pos h]
    exact List.append_cancel_left hsplit
  · rw [nameHeader_eq h]

theorem withComment_named (new l : Str) : withComment new (nameHeader pkg l) = withComment new l := by
  rw [withComment_eq, withComment_eq, commentTail_named]

/-- A brace that is left behind is no header. -/
theorem core_closer (old : Str) : core (withComment ['}'] old) ≠ ['='] := by
  rw [withComment_eq]
  have hcore := (solid_char (c := '}') (by decide)).core (by decide) blank_nil (commentTail_cases old)
  rw [List.nil_append] at hcore
  rw [hcore]
  decide

theorem core_bareOpenLine (hk : Key pkg) (hb : '{' ∉ pkg) (old : Str) :
    core (withComment (bareOpenLine pkg) old) ≠ ['='] := by
  have hrole : roleOf (.outside none) (withComment (bareOpenLine pkg) old) = .outer (.bareOpen pkg) :=
    roleOf_bareOpenLine hk hb
  exact core_ne_of_bareOpen hrole

/-- No removal leaves an empty header behind. -/
theorem lineRemove_named (hk : Key pkg) (hb : '{' ∉ pkg) (loc : ThreadLoc) (ls : List Str) :
    lineRemove (nameHeaders pkg ls) pkg loc = nameHeaders pkg (lineRemove ls pkg loc) := by
  unfold lineRemove
  rw [getD_named, withComment_named, withComment_named]
  split
  · exact set_named _ (core_bareOpenLine hk hb _)
  · split
    · exact set_named _ (core_closer _)
    · exact List.eraseIdx_map _ _ _

theorem lineRemoves_named (hk : Key pkg) (hb : '{' ∉ pkg) (locs : List ThreadLoc) (ls : List Str) :
    locs.foldl (fun ls loc => lineRemove ls pkg loc) (nameHeaders pkg ls)
      = nameHeaders pkg (locs.foldl (fun ls loc => lineRemove ls pkg loc) ls) := by
  induction locs generalizing ls with
  | nil => rfl
  | cons loc locs ih => rw [List.foldl_cons, List.foldl_cons, lineRemove_named hk hb, ih]

/-- A line that a rule stands on is the same in the named text. -/
theorem lineAt_named {i : Nat} {r : Role} {c : Str} (h : LineAt (nameHeaders pkg ls) i r) (hr : r.spec = some c) :
    nameHeader pkg (ls.getD i []) = ls.getD i [] := by
  obtain ⟨_, _, hrole⟩ := h.split
  rw [getD_named] at hrole
  exact nameHeader_of_eq (eq_of_spec (hrole ▸ hr)).2

/-- A header that is given a brace stays a rule, whatever becomes of the brace. -/
theorem core_header {w : Option Str} {k c : Str} (h : roleOf (.outside w) l = .outer (.rule k c false)) :
    core (trimEnd l ++ [' ', '{']) ≠ ['='] := by
  cases hcomment : commentAt l with
  | none =>
    have hrole : roleOf (.outside none) (trimEnd l ++ [' ', '{']) = .outer (.rule k c true) :=
      roleOf_headerOpen h hcomment
    exact core_ne_of_spec (c := c) (by rw [hrole]; rfl)
  | some i =>
    have hrole : roleOf (.outside none) (trimEnd l ++ [' ', '{']) = .outer (.rule k c false) :=
      roleOf_headerSwallowed h (by simp [hcomment])
    exact core_ne_of_spec (c := c) (by rw [hrole]; rfl)

/-- The lines of a block are rules. -/
theorem BlockLines.core_ne {texts : List Str} {es : List (Str × Str)} (h : BlockLines pkg texts es) :
    ∀ l ∈ texts, core l ≠ ['='] := by
  obtain ⟨hstays, -, hroles⟩ := h
  induction texts with
  | nil => exact fun l hl => by cases hl
  | cons line texts ih =>
    obtain ⟨hnext, hrest⟩ := StaysIn.cons_iff.mp hstays
    rw [rolesFrom_cons, hnext] at hroles
    obtain ⟨n, c, hrole⟩ := hroles _ (List.mem_cons_self ..)
    intro l hl
    rcases List.mem_cons.mp hl with rfl | hl
    · exact core_ne_of_spec (c := c) (by rw [hrole]; rfl)
    · exact ih hrest (fun r hr => hroles r (List.mem_cons_of_mem _ hr)) l hl

/-! ## Normalising -/

/-- An empty header gives no item. -/
theorem singleItem_named (loc : ThreadLoc) : singleItem (nameHeaders pkg ls) loc = singleItem ls loc := by
  unfold singleItem
  rw [getD_named]
  by_cases h : core (ls.getD loc.idx []) = ['=']
  · have hnamed : stripComment (trim (nameHeader pkg (ls.getD loc.idx []))) = standIn pkg := core_named h
    have hempty : stripComment (trim (ls.getD loc.idx [])) = ['='] := h
    dsimp only
    rw [hnamed, hempty]
    rcases standIn_cases pkg with hx | hx <;> rw [hx] <;> rfl
  · rw [nameHeader_eq h]

theorem singleItems_named (hpkg : pkg ≠ []) (ls : List Str) :
    singleItems (nameHeaders pkg ls) pkg = singleItems ls pkg := by
  unfold singleItems
  rw [targetScan_named hpkg]
  exact List.filterMap_congr fun loc _ => singleItem_named loc

theorem normalizeRuns_named (hpkg : pkg ≠ []) (ls : List Str) :
    normalizeRuns (nameHeaders pkg ls) pkg = normalizeRuns ls pkg := by
  unfold normalizeRuns
  rw [singleItems_named hpkg, targetScan_named hpkg]

theorem pulled_named (hk : Key pkg) (hb : '{' ∉ pkg) (ls : List Str) :
    pulled (nameHeaders pkg ls) pkg = nameHeaders pkg (pulled ls pkg) := by
  unfold pulled
  rw [targetScan_named hk.ne, lineRemoves_named hk hb]

/-- **Normalising carries the names along.** -/
theorem normalizeSingles_named (hk : Key pkg) (hb : '{' ∉ pkg)
    (hsafe : normalizeRuns ls pkg = true → NormalizeSafe (nameHeaders pkg ls) pkg) :
    normalizeSingles (nameHeaders pkg ls) pkg = nameHeaders pkg (normalizeSingles ls pkg) := by
  by_cases hrun : normalizeRuns ls pkg = true
  · have hlines := (singleItems_lines (clashFree_named pkg ls) (hsafe hrun).reads).core_ne
    rw [singleItems_named hk.ne] at hlines
    obtain ⟨loc, locs, hlocs, hnorm⟩ := normalizeSingles_runs hrun
    obtain ⟨loc', locs', hlocs', hnorm'⟩ := normalizeSingles_runs ((normalizeRuns_named hk.ne ls).trans hrun)
    rw [targetScan_named hk.ne, hlocs] at hlocs'
    obtain ⟨rfl, rfl⟩ := List.cons.inj hlocs'
    rw [hnorm, hnorm', pulled_named hk hb, singleItems_named hk.ne]
    have hfound := (targetScan_found pkg (clashFree_named pkg (pulled ls pkg))).2.standing
    have hend : ∀ l ∈ [['}']], core l ≠ ['='] := fun l hl => List.mem_singleton.mp hl ▸ core_closer []
    unfold placeItems
    rw [targetScan_named hk.ne] at hfound ⊢
    dsimp only
    generalize (singleItems ls pkg).map (·.2) = items at hlines
    split
    · exact spliceAt_named _ hlines
    · next i _ hline =>
      obtain ⟨c, hat⟩ := hfound _ hline
      obtain ⟨_, _, hrole⟩ := hat.split
      obtain ⟨⟨w, hw⟩, _⟩ := outer_place hrole
      have hfixed := lineAt_named hat rfl
      rw [getD_named, hfixed] at hrole ⊢
      rw [set_named i (core_header (hw ▸ hrole))]
      exact spliceAt_named _ fun l hl => (List.mem_append.mp hl).elim (hlines l) (hend l)
    · have hlen : (nameHeaders pkg (pulled ls pkg)).length = (pulled ls pkg).length := List.length_map _
      rw [hlen]
      refine spliceAt_named _ fun l hl => ?_
      rcases List.mem_append.mp hl with hl | hl
      · rcases List.mem_append.mp hl with hl | hl
        · exact List.mem_singleton.mp hl ▸ core_bareOpenLine hk hb []
        · exact hlines l hl
      · exact hend l hl
  · have hidle := Bool.eq_false_iff.mpr hrun
    rw [normalizeSingles_idle hidle, normalizeSingles_idle ((normalizeRuns_named hk.ne ls).trans hidle)]

/-! ## The edit -/

theorem withSpec_spec {r : Role} {c : Str} (h : r.spec = some c) (c' : Str) : (r.withSpec c').spec = some c' := by
  cases r with
  | thread k v closed => rfl
  | outer lo =>
    cases lo with
    | rule k v opens => rfl
    | single k th v opens => rfl
    | bareOpen k => cases h
    | pending k => cases h
    | junk => cases h
  | skip => cases h
  | close => cases h
  | idle => cases h

/-- A line whose spec is swapped is the same in the named text, before and behind the swap. -/
theorem swapped_named {i : Nat} {r : Role} {c : Str} (h : LineAt (nameHeaders pkg ls) i r) (hr : r.spec = some c)
    (hk : SwapKeeps ((nameHeaders pkg ls).getD i []) r) (hspec : Spec topo cpus) :
    (nameHeaders pkg ls).set i (specSwap ((nameHeaders pkg ls).getD i []) cpus)
      = nameHeaders pkg (ls.set i (specSwap (ls.getD i []) cpus)) := by
  obtain ⟨_, _, hrole⟩ := h.split
  have hfixed := lineAt_named h hr
  rw [getD_named, hfixed] at hrole hk ⊢
  subst hrole
  obtain ⟨c', hnew⟩ := roleOf_swapped hr hk hspec
  exact set_named i (core_ne_of_spec (hnew ▸ withSpec_spec hr c'))

theorem bareBrace_named (l : Str) :
    parseOuter (trim (nameHeader pkg l)) = .bareOpen [] ↔ parseOuter (trim l) = .bareOpen [] := by
  by_cases h : core l = ['=']
  · rw [parseOuter_core, parseOuter_core, core_named h, h, (standIn_reads pkg).2.2.2, parseCore_empty]
    exact ⟨fun hx => (by cases hx), fun hx => (by cases hx)⟩
  · rw [nameHeader_eq h]

/-- **The package half carries the names along.** -/
theorem upsertPackage_named (hk : Key pkg) (hp : PlainName pkg) (hcl : closeLike (pkg ++ ['=']) = false)
    (hspec : Spec topo cpus)
    (hkeeps : ∀ e ∈ outlineAt (nameHeaders pkg ls), e.1 ∈ statingLine (targetScan ls pkg) →
      SwapKeeps ((nameHeaders pkg ls).getD e.1 []) e.2.2) :
    upsertPackage (nameHeaders pkg ls) (targetScan ls pkg) pkg cpus
      = (upsertPackage ls (targetScan ls pkg) pkg cpus).map (nameHeaders pkg) := by
  have hopen : ∀ old, core (withComment (pkg ++ '=' :: cpus ++ [' ', '{']) old) ≠ ['='] := fun old =>
    core_ne_of_spec (c := cpus) (by rw [openLine_role hk hp.noOpen hspec none old]; rfl)
  -- the two headers whose spec is swapped
  have hswap : ∀ i, statingLine (targetScan ls pkg) = [i] →
      (nameHeaders pkg ls).set i (specSwap ((nameHeaders pkg ls).getD i []) cpus)
        = nameHeaders pkg (ls.set i (specSwap (ls.getD i []) cpus)) := by
    intro i hi
    have hi' := hi
    rw [← targetScan_named hk.ne] at hi'
    obtain ⟨l, c, _, _, hat⟩ := stating_header (clashFree_named pkg ls) hi'
    obtain ⟨place, he⟩ := lineAt_iff.mp hat
    exact swapped_named hat rfl (hkeeps _ he (by rw [hi]; exact List.mem_singleton_self i)) hspec
  unfold upsertPackage
  cases hline : (targetScan ls pkg).pkgLine with
  | none =>
    dsimp only
    split
    · rfl
    · have hnew := packageLine_role hk hp hcl hspec none
      refine congrArg Except.ok (append_named fun l hl => ?_)
      rw [List.mem_singleton.mp hl]
      exact core_ne_of_spec (c := cpus) (by rw [hnew]; rfl)
  | some l =>
    cases l with
    | standalone i => exact congrArg Except.ok (hswap i (by simp [statingLine, hline, PkgLine.stating]))
    | openInline i => exact congrArg Except.ok (hswap i (by simp [statingLine, hline, PkgLine.stating]))
    | bareOpen i =>
      dsimp only
      rw [getD_named, withComment_named]
      exact congrArg Except.ok (set_named i (hopen _))
    | barePending i =>
      dsimp only
      rw [getD_named, withComment_named, set_named i (hopen _)]
      cases (targetScan ls pkg).blockOpen with
      | none => rfl
      | some o =>
        dsimp only
        rw [getD_named]
        simp only [bareBrace_named]
        split
        · exact congrArg Except.ok (List.eraseIdx_map _ _ _)
        · rfl

/-- **The thread half carries the names along.** -/
theorem upsertThread_named (hk : Key pkg) (hp : PlainName pkg) (hnt : Name maxThreadLen thread)
    (hpt : PlainName thread) (hspec : Spec topo cpus)
    (hkeeps : ∀ last, ((targetScan ls pkg).locs thread).getLast? = some last →
      ∀ e ∈ outlineAt (nameHeaders pkg ls), e.1 = last.idx → SwapKeeps ((nameHeaders pkg ls).getD e.1 []) e.2.2) :
    upsertThread (nameHeaders pkg ls) (targetScan ls pkg) pkg thread cpus
      = (upsertThread ls (targetScan ls pkg) pkg thread cpus).map (nameHeaders pkg) := by
  have hc := clashFree_named pkg ls
  have hscan := targetScan_named hk.ne ls
  have hrule : core ('\t' :: thread ++ '=' :: cpus) ≠ ['='] :=
    (@threadLine_block pkg _ _ _ _ hpt hnt hspec).core_ne _ (List.mem_singleton_self _)
  have hend : core ['}'] ≠ ['='] := core_closer []
  unfold upsertThread
  dsimp only
  cases hlast : ((targetScan ls pkg).locs thread).getLast? with
  | some last =>
    dsimp only
    obtain ⟨pre, line, post, hls, ht⟩ := (mem_locs_iff hc).mp (hscan.symm ▸ List.mem_of_getLast? hlast)
    obtain ⟨c, hc₀⟩ := threadOf_spec ht
    have hidx : last.idx = pre.length := threadOf_idx ht
    have hat : LineAt (nameHeaders pkg ls) last.idx (roleOf (placeAfter pre) line) :=
      ⟨pre, line, post, hls, hidx.symm, rfl⟩
    obtain ⟨place, he⟩ := lineAt_iff.mp hat
    rw [swapped_named hat hc₀ (hkeeps last hlast _ he rfl) hspec]
    exact congrArg Except.ok (lineRemoves_named hk hp.noOpen _ _)
  | none =>
    dsimp only
    have hfound := (targetScan_found pkg hc).2.standing
    rw [hscan] at hfound
    split
    · exact congrArg Except.ok (spliceAt_named _ fun l hl => List.mem_singleton.mp hl ▸ hrule)
    · next i _ hline =>
      obtain ⟨c, hat⟩ := hfound _ hline
      obtain ⟨_, _, hrole⟩ := hat.split
      obtain ⟨⟨w, hw⟩, _⟩ := outer_place hrole
      have hfixed := lineAt_named hat rfl
      rw [getD_named, hfixed] at hrole ⊢
      rw [set_named i (core_header (hw ▸ hrole))]
      refine congrArg Except.ok (spliceAt_named _ fun l hl => ?_)
      rcases List.mem_pair.mp hl with rfl | rfl
      · exact hrule
      · exact hend
    · split
      · rfl
      · refine congrArg Except.ok (append_named fun l hl => ?_)
        simp only [List.mem_cons, List.not_mem_nil, or_false] at hl
        rcases hl with rfl | rfl | rfl
        · exact core_bareOpenLine hk hp.noOpen []
        · exact hrule
        · exact hend

end AppOptR
