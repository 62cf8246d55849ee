import AppOptR.RuleEdit.Correctness.ScanAgain
import AppOptR.RuleEdit.Correctness.UpsertPackage

/-!
# `RuleEdit.Correctness.HeaderAgain` — the package rule set a second time

`Lands` says what every successful `rule_upsert` leaves behind: a text that has nothing to normalise, and one
line that the same call takes for its own. The second call swaps the spec of that line and does nothing else
(`Lands.again`). Here this is shown of the package half, whose line is the first header; each of its five
branches leaves a header that states the rule (`header_lands`).
-/

namespace AppOptR

open Text

variable {pkg thread cpus line c : Str} {ls ls' pre post : List Str} {topo : CpuTopology} {i : Nat} {opens : Bool}

/-! ## The line of the second call -/

/-- A second edit of these lines has nothing to normalise, and swaps the spec of line `i`. -/
structure Lands (pkg thread : Str) (ls : List Str) (i : Nat) : Prop where
  idle : normalizeRuns ls pkg = false
  lt : i < ls.length
  header : thread = [] → statingLine (targetScan ls pkg) = [i]
  occurrence : thread ≠ [] → ∃ loc, (targetScan ls pkg).locs thread = [loc] ∧ loc.idx = i

/-- The package half, where the first header states the rule. -/
theorem upsertPackage_stated {t : Target} (h : statingLine t = [i]) :
    upsertPackage ls t pkg cpus = .ok (ls.set i (specSwap (ls.getD i []) cpus)) := by
  unfold statingLine at h
  unfold upsertPackage
  cases hl : t.pkgLine with
  | none =>
    rw [hl] at h
    cases h
  | some l =>
    rw [hl] at h
    cases l with
    | standalone j =>
      obtain rfl := List.singleton_injective h
      rfl
    | openInline j =>
      obtain rfl := List.singleton_injective h
      rfl
    | bareOpen j => cases h
    | barePending j => cases h

/-- **The second edit.** -/
theorem Lands.again (h : Lands pkg thread ls i) :
    upsertLines pkg thread cpus ls = .ok (ls.set i (specSwap (ls.getD i []) cpus)) := by
  unfold upsertLines
  rw [normalizeSingles_idle h.idle]
  dsimp only
  by_cases hth : thread = []
  · rw [if_pos (by simpa using hth)]
    exact upsertPackage_stated (h.header hth)
  · obtain ⟨loc, hlocs, rfl⟩ := h.occurrence hth
    rw [if_neg (by simpa using hth), upsertThread, hlocs]
    rfl

theorem set_eq_iff (h : i < ls.length) : ls.set i line = ls ↔ line = ls.getD i [] := by
  have hget : ls.getD i [] = ls.get ⟨i, h⟩ := by simp [h]
  constructor
  · intro heq
    have := congrArg (fun l => l.getD i []) heq
    simpa [h] using this
  · rintro rfl
    rw [hget]
    exact List.set_getElem_self h

/-- **The second edit changes nothing** exactly when the spec is one word. -/
theorem Lands.fixed (h : Lands pkg thread ls i) (hw : SpecWritten cpus (ls.getD i [])) (hc : Spec topo cpus) :
    upsertLines pkg thread cpus ls = .ok ls ↔ OneWord cpus := by
  rw [h.again, Except.ok.injEq, set_eq_iff h.lt]
  exact hw.swap_again hc

/-! ## A header that states the rule -/

theorem uneventful_outer {w : Option Str} {l : OuterLine} (hl : l ≠ .bareOpen [])
    (hs : (Role.outer l).singleOf pkg = false) : Uneventful pkg (.outside w, .outer l) :=
  ⟨fun h => hl (Role.outer.inj h), hs, fun h => by cases h⟩

theorem uneventful_skip {e : Place × Role} (h : e.2 = .skip) : Uneventful pkg e := by
  obtain ⟨p, r⟩ := e
  dsimp only at h
  subst h
  exact ⟨by simp, rfl, fun hp => hp⟩

/-- **A rule header where the first one stood**, or in front of it, is the line of the second edit. -/
theorem header_lands {rest : List Str} (hc : ClashFree (pre ++ rest))
    (hidle : normalizeRuns (pre ++ rest) pkg = false)
    (hfirst : ∀ l, (targetScan (pre ++ rest) pkg).pkgLine = some l → pre.length ≤ l.idx)
    (hmore : NoMore pkg (pre ++ rest) (pre ++ line :: post))
    (hrole : roleOf (placeAfter pre) line = .outer (.rule pkg c opens))
    (hopener : opens = false → LeftAlone (targetScan (pre ++ rest) pkg) → SingleOpens pkg (pre ++ line :: post)) :
    Lands pkg [] (pre ++ line :: post) pre.length := by
  have hline := header_found (hmore.clashFree hc) (scan_pkgLine_above hc hfirst) hrole
  refine ⟨hmore.idle hc hidle fun hleft => .inr ?_, by simp, fun _ => ?_, fun h => absurd rfl h⟩
  · cases opens with
    | true => exact .inr ⟨_, hline, rfl⟩
    | false => exact .inl (hopener rfl hleft)
  · unfold statingLine
    rw [hline]
    cases opens <;> rfl

/-- The header of the scan stands where the scan says, and none above it. -/
theorem first_header {l : PkgLine} (hl : (targetScan ls pkg).pkgLine = some l) (hi : l.idx = i) (hlt : i < ls.length) :
    ∀ l', (targetScan ls pkg).pkgLine = some l' → (ls.take i).length ≤ l'.idx := by
  intro l' hl'
  rw [hl, Option.some.injEq] at hl'
  rw [← hl', hi, List.length_take]
  omega

/-- **A header whose spec is swapped.** -/
theorem swapped_lands (hc : ClashFree ls) (hidle : normalizeRuns ls pkg = false)
    (hspec : Spec topo cpus) (hi : statingLine (targetScan ls pkg) = [i])
    (hkeeps : ∀ e ∈ outlineAt ls, e.1 ∈ statingLine (targetScan ls pkg) → SwapKeeps (ls.getD e.1 []) e.2.2) :
    Lands pkg [] (ls.set i (specSwap (ls.getD i []) cpus)) i ∧
      SpecWritten cpus ((ls.set i (specSwap (ls.getD i []) cpus)).getD i []) := by
  obtain ⟨l, c₀, hl, hidx, hat⟩ := stating_header hc hi
  obtain ⟨opens, hst⟩ : ∃ opens, l.isStandalone = !opens := ⟨!l.isStandalone, by simp⟩
  rw [hst, Bool.not_not] at hat
  obtain ⟨hlt, hsplit, hrole⟩ := hat.split
  obtain ⟨place, he⟩ := lineAt_iff.mp hat
  have hk : SwapKeeps (ls.getD i []) (.outer (.rule pkg c₀ opens)) :=
    hkeeps _ he (by rw [hi]; exact List.mem_singleton_self i)
  have hspec₀ : (roleOf (placeAfter (ls.take i)) (ls.getD i [])).spec = some c₀ := by
    rw [hrole]
    rfl
  obtain ⟨c, hnew⟩ := roleOf_swapped hspec₀ (by rwa [hrole]) hspec
  rw [hrole] at hnew
  replace hnew : roleOf (placeAfter (ls.take i)) (specSwap (ls.getD i []) cpus) = .outer (.rule pkg c opens) := hnew
  obtain ⟨hshown, heq⟩ := eq_of_spec hspec₀
  refine ⟨?_, by simpa [hlt] using specSwap_written hshown heq hspec⟩
  have hset : ls.set i (specSwap (ls.getD i []) cpus)
      = ls.take i ++ specSwap (ls.getD i []) cpus :: ls.drop (i + 1) := by
    rw [List.set_eq_take_append_cons_drop, if_pos hlt]
  have hlen : (ls.take i).length = i := by
    rw [List.length_take]
    omega
  obtain ⟨w, hw⟩ := (outer_place hrole).1
  -- both lines lead to the same place, and the rest of the text is read from there
  have hstretch : ∀ {a b : Str} {c₁ c₂ : Str} {e : Place × Role},
      roleOf (placeAfter (ls.take i)) a = .outer (.rule pkg c₁ opens) →
      roleOf (placeAfter (ls.take i)) b = .outer (.rule pkg c₂ opens) →
      e ∈ readings (ls.take i ++ b :: ls.drop (i + 1)) →
      e ∈ readings (ls.take i ++ a :: ls.drop (i + 1)) ∨ e = (.outside w, .outer (.rule pkg c₂ opens)) := by
    intro a b c₁ c₂ e ha hb he
    have hplace : placeFrom (placeAfter (ls.take i)) [b] = placeFrom (placeAfter (ls.take i)) [a] := by
      rw [placeFrom_cons, placeFrom_cons, ha, hb]
      rfl
    refine (@readings_stretch (ls.take i) (ls.drop (i + 1)) [a] [b] e hplace he).imp id fun h => ?_
    have h' : e ∈ [(placeAfter (ls.take i), roleOf (placeAfter (ls.take i)) b)] := h
    rw [List.mem_singleton.mp h', hb, hw]
  have hlands := @header_lands pkg (specSwap (ls.getD i []) cpus) c (ls.take i) (ls.drop (i + 1)) opens
    (ls.getD i [] :: ls.drop (i + 1)) (by rwa [← hsplit]) (by rwa [← hsplit])
    (by rw [← hsplit]; exact first_header hl hidx hlt)
    (.of_readings fun e he => (hstretch hrole hnew he).imp id fun h => by
      rw [h]
      exact uneventful_outer (by simp) rfl) hnew ?_
  · rw [hlen] at hlands
    rwa [hset]
  · -- a block left open by a single-line rule is left open in the old text too
    intro ho hleft
    rw [← hsplit] at hleft
    obtain ⟨e, he, th, c', hsingle⟩ : SingleOpens pkg ls := by
      refine (singleOpens_iff hc).mp (hleft.2.resolve_right ?_)
      rintro ⟨l', hl', hst'⟩
      rw [hl, Option.some.injEq] at hl'
      rw [← hl', hst, ho] at hst'
      cases hst'
    rw [hsplit] at he
    rcases hstretch hnew hrole he with he | he
    · exact ⟨e, he, th, c', hsingle⟩
    · rw [he] at hsingle
      cases hsingle

/-! ## A header that is given the rule -/

/-- The written line states its spec. -/
theorem openLine_written {max : Nat} (hn : Name max pkg) (hspec : Spec topo cpus) (old : Str) :
    SpecWritten cpus (withComment (pkg ++ '=' :: cpus ++ [' ', '{']) old) := by
  have hopen : ∀ c ∈ [' ', '{'], valueEnd c = true := by
    intro c hm
    rcases List.mem_cons.mp hm with rfl | hm
    · rfl
    · rw [List.mem_singleton.mp hm]
      rfl
  have h := @pairLine_written cpus (commentTail old) topo [] pkg [' ', '{'] hn.commentFree blank_nil hspec hopen
    (commentTail_cases old)
  rw [withComment_eq]
  simpa using h

/-- **A header that opens a block**, with the spec it is given. -/
theorem bareOpen_lands (hk : Key pkg) (hb : '{' ∉ pkg) (hspec : Spec topo cpus) (hc : ClashFree ls)
    (hidle : normalizeRuns ls pkg = false) (hl : (targetScan ls pkg).pkgLine = some (.bareOpen i)) :
    Lands pkg [] (ls.set i (withComment (pkg ++ '=' :: cpus ++ [' ', '{']) (ls.getD i []))) i := by
  obtain ⟨_, _, _, hat⟩ := (targetScan_found pkg hc).2.standing _ hl
  obtain ⟨hlt, hsplit, hrole⟩ := hat.split
  obtain ⟨⟨w, hw⟩, _⟩ := outer_place hrole
  have hnew := @openLine_role _ _ _ hk hb hspec w (ls.getD i [])
  have hplace : placeFrom (placeAfter (ls.take i)) [withComment (pkg ++ '=' :: cpus ++ [' ', '{']) (ls.getD i [])]
      = placeFrom (placeAfter (ls.take i)) [ls.getD i []] := by
    have hnext : nextPlace (.outside w) (.outer (.bareOpen pkg)) = .inside pkg := by simp [nextPlace, hk.ne]
    rw [placeFrom_cons, placeFrom_cons, hrole, hw, hnew, hnext]
    rfl
  have hmore : NoMore pkg (ls.take i ++ ls.getD i [] :: ls.drop (i + 1))
      (ls.take i ++ withComment (pkg ++ '=' :: cpus ++ [' ', '{']) (ls.getD i []) :: ls.drop (i + 1)) :=
    .of_readings fun e he => (@readings_stretch _ _ [_] [_] e hplace he).imp id fun h => by
      have h' : e ∈ [(placeAfter (ls.take i), roleOf (placeAfter (ls.take i)) _)] := h
      rw [List.mem_singleton.mp h', hw, hnew]
      exact uneventful_outer (by simp) rfl
  have hlands := @header_lands pkg _ cpus (ls.take i) (ls.drop (i + 1)) true (ls.getD i [] :: ls.drop (i + 1))
    (by rwa [← hsplit]) (by rwa [← hsplit]) (by rw [← hsplit]; exact first_header hl rfl hlt) hmore
    (by rw [hw, hnew]) (fun h => by cases h)
  rw [List.length_take, Nat.min_eq_left hlt.le] at hlands
  rwa [List.set_eq_take_append_cons_drop, if_pos hlt]

/-- **A pending header** that has taken the brace to its own line. -/
theorem barePending_lands (hk : Key pkg) (hb : '{' ∉ pkg) (hspec : Spec topo cpus) (hc : ClashFree ls)
    (hidle : normalizeRuns ls pkg = false) (hl : (targetScan ls pkg).pkgLine = some (.barePending i)) {o : Nat}
    (hopen : PendingOpen pkg ls i o) :
    Lands pkg [] ((ls.set i (withComment (pkg ++ '=' :: cpus ++ [' ', '{']) (ls.getD i []))).eraseIdx o) i := by
  obtain ⟨pre, header, mid, brace, post, rfl, rfl, rfl, hheader, hmid, hbrace⟩ := hopen
  obtain ⟨⟨w, hw⟩, _⟩ := outer_place hheader
  rw [getD_after, (pending_merged pre mid post header brace _).2]
  rw [hw] at hheader
  have hstretch := @pending_stretch _ _ _ hk hb hspec _ _ header _ _ hheader hmid hbrace pkg
  have hnew := @openLine_role _ _ _ hk hb hspec w header
  generalize withComment (pkg ++ '=' :: cpus ++ [' ', '{']) header = new at hstretch hnew
  have hsplit : pre ++ header :: (mid ++ brace :: post) = pre ++ ((header :: (mid ++ [brace])) ++ post) := by simp
  have hplace : placeFrom (placeAfter pre) (new :: mid) = placeFrom (placeAfter pre) (header :: (mid ++ [brace])) := by
    rw [hw, hstretch.1.1, hstretch.2.1]
  have hmore : NoMore pkg (pre ++ header :: (mid ++ brace :: post)) (pre ++ new :: (mid ++ post)) := by
    rw [hsplit, ← List.cons_append]
    refine .of_readings fun e he => (readings_stretch hplace he).imp id fun h => ?_
    rw [hw, Mealy.emit_cons, List.mem_append] at h
    rcases h with h | h
    · have h' : e ∈ [(Place.outside w, roleOf (.outside w) new)] := h
      rw [List.mem_singleton.mp h', hnew]
      exact uneventful_outer (by simp) rfl
    · -- the lines between the header and its brace are blank
      have hskip : e.2 = .skip := (blank_lines (q := pkg) _ hmid).2.2.2 _ (List.mem_map_of_mem h)
      exact uneventful_skip hskip
  exact @header_lands pkg _ cpus pre (mid ++ post) true (header :: (mid ++ brace :: post)) hc hidle
    (fun l hl' => by rw [hl, Option.some.injEq] at hl'; rw [← hl']; exact le_refl _) hmore (by rw [hw, hnew])
    fun h => by cases h

/-- **A package line** at the end. -/
theorem packageLine_lands (hk : Key pkg) (hp : PlainName pkg) (hcl : closeLike (pkg ++ ['=']) = false)
    (hspec : Spec topo cpus) (hc : ClashFree ls) (hidle : normalizeRuns ls pkg = false)
    (hl : (targetScan ls pkg).pkgLine = none) (hun : (targetScan ls pkg).unterminated ≠ true) :
    Lands pkg [] (ls ++ [pkg ++ '=' :: cpus]) ls.length := by
  obtain ⟨w, hw⟩ := outside_of_terminated hc hun
  have hrole := @packageLine_role _ _ _ hk hp hcl hspec w
  have hnil := ls.append_nil
  have hmore : NoMore pkg (ls ++ []) (ls ++ [pkg ++ '=' :: cpus]) := by
    rw [hnil]
    refine .of_readings fun e he => ?_
    rw [readings_append, List.mem_append] at he
    refine he.imp id fun h => ?_
    have h' : e ∈ [(placeAfter ls, roleOf (placeAfter ls) (pkg ++ '=' :: cpus))] := h
    rw [List.mem_singleton.mp h', hw, hrole]
    exact uneventful_outer (by simp) rfl
  refine @header_lands pkg _ cpus ls [] false [] (by rwa [hnil]) (by rwa [hnil])
    (fun l hl' => by rw [hnil, hl] at hl'; cases hl') hmore (by rw [hw, hrole]) fun _ hleft => ?_
  rw [hnil] at hleft
  rw [hleft.place hc] at hw
  cases hw

/-! ## The package half -/

/-- **The package half of `rule_upsert`** leaves a header that states the rule. -/
theorem upsertPackage_lands (hn : Name maxPkgLen pkg) (hp : PlainName pkg) (hspec : Spec topo cpus)
    (hc : ClashFree ls) (hidle : normalizeRuns ls pkg = false)
    (hshape : (targetScan ls pkg).singles = [] ∨ (targetScan ls pkg).blockClose = none)
    (hkeeps : ∀ e ∈ outlineAt ls, e.1 ∈ statingLine (targetScan ls pkg) → SwapKeeps (ls.getD e.1 []) e.2.2)
    (h : upsertPackage ls (targetScan ls pkg) pkg cpus = .ok ls') :
    ∃ i, Lands pkg [] ls' i ∧ SpecWritten cpus (ls'.getD i []) := by
  have hk := hn.key
  -- the two headers whose spec is swapped
  have hstated : ∀ i, statingLine (targetScan ls pkg) = [i] →
      ls' = ls.set i (specSwap (ls.getD i []) cpus) → ∃ i, Lands pkg [] ls' i ∧ SpecWritten cpus (ls'.getD i []) := by
    rintro i hi rfl
    exact ⟨i, swapped_lands hc hidle hspec hi hkeeps⟩
  unfold upsertPackage at h
  split at h
  · next i hl => exact hstated i (by simp [statingLine, hl, PkgLine.stating]) (Except.ok.inj h).symm
  · next i hl =>
    obtain ⟨o, hopen, hpend⟩ := header_opens hc hshape hl rfl
    have hread := (barePending_changed hk hp.noOpen hspec hc hpend).1
    rw [hopen] at h
    dsimp only at h
    rw [if_pos hread] at h
    obtain rfl := Except.ok.inj h
    refine ⟨i, barePending_lands hk hp.noOpen hspec hc hidle hl hpend, ?_⟩
    obtain ⟨pre, header, mid, brace, post, rfl, rfl, rfl, _⟩ := hpend
    rw [(pending_merged pre mid post header brace _).2, List.cons_append, getD_after]
    exact openLine_written hn hspec _
  · next i hl => exact hstated i (by simp [statingLine, hl, PkgLine.stating]) (Except.ok.inj h).symm
  · next i hl =>
    obtain rfl := Except.ok.inj h
    obtain ⟨_, _, _, hat⟩ := (targetScan_found pkg hc).2.standing _ hl
    refine ⟨i, bareOpen_lands hk hp.noOpen hspec hc hidle hl, ?_⟩
    rw [List.getD_eq_getElem?_getD, List.getElem?_set_self hat.split.1]
    exact openLine_written hn hspec _
  · next hl =>
    split at h
    · cases h
    next hun =>
    obtain rfl := Except.ok.inj h
    refine ⟨ls.length, packageLine_lands hk hp (hp.blockName hn).2.1 hspec hc hidle hl hun, ?_⟩
    rw [getD_after]
    have hline := @pairLine_written cpus [] topo [] pkg [] hn.commentFree blank_nil hspec (by simp) (.inl rfl)
    simpa using hline

end AppOptR
