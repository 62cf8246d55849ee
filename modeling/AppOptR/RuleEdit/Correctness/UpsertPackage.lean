import AppOptR.RuleMatch
import AppOptR.RuleEdit.Correctness.UpsertThread

/-!
# `RuleEdit.Correctness.UpsertPackage` — `rule_upsert` sets the package rule

Without a thread `rule_upsert` works on the first header of the package alone: it rewrites its spec, gives it
one, or writes a line at the end. What other lines of the file say about the package stays in force beside it
(`leftover`), and `thread_affinity` takes the union.
-/

namespace AppOptR

open Text

variable {q pkg thread cpus c₀ : Str} {ls ls' : List Str} {topo : CpuTopology} {i : Nat} {D : List Nat}
  {es : List (Str × Str)} {opens : Bool}

/-! ## One header line -/

/-- The line of a header, if it states a rule of the package. -/
def PkgLine.stating : PkgLine → List Nat
  | .standalone i | .openInline i => [i]
  | .bareOpen _ | .barePending _ => []

/-- The line whose package-level rule the editor works on: the first header, if it states one. -/
def statingLine (t : Target) : List Nat := (t.pkgLine.map PkgLine.stating).getD []

/-- **An edit of one line** that states a package-level rule. -/
theorem line_changed {f : Str → List Str} (hc : ClashFree ls)
    (hat : LineAt ls i (.outer (.rule pkg c₀ opens))) (hb : ¬ Bridged ls D) (hD : ∀ j ∈ D, j = i)
    (hes : ∀ x ∈ es, x.1 = [])
    (hline : ∀ q pre, pre.length = i →
      roleOf (placeAfter pre) (ls.getD i []) = .outer (.rule pkg c₀ opens) →
      CutLine q (restated pkg q [i] i es) (fun _ => True) D pre (ls.getD i []) (f (ls.getD i []))) :
    Changed pkg [] (es ++ leftover ls pkg [] [i]) ls (replaceAt ls i f) := by
  obtain ⟨hlt, _, _⟩ := hat.split
  have hrun : replaceAt ls i f = rewriteFrom (editsAt id (fun _ => f) [i]) 0 ls :=
    @edits_run Nat id (fun _ => f) [i] (fun ls j => replaceAt ls j f) _ (fun _ _ _ => rfl)
      (List.pairwise_singleton _ _) (by simpa using hlt)
  rw [hrun]
  refine Changed.of_cut (D := D) (k := i) (fun q => Cut.start.run fun pre line post hls => ?_) hes
    (fun e he hi => ?_) fun _ => ⟨List.mem_singleton_self i, hlt⟩
  · rw [List.length_nil, Nat.zero_add, List.nil_append]
    by_cases hi : pre.length = i
    · have hget : ls.getD i [] = line := by rw [hls, ← hi, getD_after]
      have hrole : roleOf (placeAfter pre) line = .outer (.rule pkg c₀ opens) :=
        @LineAt.unique ls _ _ _ ⟨pre, line, post, hls, hi, rfl⟩ hat
      have hedit : editsAt id (fun _ => f) [i] pre.length line = f line := by
        rw [hi]
        exact @editsAt_of_mem _ id (fun _ => f) _ (List.pairwise_singleton _ _) _ (List.mem_singleton_self i) line
      rw [hedit, ← hget]
      exact hline q pre hi (by rw [hget, hrole])
    · rw [editsAt_of_not_mem fun j hj hji => hi ((List.mem_singleton.mp hj ▸ hji).symm)]
      refine .of_not_bridged hb hls hc (fun hd => hi (hD _ hd)) trivial (if_neg ?_)
      simpa using hi
  · obtain ⟨pre, line, post, hls, rfl⟩ := mem_outlineAt.mp he
    have hrole : roleOf (placeAfter pre) line = .outer (.rule pkg c₀ opens) :=
      @LineAt.unique ls _ _ _ ⟨pre, line, post, hls, List.mem_singleton.mp hi, rfl⟩ hat
    exact ⟨c₀, by rw [hrole]; rfl⟩

/-- **A rewritten spec.** -/
theorem specLine_changed (hc : ClashFree ls) (hat : LineAt ls i (.outer (.rule pkg c₀ opens)))
    (hfree : BraceFree c₀) (hspec : Spec topo cpus) :
    Changed pkg [] (([], cpus) :: leftover ls pkg [] [i]) ls (ls.set i (specSwap (ls.getD i []) cpus)) := by
  obtain ⟨hlt, _, _⟩ := hat.split
  rw [set_eq_replaceAt hlt fun line => specSwap line cpus]
  refine @line_changed _ _ _ _ [] [([], cpus)] _ _ hc hat not_bridged_nil (by simp) (by simp) fun q pre hlen hrole => ?_
  refine @CutLine.respec _ pkg [] _ _ _ _ _ _ c₀ (by rw [hrole]; rfl) ?_ hspec ?_
  · rw [hrole]
    exact hfree
  · simp [restated, hlen]

/-! ## A header without a spec -/

theorem openLine_role (hk : Key pkg) (hb : '{' ∉ pkg) (hspec : Spec topo cpus) (w : Option Str) (old : Str) :
    roleOf (.outside w) (withComment (pkg ++ '=' :: cpus ++ [' ', '{']) old) = .outer (.rule pkg cpus true) :=
  roleOf_openLine hk hb hspec.solid hspec.ne (hspec.unmarked.not_mem (by decide))

theorem packageLine_role (hk : Key pkg) (hp : PlainName pkg) (hcl : closeLike (pkg ++ ['=']) = false)
    (hspec : Spec topo cpus) (w : Option Str) :
    roleOf (.outside w) (pkg ++ '=' :: cpus) = .outer (.rule pkg cpus false) := by
  refine roleOf_packageLine hk hp.noOpen hcl hspec.solid hspec.ne (hspec.unmarked.not_mem (by decide)) ?_
  have hno : '{' ∉ cpus := hspec.unmarked.not_mem (by decide)
  simp only [valueOpens, decide_eq_false_iff_not]
  exact fun hlast => hno (List.mem_of_getLast? hlast)

/-- **A header that opens a block** gets a spec. -/
theorem bareOpen_changed (hk : Key pkg) (hb : '{' ∉ pkg) (hspec : Spec topo cpus) (hc : ClashFree ls)
    (hat : LineAt ls i (.outer (.bareOpen pkg))) :
    Changed pkg [] (([], cpus) :: leftover ls pkg [] []) ls
      (ls.set i (withComment (pkg ++ '=' :: cpus ++ [' ', '{']) (ls.getD i []))) := by
  obtain ⟨hlt, hsplit, hrole⟩ := hat.split
  obtain ⟨⟨w, hw⟩, _⟩ := outer_place hrole
  have hnew : roleOf (.outside w) (withComment (pkg ++ '=' :: cpus ++ [' ', '{']) (ls.getD i []))
      = .outer (.rule pkg cpus true) := openLine_role hk hb hspec w _
  have hg := @gains_splice pkg (ls.take i) (ls.drop (i + 1)) [ls.getD i []]
    [withComment (pkg ++ '=' :: cpus ++ [' ', '{']) (ls.getD i [])] [([], cpus)]
    (by rwa [List.singleton_append, ← hsplit])
  rw [hw] at hg hrole
  have hnext : nextPlace (.outside w) (.outer (.bareOpen pkg)) = .inside pkg := by simp [nextPlace, hk.ne]
  have hgain := hg (by rw [placeFrom_cons, placeFrom_cons, hnew, hrole, hnext]; rfl) ?_ (fun q => ?_) ?_
  · rw [List.singleton_append, List.singleton_append, ← hsplit] at hgain
    rw [leftover_nil, List.set_eq_take_append_cons_drop, if_pos hlt]
    exact hgain.changed
  · exact ⟨fun hcl => (by rw [Clash, hnew] at hcl; cases hcl.2), trivial⟩
  · rw [seen_cons, seen_cons, hnew, hrole, seen_nil, seen_nil]
    by_cases hq : pkg = q <;> simp [entriesFor, entry, hq]
  · intro r hr
    rw [rolesFrom_cons, hnew, rolesFrom_nil, List.mem_singleton] at hr
    rw [hr]
    rfl

/-- The lines of a pending header and its brace, and a header that opens the block itself. -/
theorem pending_stretch (hk : Key pkg) (hb : '{' ∉ pkg) (hspec : Spec topo cpus) {header brace old : Str}
    {mid : List Str} {w : Option Str} (hheader : roleOf (.outside w) header = .outer (.pending pkg))
    (hmid : ∀ l ∈ mid, skipped (trim l) = true)
    (hbrace : roleOf (.outside (some pkg)) brace = .outer (.bareOpen [])) (q : Str) :
    (placeFrom (.outside w) (header :: (mid ++ [brace])) = .inside pkg ∧
        seen q (.outside w) (header :: (mid ++ [brace])) = []) ∧
      placeFrom (.outside w) (withComment (pkg ++ '=' :: cpus ++ [' ', '{']) old :: mid) = .inside pkg ∧
      seen q (.outside w) (withComment (pkg ++ '=' :: cpus ++ [' ', '{']) old :: mid)
        = (if pkg = q then [([], cpus)] else []) ∧
      ClashFreeFrom (.outside w) (withComment (pkg ++ '=' :: cpus ++ [' ', '{']) old :: mid) ∧
      ∀ r ∈ rolesFrom (.outside w) (withComment (pkg ++ '=' :: cpus ++ [' ', '{']) old :: mid),
        r.singleOf pkg = false := by
  have hnew : roleOf (.outside w) (withComment (pkg ++ '=' :: cpus ++ [' ', '{']) old) = .outer (.rule pkg cpus true) :=
    openLine_role hk hb hspec w old
  -- the blank lines between are passed below the header and inside the block
  obtain ⟨hp, hs, _, _⟩ := blank_lines (q := q) (.outside (some pkg)) hmid
  obtain ⟨hp', hs', hc', hr'⟩ := blank_lines (q := q) (.inside pkg) hmid
  have hopen : nextPlace (.outside (some pkg)) (.outer (.bareOpen [])) = .inside pkg := by simp [nextPlace]
  refine ⟨⟨?_, ?_⟩, ?_, ?_, ?_, fun r hr => ?_⟩
  · rw [placeFrom_cons, hheader, placeFrom_append]
    show placeFrom (placeFrom (.outside (some pkg)) mid) [brace] = _
    rw [hp, placeFrom_cons, hbrace, hopen]
    rfl
  · rw [seen_cons, hheader, seen_append]
    show _ ++ (seen q (.outside (some pkg)) mid ++ seen q (placeFrom (.outside (some pkg)) mid) [brace]) = _
    rw [hp, hs, seen_cons, hbrace]
    rfl
  · rw [placeFrom_cons, hnew]
    exact hp'
  · rw [seen_cons, hnew]
    show _ ++ seen q (.inside pkg) mid = _
    rw [hs', List.append_nil]
    by_cases hq : pkg = q <;> simp [entriesFor, entry, hq]
  · rw [clashFreeFrom_cons, hnew]
    exact ⟨fun hcl => (by rw [Clash, hnew] at hcl; cases hcl.2), hc'⟩
  · rw [rolesFrom_cons, hnew] at hr
    rcases List.mem_cons.mp hr with rfl | hr
    · rfl
    · rw [hr' r hr]
      rfl

/-- The header rewritten and its brace removed. -/
theorem pending_merged (pre mid post : List Str) (header brace new : Str) :
    ((pre ++ header :: (mid ++ brace :: post)).set pre.length new).getD (pre.length + 1 + mid.length) [] = brace ∧
      ((pre ++ header :: (mid ++ brace :: post)).set pre.length new).eraseIdx (pre.length + 1 + mid.length)
        = pre ++ (new :: mid ++ post) := by
  have hset : (pre ++ header :: (mid ++ brace :: post)).set pre.length new
      = (pre ++ new :: mid) ++ brace :: post := by simp
  have hlen : (pre ++ new :: mid).length = pre.length + 1 + mid.length := by
    simp only [List.length_append, List.length_cons]
    omega
  rw [hset, ← hlen]
  refine ⟨getD_after brace, ?_⟩
  rw [List.eraseIdx_append_of_length_le (le_refl _)]
  simp

/-- **A pending header** takes the brace that follows it to its own line. -/
theorem barePending_changed (hk : Key pkg) (hb : '{' ∉ pkg) (hspec : Spec topo cpus) (hc : ClashFree ls) {o : Nat}
    (hopen : PendingOpen pkg ls i o) :
    parseOuter (trim ((ls.set i (withComment (pkg ++ '=' :: cpus ++ [' ', '{']) (ls.getD i []))).getD o []))
        = .bareOpen [] ∧
      Changed pkg [] (([], cpus) :: leftover ls pkg [] []) ls
        ((ls.set i (withComment (pkg ++ '=' :: cpus ++ [' ', '{']) (ls.getD i []))).eraseIdx o) := by
  obtain ⟨pre, header, mid, brace, post, rfl, rfl, rfl, hheader, hmid, hbrace⟩ := hopen
  obtain ⟨⟨w, hw⟩, _⟩ := outer_place hheader
  obtain ⟨_, _, hread⟩ := outer_place hbrace
  rw [getD_after]
  generalize hnew : withComment (pkg ++ '=' :: cpus ++ [' ', '{']) header = new
  obtain ⟨hget, herase⟩ := pending_merged pre mid post header brace new
  refine ⟨by rw [hget, hread], ?_⟩
  have hg := @gains_splice pkg pre post (header :: (mid ++ [brace])) (new :: mid) [([], cpus)] (by simpa using hc)
  rw [hw] at hg hheader
  have hstretch := fun q => @pending_stretch _ _ _ hk hb hspec _ _ header _ _ hheader hmid hbrace q
  rw [hnew] at hstretch
  have hgain := hg (by rw [(hstretch pkg).1.1, (hstretch pkg).2.1]) (hstretch pkg).2.2.2.1
    (fun q => by rw [(hstretch q).2.2.1, (hstretch q).1.2, List.nil_append]) (hstretch pkg).2.2.2.2
  rw [herase, leftover_nil]
  have hold : pre ++ header :: (mid ++ brace :: post) = pre ++ ((header :: (mid ++ [brace])) ++ post) := by simp
  rw [hold]
  exact hgain.changed

/-- Where the brace of a pending header stands. -/
theorem PendingOpen.place {o : Nat} (h : PendingOpen pkg ls i o) :
    placeAfter (ls.take o) = .outside (some pkg) ∧ placeAfter (ls.take (o + 1)) = .inside pkg ∧
      LineAt ls o (.outer (.bareOpen [])) := by
  obtain ⟨pre, header, mid, brace, post, hls, hi, ho, hheader, hmid, hbrace⟩ := h
  have hlen : (pre ++ header :: mid).length = o := by
    simp only [List.length_append, List.length_cons]
    omega
  have hsplit : ls = (pre ++ header :: mid) ++ brace :: post := by simp [hls]
  have hwait : placeAfter (pre ++ header :: mid) = .outside (some pkg) := by
    rw [placeAfter_append, placeFrom_cons, hheader]
    exact (blank_lines (q := pkg) (.outside (some pkg)) hmid).1
  refine ⟨by rw [hsplit, List.take_left' hlen, hwait], ?_, ⟨_, brace, post, hsplit, hlen, by rw [hwait, hbrace]⟩⟩
  have htake : ls.take (o + 1) = (pre ++ header :: mid) ++ [brace] := by
    rw [hsplit, List.append_cons, List.take_left' (by rw [List.length_append, hlen, List.length_singleton])]
  rw [htake, placeAfter_concat, hwait, hbrace]
  simp [nextPlace]

theorem StaysIn.take {body : List Str} (h : StaysIn pkg body) (n : Nat) : StaysIn pkg (body.take n) := by
  have := h
  rw [← List.take_append_drop n body] at this
  exact (Mealy.along_append.mp this).1

/-- The place behind a line. -/
theorem LineAt.next {r : Role} (h : LineAt ls i r) :
    placeAfter (ls.take (i + 1)) = nextPlace (placeAfter (ls.take i)) r := by
  obtain ⟨pre, line, post, rfl, rfl, hr⟩ := h
  have htake : (pre ++ line :: post).take (pre.length + 1) = pre ++ [line] := by
    rw [List.append_cons, List.take_left' (by simp)]
  rw [htake, placeAfter_concat, List.take_left' rfl, hr]

/-- Where the block of a header opens. -/
theorem PkgLine.Opens.place {l : PkgLine} {o : Nat} (h : l.Opens pkg ls o) :
    (∃ w, placeAfter (ls.take o) = .outside w) ∧ placeAfter (ls.take (o + 1)) = .inside pkg ∧
      ∀ th c, ¬ LineAt ls o (.outer (.single pkg th c true)) := by
  cases l with
  | standalone i => cases h
  | openInline i =>
    obtain ⟨rfl, c, hat⟩ := h
    exact ⟨(outer_place hat.split.2.2).1, hat.next, fun th c hs => by cases hs.unique hat⟩
  | bareOpen i =>
    obtain ⟨rfl, hpkg, hat⟩ := h
    obtain ⟨w, hw⟩ := (outer_place hat.split.2.2).1
    refine ⟨⟨w, hw⟩, ?_, fun th c hs => by cases hs.unique hat⟩
    rw [hat.next]
    simp [nextPlace, hpkg]
  | barePending i =>
    obtain ⟨hbefore, hafter, hat⟩ := PendingOpen.place h
    exact ⟨⟨_, hbefore⟩, hafter, fun th c hs => by cases hs.unique hat⟩

/-- **The first block is that of the first header**, if that one opens a block and no block before it is opened by
    a single-line rule and closed. -/
theorem header_opens {l : PkgLine} (hc : ClashFree ls)
    (hshape : (targetScan ls pkg).singles = [] ∨ (targetScan ls pkg).blockClose = none)
    (hline : (targetScan ls pkg).pkgLine = some l) (hl : l.isStandalone = false) :
    ∃ o, (targetScan ls pkg).blockOpen = some o ∧ l.Opens pkg ls o := by
  obtain ⟨hblock, hheader⟩ := targetScan_found pkg hc
  cases hopen : (targetScan ls pkg).blockOpen with
  | none =>
    rw [hheader.alone hopen _ hline] at hl
    cases hl
  | some o =>
    refine ⟨o, rfl, ?_⟩
    rcases hheader.opener o hopen with ⟨th, c, hat⟩ | ⟨l', hl', hst | hop⟩
    · exfalso
      obtain ⟨pre, line, post, hls, hlen, hrole⟩ := id hat
      -- a single-line rule cannot have opened it
      rcases hshape with hnil | hnone
      · have hmem := (mem_singles_iff hc).mpr ⟨pre, line, post, th, c, true, hls, hrole, rfl⟩
        rw [hnil] at hmem
        cases hmem
      · -- an unclosed block has no other block of the package above it or below
        obtain ⟨o', hopens⟩ : ∃ o', l.Opens pkg ls o' := by
          have hstands := hheader.standing _ hline
          cases l with
          | standalone i => cases hl
          | openInline i => exact hstands
          | bareOpen i => exact hstands
          | barePending i => exact hstands
        obtain ⟨⟨w, hbefore⟩, hafter, hbrace⟩ := hopens.place
        obtain ⟨pre', opener, body, hls', hlen', _, hnext, hstays, hunseen⟩ := hblock.opened o hopen hnone
        rcases Nat.lt_trichotomy o' o with hlt | rfl | hgt
        · refine hunseen (o' + 1) ?_
          rw [← hafter, hls', List.take_append_of_le_length (by omega)]
        · exact hbrace th c hat
        · have htake : ls.take o' = pre' ++ opener :: body.take (o' - o - 1) := by
            have hlen'' : o' = pre'.length + (o' - o - 1 + 1) := by omega
            rw [hls']
            conv_lhs => rw [hlen'', List.take_length_add_append, List.take_succ_cons]
          have hinside : placeAfter (ls.take o') = .inside pkg := by
            rw [htake, placeAfter_append, placeFrom_cons, hnext]
            exact (hstays.take _).place
          rw [hbefore] at hinside
          cases hinside
    · rw [hline, Option.some.injEq] at hl'
      rw [hl', hst] at hl
      cases hl
    · rw [hline, Option.some.injEq] at hl'
      rwa [hl']

/-! ## The package half -/

/-- Where the edit of the package rule goes well, in the lines as `normalize_singles` leaves them: the spec that
    is overwritten can be found again, and the package-level rules of the other lines (those that `add_rule`
    accepts) have no CPU beyond the new ones. -/
structure PackageEditSafe (topo : CpuTopology) (ls : List Str) (pkg cpus : Str) : Prop where
  swap : ∀ e ∈ outlineAt ls, e.1 ∈ statingLine (targetScan ls pkg) → SwapSafe (ls.getD e.1 []) e.2.2
  covered : ∀ e ∈ leftover ls pkg [] (statingLine (targetScan ls pkg)), ∀ r ∈ ruleView topo pkg e,
    (parseCpuSpec cpus topo).or r.2 = parseCpuSpec cpus topo

/-- The header that states the rule, where there is one. -/
theorem stating_header (hc : ClashFree ls) (hi : statingLine (targetScan ls pkg) = [i]) :
    ∃ l c, (targetScan ls pkg).pkgLine = some l ∧ l.idx = i ∧
      LineAt ls i (.outer (.rule pkg c !l.isStandalone)) := by
  have hheader := (targetScan_found pkg hc).2
  unfold statingLine at hi
  cases hl : (targetScan ls pkg).pkgLine with
  | none =>
    rw [hl] at hi
    cases hi
  | some l =>
    rw [hl] at hi
    cases l with
    | standalone j =>
      obtain rfl := List.singleton_injective hi
      obtain ⟨c, hat⟩ := hheader.standing _ hl
      exact ⟨_, c, rfl, rfl, hat⟩
    | openInline j =>
      obtain rfl := List.singleton_injective hi
      obtain ⟨_, _, c, hat⟩ := hheader.standing _ hl
      exact ⟨_, c, rfl, rfl, hat⟩
    | bareOpen j => cases hi
    | barePending j => cases hi

/-- **The package half of `rule_upsert`.** -/
theorem upsertPackage_changed (hk : Key pkg) (hp : PlainName pkg) (hcl : closeLike (pkg ++ ['=']) = false)
    (hspec : Spec topo cpus) (hc : ClashFree ls)
    (hswap : ∀ e ∈ outlineAt ls, e.1 ∈ statingLine (targetScan ls pkg) → SwapSafe (ls.getD e.1 []) e.2.2)
    (hshape : (targetScan ls pkg).singles = [] ∨ (targetScan ls pkg).blockClose = none)
    (h : upsertPackage ls (targetScan ls pkg) pkg cpus = .ok ls') :
    Changed pkg [] (([], cpus) :: leftover ls pkg [] (statingLine (targetScan ls pkg))) ls ls' := by
  have hheader := (targetScan_found pkg hc).2
  -- the two headers whose spec is swapped
  have hspecLine : ∀ j, statingLine (targetScan ls pkg) = [j] →
      Changed pkg [] (([], cpus) :: leftover ls pkg [] [j]) ls (ls.set j (specSwap (ls.getD j []) cpus)) := by
    intro j hj
    obtain ⟨l, c, _, _, hat⟩ := stating_header hc hj
    obtain ⟨place, he⟩ := lineAt_iff.mp hat
    have hfree : SwapSafe (ls.getD j []) (.outer (.rule pkg c !l.isStandalone)) :=
      hswap _ he (by rw [hj]; exact List.mem_singleton_self j)
    exact specLine_changed hc hat hfree hspec
  unfold upsertPackage at h
  split at h
  · next i hline =>
    obtain rfl := Except.ok.inj h
    have hst : statingLine (targetScan ls pkg) = [i] := by simp [statingLine, hline, PkgLine.stating]
    rw [hst]
    exact hspecLine i hst
  · next i hline =>
    have hst : statingLine (targetScan ls pkg) = [] := by simp [statingLine, hline, PkgLine.stating]
    obtain ⟨o, hopen, hpend⟩ := header_opens hc hshape hline rfl
    obtain ⟨hread, hchanged⟩ := barePending_changed hk hp.noOpen hspec hc hpend
    rw [hopen] at h
    dsimp only at h
    rw [if_pos hread] at h
    obtain rfl := Except.ok.inj h
    rw [hst]
    exact hchanged
  · next i hline =>
    obtain rfl := Except.ok.inj h
    have hst : statingLine (targetScan ls pkg) = [i] := by simp [statingLine, hline, PkgLine.stating]
    rw [hst]
    exact hspecLine i hst
  · next i hline =>
    obtain rfl := Except.ok.inj h
    have hst : statingLine (targetScan ls pkg) = [] := by simp [statingLine, hline, PkgLine.stating]
    obtain ⟨_, _, _, hat⟩ := hheader.standing _ hline
    rw [hst]
    exact bareOpen_changed hk hp.noOpen hspec hc hat
  · next hline =>
    split at h
    · cases h
    next hun =>
    obtain rfl := Except.ok.inj h
    have hst : statingLine (targetScan ls pkg) = [] := by simp [statingLine, hline]
    obtain ⟨w, hw⟩ := outside_of_terminated hc hun
    have hrole : ∀ w, roleOf (.outside w) (pkg ++ '=' :: cpus) = .outer (.rule pkg cpus false) := fun w =>
      packageLine_role hk hp hcl hspec w
    have hchunk : Chunk pkg [pkg ++ '=' :: cpus] [([], cpus)] fun r => r.singleOf pkg = false :=
      packageLine_chunk hrole rfl
    rw [hst, leftover_nil]
    exact (hchunk.gains_end hc hw).changed

/-! ## The file -/

/-- The written lines are lines. -/
theorem upsertPackage_unbroken (hpkg : '\n' ∉ pkg) (hcpus : '\n' ∉ cpus) (hls : Unbroken ls)
    (h : upsertPackage ls (targetScan ls pkg) pkg cpus = .ok ls') : Unbroken ls' := by
  have hheader : ∀ j, '\n' ∉ withComment (pkg ++ '=' :: cpus ++ [' ', '{']) (ls.getD j []) := fun j =>
    withComment_unbroken (pairLine_unbroken hpkg hcpus (by decide)) (hls.getD j)
  unfold upsertPackage at h
  split at h
  · obtain rfl := Except.ok.inj h
    exact hls.set (specSwap_unbroken (hls.getD _) hcpus)
  · dsimp only at h
    split at h
    · obtain rfl := Except.ok.inj h
      split
      · exact (hls.set (hheader _)).eraseIdx
      · exact hls.set (hheader _)
    · obtain rfl := Except.ok.inj h
      exact hls.set (hheader _)
  · obtain rfl := Except.ok.inj h
    exact hls.set (specSwap_unbroken (hls.getD _) hcpus)
  · obtain rfl := Except.ok.inj h
    exact hls.set (hheader _)
  · split at h
    · cases h
    · obtain rfl := Except.ok.inj h
      refine hls.append (unbroken_nil.cons ?_)
      have := pairLine_unbroken (w := []) hpkg hcpus (by simp)
      rwa [List.append_nil] at this

/-- What setting the package rule comes to: the package-level rules together give the new CPUs, and the thread
    rules are as before. -/
structure SetsPackage (topo : CpuTopology) (pkg cpus text written : Str) : Prop where
  union : ∀ create, (packageRules pkg (loadLines create topo (lines written)).rules).1 = parseCpuSpec cpus topo
  threads : ∀ create create', (rulesBut [] (rulesFor pkg (loadLines create' topo (lines written)).rules)).Perm
    (rulesBut [] (rulesFor pkg (loadLines create topo (lines text)).rules))

/-- When `rule_upsert` sets the package rule as it should: the spec is one line, the text has no clash, the
    normalisation meets none of its traps, nor does the edit of the normalised lines. -/
structure UpsertPackageSafe (topo : CpuTopology) (ls : List Str) (pkg cpus : Str) : Prop where
  oneLine : '\n' ∉ cpus
  clashFree : ClashFree ls
  normal : normalizeRuns ls pkg = true → NormalizeSafe ls pkg
  edit : PackageEditSafe topo (normalizeSingles ls pkg) pkg cpus

/-- The normalised text has no single-line rule of the package, or no closed block of it. -/
theorem normalized_shape
    (h : normalizeRuns ls pkg = true → NormalizeSafe ls pkg) :
    (targetScan (normalizeSingles ls pkg) pkg).singles = [] ∨
      (targetScan (normalizeSingles ls pkg) pkg).blockClose = none := by
  by_cases hrun : normalizeRuns ls pkg = true
  · have hr := normalizeSingles_reshaped (h hrun) hrun
    exact .inl (singles_eq_nil hr.clashFree hr.noSingles)
  · have hidle := Bool.eq_false_iff.mpr hrun
    rw [normalizeSingles_idle hidle]
    unfold normalizeRuns at hidle
    rcases (Bool.and_eq_false_iff).mp hidle with hnone | hblocked
    · left
      rw [← singleItems_locs _ _, List.map_eq_nil_iff]
      simpa using hnone
    · right
      have hblocked' : normalizeBlocked (targetScan ls pkg) (singleItems ls pkg) = true := by simpa using hblocked
      exact Option.isNone_iff_eq_none.mp ((Bool.and_eq_true _ _).mp hblocked').1

end AppOptR
