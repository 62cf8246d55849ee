import AppOptR.RuleEdit.Correctness.Normalize
import AppOptR.RuleEdit.Correctness.Unbroken

/-!
# `RuleEdit.Correctness.DeletePackage` — the loop of `rule_delete_pkg`

Each round scans the text again and removes the first header, the first block and the single-line rules of the
package. The indices of a round are those of lines of the text, each once, so every removal is in bounds and
every round shortens the text (`deleteRound_lt`, `deleteRound_ascending`): the loop ends for every text and
every package string. That the scan then lists no line of the package means that the loader reads no rule for
it, unless the two read that text differently (`Clash`).
-/

namespace AppOptR

open Text Relation

variable {pkg line : Str} {ls ls' : List Str} {t : Target} {n : Nat}

/-! ## One round -/

theorem blockEnd_lt {o : Nat} (hl : ScanListed ls pkg n { t }) (ho : t.blockOpen = some o) : blockEnd t o < n := by
  unfold blockEnd
  cases hc : t.blockClose with
  | some c => exact (hl.blockClose c hc).1
  | none =>
    cases hm : (((t.threads.map (·.2)).filter (!·.single)).map (·.idx)).max? with
    | none => exact hl.blockOpen o ho
    | some m =>
      -- the last thread rule of the open block
      obtain ⟨loc, hloc, rfl⟩ := List.mem_map.mp (List.max?_mem hm)
      obtain ⟨t', ht', rfl⟩ := List.mem_map.mp (List.mem_of_mem_filter hloc)
      exact (hl.threads t' ht').idx

theorem deleteRound_lt {i : Nat} (h : i ∈ deleteRound (targetScan ls pkg)) : i < ls.length := by
  have hl := targetScan_listed ls pkg
  unfold deleteRound at h
  rw [List.mem_dedup, List.mem_insertionSort, List.mem_append, List.mem_append] at h
  rcases h with (h | h) | h
  · obtain ⟨l, hline, rfl⟩ : ∃ l, (targetScan ls pkg).pkgLine = some l ∧ l.idx = i := by simpa using h
    exact (hl.header l hline).1
  · cases ho : (targetScan ls pkg).blockOpen with
    | none =>
      rw [ho] at h
      cases h
    | some o =>
      rw [ho] at h
      have hend := blockEnd_lt hl ho
      have hrange := List.mem_range'_1.mp h
      omega
  · obtain ⟨loc, hloc, rfl⟩ := List.mem_map.mp h
    obtain ⟨name, ht, _⟩ := mem_singles.mp hloc
    exact (hl.threads _ ht).idx

/-- The indices of a round, each once and in order. -/
theorem deleteRound_ascending (t : Target) : (deleteRound t).Pairwise (· < ·) := by
  have hsorted : (deleteRound t).Pairwise (· ≤ ·) :=
    (List.pairwise_insertionSort (· ≤ ·) _).sublist (List.dedup_sublist _)
  have hdistinct : (deleteRound t).Pairwise (· ≠ ·) := List.nodup_dedup _
  exact (hsorted.and hdistinct).imp fun h => lt_of_le_of_ne h.1 h.2

theorem deleteRound_ne_nil (h : t.anyLine = true) : deleteRound t ≠ [] := by
  intro hnil
  unfold deleteRound at hnil
  rw [List.dedup_eq_nil, ← List.length_eq_zero_iff, List.length_insertionSort, List.length_eq_zero_iff,
    List.append_eq_nil_iff, List.append_eq_nil_iff] at hnil
  obtain ⟨⟨hheader, _⟩, hsingles⟩ := hnil
  unfold Target.anyLine at h
  rcases (Bool.or_eq_true _ _).mp h with h | h
  · obtain ⟨l, hl⟩ := Option.isSome_iff_exists.mp h
    rw [hl] at hheader
    cases hheader
  · rw [List.map_eq_nil_iff.mp hsingles] at h
    cases h

/-! ## Removals in bounds -/

/-- Each index is that of a line when its turn to be removed comes. -/
def RemovesExisting : List Str → List Nat → Prop
  | _, [] => True
  | ls, i :: is => i < ls.length ∧ RemovesExisting (ls.eraseIdx i) is

/-- Removed from the last line up, indices of the text stay indices of the text. -/
theorem removes_descending {is : List Nat} (hs : is.Pairwise (· > ·)) (hlt : ∀ i ∈ is, i < ls.length) :
    RemovesExisting ls is ∧ (is.foldl (fun ls i => ls.eraseIdx i) ls).length + is.length = ls.length := by
  induction is generalizing ls with
  | nil => exact ⟨trivial, rfl⟩
  | cons i is ih =>
    obtain ⟨hgt, hrest⟩ := List.pairwise_cons.mp hs
    have hi : i < ls.length := hlt i (by simp)
    have hlen : (ls.eraseIdx i).length = ls.length - 1 := List.length_eraseIdx_of_lt hi
    obtain ⟨hexist, hlength⟩ := @ih (ls.eraseIdx i) hrest fun j hj => by
      have := hgt j hj
      omega
    refine ⟨⟨hi, hexist⟩, ?_⟩
    rw [List.foldl_cons, List.length_cons]
    omega

/-- What one round leaves. -/
def deletePkgRound (pkg : Str) (ls : List Str) : List Str :=
  (deleteRound (targetScan ls pkg)).reverse.foldl (fun ls i => ls.eraseIdx i) ls

theorem deleteRound_removes (ls : List Str) (pkg : Str) :
    RemovesExisting ls (deleteRound (targetScan ls pkg)).reverse ∧
      (deletePkgRound pkg ls).length + (deleteRound (targetScan ls pkg)).length = ls.length := by
  have h := @removes_descending ls ((deleteRound (targetScan ls pkg)).reverse)
    (List.pairwise_reverse.mpr (deleteRound_ascending _)) fun i hi => deleteRound_lt (List.mem_reverse.mp hi)
  rwa [List.length_reverse] at h

theorem deletePkgRound_shorter (h : (targetScan ls pkg).anyLine = true) :
    (deletePkgRound pkg ls).length < ls.length := by
  have hlen := (deleteRound_removes ls pkg).2
  have hpos := List.length_pos_iff.mpr (deleteRound_ne_nil h)
  omega

/-! ## The loop -/

/-- One round of the loop: the scan lists a line of the package. -/
def DeleteStep (pkg : Str) (ls ls' : List Str) : Prop :=
  (targetScan ls pkg).anyLine = true ∧ ls' = deletePkgRound pkg ls

/-- **The loop ends**, after at most as many rounds as there are lines. -/
theorem deletePkgLoop_ends {fuel : Nat} (h : ls.length < fuel) (removed : Bool) :
    ∃ out, deletePkgLoop pkg fuel ls removed = some out := by
  induction fuel generalizing ls removed with
  | zero => exact absurd h (Nat.not_lt_zero _)
  | succ fuel ih =>
    unfold deletePkgLoop
    dsimp only
    by_cases hany : (targetScan ls pkg).anyLine = true
    · rw [hany]
      have hshort := deletePkgRound_shorter hany
      exact @ih (deletePkgRound pkg ls) (by omega) true
    · rw [Bool.eq_false_iff.mpr hany]
      exact ⟨_, rfl⟩

/-- **What the loop returns**: the text after some rounds, of which the scan lists no line; the flag is down
    only if there was no round. -/
theorem deletePkgLoop_exit {fuel : Nat} {removed removed' : Bool}
    (h : deletePkgLoop pkg fuel ls removed = some (ls', removed')) :
    ReflTransGen (DeleteStep pkg) ls ls' ∧ (targetScan ls' pkg).anyLine = false ∧
      (removed' = false → ls' = ls) := by
  induction fuel generalizing ls removed with
  | zero => cases h
  | succ fuel ih =>
    unfold deletePkgLoop at h
    dsimp only at h
    by_cases hany : (targetScan ls pkg).anyLine = true
    · rw [hany] at h
      obtain ⟨hrun, hexit, _⟩ := ih h
      refine ⟨.head ⟨hany, rfl⟩ hrun, hexit, fun hflag => ?_⟩
      -- the flag is up from the first round on
      have hup : ∀ {fuel : Nat} {ls : List Str}, deletePkgLoop pkg fuel ls true = some (ls', removed') →
          removed' = true := by
        intro fuel
        induction fuel with
        | zero => exact fun h => by cases h
        | succ fuel ih =>
          intro ls h
          unfold deletePkgLoop at h
          dsimp only at h
          split at h
          · cases h
            rfl
          · exact ih h
      rw [hup h] at hflag
      cases hflag
    · rw [Bool.eq_false_iff.mpr hany] at h
      cases h
      exact ⟨.refl, Bool.eq_false_iff.mpr hany, fun _ => rfl⟩

theorem removals_unbroken (h : Unbroken ls) (is : List Nat) :
    Unbroken (is.foldl (fun ls i => ls.eraseIdx i) ls) := by
  induction is generalizing ls with
  | nil => exact h
  | cons i is ih => exact ih h.eraseIdx

theorem rounds_unbroken (h : ReflTransGen (DeleteStep pkg) ls ls') (hls : Unbroken ls) : Unbroken ls' := by
  induction h with
  | refl => exact hls
  | tail _ hstep ih =>
    rw [hstep.2]
    exact removals_unbroken ih _

/-! ## Nothing listed, nothing loaded -/

theorem anyLine_of_header {l : PkgLine} (h : t.pkgLine = some l) : t.anyLine = true := by
  simp [Target.anyLine, h]

theorem anyLine_of_single {loc : ThreadLoc} (h : loc ∈ t.singles) : t.anyLine = true := by
  have : t.singles ≠ [] := List.ne_nil_of_mem h
  simp [Target.anyLine, this]

/-- A block of the package has a header, or a single-line rule opens it. -/
theorem anyLine_of_inside (hc : ClashFree ls) (h : placeAfter (ls.take n) = .inside pkg) :
    (targetScan ls pkg).anyLine = true := by
  obtain ⟨hblock, hheader⟩ := targetScan_found pkg hc
  cases ho : (targetScan ls pkg).blockOpen with
  | none => exact absurd h (hblock.unseen ho n)
  | some o =>
    rcases hheader.opener o ho with ⟨th, cpus, hat⟩ | ⟨l, hl, _⟩
    · obtain ⟨pre, line, post, hls, hlen, hrole⟩ := hat
      exact anyLine_of_single ((mem_singles_iff hc).mpr ⟨pre, line, post, th, cpus, true, hls, hrole, rfl⟩)
    · exact anyLine_of_header hl

theorem anyLine_of_rule (hc : ClashFree ls) {i : Nat} {cpus : Str} {opens : Bool}
    (h : LineAt ls i (.outer (.rule pkg cpus opens))) : (targetScan ls pkg).anyLine = true := by
  obtain ⟨l, hl, _⟩ := targetScan_firstRule pkg hc i cpus opens h
  exact anyLine_of_header hl

/-- **A text of which the scan lists no line of the package** has no rule for it. -/
theorem callsFor_nil (hpkg : pkg ≠ []) (hc : ClashFree ls) (h : (targetScan ls pkg).anyLine = false) :
    callsFor pkg ls = [] := by
  have hnot : ∀ {b : Prop}, (targetScan ls pkg).anyLine = true → b := fun ht => by rw [h] at ht; cases ht
  rw [callsFor_eq_seen hc, seen_eq_outlineAt, List.flatMap_eq_nil_iff]
  intro e he
  obtain ⟨pre, line, post, hls, rfl⟩ := mem_outlineAt.mp he
  have hat : LineAt ls pre.length (roleOf (placeAfter pre) line) := ⟨pre, line, post, hls, rfl, rfl⟩
  have htake : ls.take pre.length = pre := by rw [hls, List.take_left' rfl]
  unfold entriesFor entry
  dsimp only
  cases hr : roleOf (placeAfter pre) line with
  | thread name cpus closed =>
    cases hp : placeAfter pre with
    | outside w => rfl
    | inside owner =>
      by_cases ho : owner = pkg
      · -- a rule in a block of the package: the scan has noted what opened it
        exact hnot (anyLine_of_inside hc (n := pre.length) (by rw [htake, hp, ho]))
      · simp [ho]
  | outer l =>
    rw [hr] at hat
    cases l with
    | single pg th cpus opens =>
      by_cases ho : pg = pkg
      · subst ho
        exact hnot (anyLine_of_single ((mem_singles_iff hc).mpr
          ⟨pre, line, post, th, cpus, opens, hls, hr, rfl⟩))
      · simp [ho]
    | rule pg cpus opens =>
      by_cases ho : pg = pkg
      · subst ho
        exact hnot (anyLine_of_rule hc hat)
      · simp [ho]
    | bareOpen => rfl
    | pending => rfl
    | junk => rfl
  | skip => rfl
  | close => rfl
  | idle => rfl

theorem rulesFor_nil (hc : ClashFree ls) (h : (targetScan ls pkg).anyLine = false)
    (create : Nat → Str → Bool) (topo : CpuTopology) : rulesFor pkg (loadLines create topo ls).rules = [] := by
  by_cases hpkg : pkg = []
  · rw [hpkg]
    exact rulesFor_empty create topo ls
  · rw [rulesFor_eq, callsFor_nil hpkg hc h]
    rfl

/-! ## The normalised text -/

/-- Lines before the first removed one stay. -/
theorem take_lineRemoves {locs : List ThreadLoc} (h : ∀ loc ∈ locs, n ≤ loc.idx) :
    (locs.foldl (fun ls loc => lineRemove ls pkg loc) ls).take n = ls.take n := by
  induction locs generalizing ls with
  | nil => rfl
  | cons loc locs ih =>
    have hn : n ≤ loc.idx := h loc (by simp)
    rw [List.foldl_cons, ih fun l hl => h l (by simp [hl])]
    unfold lineRemove
    split
    · exact List.take_set_of_le hn
    · split
      · exact List.take_set_of_le hn
      · exact List.take_eraseIdx_eq_take_of_le _ _ _ hn

/-- A text whose first lines are those of another that the scan reads up to there, outside. -/
theorem outside_of_scan (hc : ClashFree (ls.take n))
    (h : (scanPrefix ls pkg (ls.take n)).inBlock = false) : ∃ w, placeAfter (ls.take n) = .outside w := by
  have hat := @scan_refines pkg _ (ls.drop n) hc
  rw [List.take_append_drop] at hat
  cases hp : placeAfter (ls.take n) with
  | outside w => exact ⟨w, rfl⟩
  | inside owner =>
    rw [hp] at hat
    rw [hat.inside.1] at h
    cases h

theorem ClashFree.of_append {pre post : List Str} (h : ClashFree (pre ++ post)) : ClashFree pre :=
  (clashFreeFrom_append.mp h).1

/-- **In a block of the package.** -/
theorem anyLine_spliced {texts : List Str} {c : Nat}
    (hclose : (targetScan ls pkg).blockClose = some c) (hc : ClashFree (spliceAt ls c texts)) :
    (targetScan (spliceAt ls c texts) pkg).anyLine = true := by
  obtain ⟨hlt, htarget⟩ := (targetScan_listed ls pkg).blockClose c hclose
  have hlen : (ls.take c).length = c := List.length_take_of_le hlt.le
  have htake : (spliceAt ls c texts).take c = ls.take c := by
    rw [spliceAt, List.append_assoc, List.take_left' hlen]
  have hpre : ClashFree (ls.take c) := by
    rw [spliceAt, List.append_assoc] at hc
    exact hc.of_append
  have hat := @scan_refines pkg _ (ls.drop c) hpre
  rw [List.take_append_drop] at hat
  exact anyLine_of_inside hc (n := c) (by rw [htake, hat.target.mp htarget])

/-- **Under the header.** -/
theorem anyLine_under {chunk : List Str} {i : Nat}
    (hline : (targetScan ls pkg).pkgLine = some (.standalone i))
    (hc : ClashFree (spliceAt (ls.set i (trimEnd (ls.getD i []) ++ [' ', '{'])) (i + 1) chunk)) :
    (targetScan (spliceAt (ls.set i (trimEnd (ls.getD i []) ++ [' ', '{'])) (i + 1) chunk) pkg).anyLine
      = true := by
  obtain ⟨hlt, ⟨hout, hshown⟩, cpus, hread⟩ := (targetScan_listed ls pkg).header _ hline
  replace hlt : i < ls.length := hlt
  rw [spliceAt_set hlt] at hc ⊢
  obtain ⟨w, hw⟩ := outside_of_scan hc.of_append hout
  have hrole : roleOf (.outside w) (ls.getD i []) = .outer (.rule pkg cpus false) := by
    rw [roleOf_outside hshown, hread]
  obtain ⟨opens, hnew⟩ := @roleOf_headerEither _ _ _ _ hrole w
  exact anyLine_of_rule hc ⟨_, _, _, rfl, rfl, by rw [hw, hnew]⟩

/-- **In a block of its own.** -/
theorem anyLine_ownBlock {chunk : List Str} (hk : Key pkg) (hb : '{' ∉ pkg)
    (hout : (scanPrefix ls pkg (ls.take n)).inBlock = false)
    (hc : ClashFree (ls.take n ++ bareOpenLine pkg :: chunk)) :
    (targetScan (ls.take n ++ bareOpenLine pkg :: chunk) pkg).anyLine = true := by
  obtain ⟨w, hw⟩ := outside_of_scan hc.of_append hout
  have hrole : roleOf (.outside w) (bareOpenLine pkg) = .outer (.bareOpen pkg) :=
    @roleOf_bareOpenLine _ [] _ hk hb
  have hplace : placeAfter (ls.take n ++ [bareOpenLine pkg]) = .inside pkg := by
    rw [placeAfter_concat, hw, hrole]
    simp [nextPlace, hk.ne]
  have hsplit : ls.take n ++ bareOpenLine pkg :: chunk = (ls.take n ++ [bareOpenLine pkg]) ++ chunk := by simp
  refine anyLine_of_inside hc (n := (ls.take n ++ [bareOpenLine pkg]).length) ?_
  rw [hsplit, List.take_left' rfl, hplace]

/-- Nothing is pulled above the first single-line rule. -/
theorem take_pulled {loc : ThreadLoc} {locs : List ThreadLoc} (hlocs : (targetScan ls pkg).singles = loc :: locs) :
    (pulled ls pkg).take loc.idx = ls.take loc.idx := by
  have hasc := @singles_ascending ls pkg
  rw [hlocs, List.pairwise_cons] at hasc
  unfold pulled
  rw [hlocs]
  refine take_lineRemoves fun loc' hloc' => ?_
  rcases List.mem_cons.mp (List.mem_reverse.mp hloc') with rfl | hloc'
  · exact le_refl _
  · exact (hasc.1 loc' hloc').le

/-- **A normalisation leaves a line of the package**: the block it fills has a header. -/
theorem normalized_anyLine (hrun : normalizeRuns ls pkg = true) (hc : ClashFree (normalizeSingles ls pkg)) :
    (targetScan (normalizeSingles ls pkg) pkg).anyLine = true := by
  obtain ⟨loc, locs, hlocs, hnorm⟩ := normalizeSingles_runs hrun
  have htake := take_pulled hlocs
  obtain ⟨name, ht, hs⟩ := mem_singles.mp (hlocs ▸ List.mem_cons_self (a := loc) (l := locs))
  have hidx : loc.idx < ls.length := thread_idx_lt ht
  obtain ⟨⟨hout, hshown⟩, cpus, hread⟩ := ((targetScan_listed ls pkg).threads _ ht).reads hs
  have hrole : roleOf (.outside none) (ls.getD loc.idx []) = .outer (.single pkg name cpus loc.opens) := by
    rw [roleOf_outside hshown, hread]
  have hparts := single_parts hrole
  have hpkg := hparts.key.ne
  rw [hnorm] at hc ⊢
  generalize pulled ls pkg = removed at hc htake ⊢
  unfold placeItems at hc ⊢
  dsimp only at hc ⊢
  split at hc
  · next c hclose => exact anyLine_spliced hclose hc
  · next i hclose hline => exact anyLine_under hline hc
  · have hlen : loc.idx ≤ removed.length := by
      have := congrArg List.length htake
      rw [List.length_take, List.length_take, min_eq_left hidx.le] at this
      omega
    have hnew : ∀ items : List Str, spliceAt removed (min loc.idx removed.length)
        ([bareOpenLine pkg] ++ items ++ [['}']])
          = ls.take loc.idx ++ bareOpenLine pkg :: (items ++ ['}'] :: removed.drop loc.idx) := by
      intro items
      rw [min_eq_left hlen, spliceAt, htake]
      simp
    rw [hnew] at hc ⊢
    exact anyLine_ownBlock hparts.key hparts.noBrace hout hc

/-! ## The file -/

/-- The loop ends once it may go on for enough rounds, and no round removes a line that is not there. -/
structure DeleteLoop (text pkg : Str) : Prop where
  ends : ∃ n, ∀ fuel, n ≤ fuel → ∀ writeOk, ∃ result, ruleDeletePkg fuel writeOk (some text) pkg = some result
  inBounds : ∀ ls, ReflTransGen (DeleteStep pkg) (normalizeSingles (lines text) pkg) ls →
    RemovesExisting ls (deleteRound (targetScan ls pkg)).reverse

/-- Nothing of the package is left, and nothing of it was there if it has not been found. -/
structure DeletesAll (text pkg : Str) : Prop where
  ok : ∀ fuel writeOk written, ruleDeletePkg fuel writeOk (some text) pkg = some (.ok, some written) →
    ∀ create topo, rulesFor pkg (loadLines create topo (lines written)).rules = []
  notFound : ∀ fuel writeOk content, ruleDeletePkg fuel writeOk (some text) pkg = some (.notFound, content) →
    ∀ create topo, rulesFor pkg (loadLines create topo (lines text)).rules = []

/-- A text the loop comes to and finds no line of the package in is read alike by scan and loader. -/
def EndsUnclashed (text pkg : Str) : Prop :=
  ∀ ls, ReflTransGen (DeleteStep pkg) (normalizeSingles (lines text) pkg) ls →
    (targetScan ls pkg).anyLine = false → ClashFree ls

theorem deletePkg_loop (text pkg : Str) : DeleteLoop text pkg := by
  refine ⟨⟨(normalizeSingles (lines text) pkg).length + 1, fun fuel hfuel writeOk => ?_⟩, fun ls _ =>
    (deleteRound_removes ls pkg).1⟩
  obtain ⟨out, hout⟩ := @deletePkgLoop_ends pkg _ _ hfuel false
  unfold ruleDeletePkg deletePkgLines
  rw [show lines ((some text).getD []) = lines text from rfl, hout]
  exact ⟨_, rfl⟩

/-- What the two results say of the loop. -/
theorem ruleDeletePkg_run {text : Str} {fuel : Nat} {writeOk : Bool} {e : RuleEdit} {content : Option Str}
    (h : ruleDeletePkg fuel writeOk (some text) pkg = some (e, content)) :
    ∃ ls, ReflTransGen (DeleteStep pkg) (normalizeSingles (lines text) pkg) ls ∧
      (targetScan ls pkg).anyLine = false ∧ (e = .ok → content = some (unlines ls)) ∧
      (e = .notFound → ls = normalizeSingles (lines text) pkg) := by
  unfold ruleDeletePkg deletePkgLines at h
  rw [show lines ((some text).getD []) = lines text from rfl] at h
  obtain ⟨edited, hedit, hfile⟩ := Option.map_eq_some_iff.mp h
  obtain ⟨⟨ls, removed⟩, hloop, rfl⟩ := Option.map_eq_some_iff.mp hedit
  obtain ⟨hrun, hexit, hflag⟩ := deletePkgLoop_exit hloop
  refine ⟨ls, hrun, hexit, fun he => ?_, fun he => ?_⟩
  · subst he
    unfold editFile at hfile
    cases removed with
    | false => cases hfile
    | true =>
      cases writeOk with
      | false => cases hfile
      | true => exact (Prod.mk.inj hfile).2.symm
  · subst he
    cases removed with
    | false => exact hflag rfl
    | true =>
      unfold editFile at hfile
      cases writeOk <;> cases hfile

/-- **Deleting a package**: the loop ends and stays in bounds; where it leaves a text that scan and loader read
    alike, the package is gone. -/
theorem deletePkg_complete (text pkg : Str) :
    DeleteLoop text pkg ∧ (EndsUnclashed text pkg → DeletesAll text pkg) := by
  refine ⟨deletePkg_loop text pkg, fun hends => ⟨fun fuel writeOk written h create topo => ?_,
    fun fuel writeOk content h create topo => ?_⟩⟩
  · obtain ⟨ls, hrun, hexit, hwritten, _⟩ := ruleDeletePkg_run h
    obtain rfl := Option.some.inj (hwritten rfl)
    have hplain := rounds_unbroken hrun (normalizeSingles_unbroken (unbroken_lines text))
    rw [rulesFor_eq, callsFor_written hplain, ← rulesFor_eq create]
    exact rulesFor_nil (hends ls hrun hexit) hexit create topo
  · obtain ⟨ls, hrun, hexit, _, hsame⟩ := ruleDeletePkg_run h
    have hls : normalizeSingles (lines text) pkg = ls := (hsame rfl).symm
    have hclash : ClashFree (normalizeSingles (lines text) pkg) := hls ▸ hends ls hrun hexit
    have hnone : (targetScan (normalizeSingles (lines text) pkg) pkg).anyLine = false := hls ▸ hexit
    have hidle : normalizeSingles (lines text) pkg = lines text := by
      refine normalizeSingles_idle (Bool.eq_false_iff.mpr fun hrun => ?_)
      rw [normalized_anyLine hrun hclash] at hnone
      cases hnone
    rw [hidle] at hclash hnone
    exact rulesFor_nil hclash hnone create topo

/-- A header, the header of another package, and a block. -/
def headerAndBlock : Str := "a=1\nb=2\na \x7b\nT=0\n\x7d\n".toList

/-- The first and the third go in one round. -/
theorem headerAndBlock_rounds
    (h : ReflTransGen (DeleteStep "a".toList) (normalizeSingles (lines headerAndBlock) "a".toList) ls) :
    ls = ["a=1", "b=2", "a \x7b", "T=0", "\x7d"].map String.toList ∨ ls = ["b=2".toList] := by
  induction h with
  | refl => exact .inl (by decide +kernel)
  | tail _ hstep ih =>
    obtain ⟨hany, rfl⟩ := hstep
    rcases ih with rfl | rfl
    · exact .inr (by decide +kernel)
    · exact absurd hany (by decide +kernel)

theorem deletePkg_complete_block :
    DeletesAll "a=1\nb=2\na \x7b\nT=0\n\x7d\n".toList "a".toList := by
  refine (deletePkg_complete _ _).2 fun ls hrun hexit => ?_
  rcases headerAndBlock_rounds hrun with rfl | rfl <;> decide +kernel

/-- Behind a header without a key the scan takes the block of the package for part of another one: it finds
    nothing to delete, and the loader reads the rule. -/
theorem deletePkg_clash : ¬ DeletesAll "=\n\x7b\na \x7b\nT=0\n\x7d\n".toList "a".toList := by
  intro h
  have := h.notFound 3 true (some "=\n\x7b\na \x7b\nT=0\n\x7d\n".toList) (by decide +kernel)
    (fun _ _ => true) quadTopology
  revert this
  decide +kernel

end AppOptR
