import AppOptR.RuleEdit.Correctness.SwapTwice
import AppOptR.RuleEdit.Correctness.Unbroken
import AppOptR.RuleEdit.Correctness.UpsertPackage
import AppOptR.RuleEdit.Correctness.UpsertThread

/-!
# `RuleEdit.Correctness.LinesReturn` — written lines, read back

The reader takes `\r\n` for a line end, so a line that ends with a carriage return does not come back as it was
written (`EndsClean`). The end of a written line is new, or what the edit keeps of the end of an old one.
`keptEnd` says what that is for each line; where all of it ends cleanly, so do the written lines
(`upsertPackage_returns`, `upsertThread_returns`), and the second edit reads the lines of the first
(`lines_returned`).
-/

namespace AppOptR

open Text

variable {pkg thread cpus line : Str} {ls ls' : List Str} {topo : CpuTopology}

/-! ## The lines come back -/

/-- The line does not end with a carriage return, which the next reader would take for part of the line end. -/
def EndsClean (l : Str) : Prop := l.getLast? ≠ some '\r'

instance (l : Str) : Decidable (EndsClean l) := inferInstanceAs (Decidable (_ ≠ _))

theorem endsClean_of_last {l : Str} (h : LastSolid l) : EndsClean l := fun hl => absurd (h _ hl) (by decide)

theorem endsClean_nil : EndsClean [] := by simp [EndsClean]

theorem endsClean_append {s t : Str} (ht : EndsClean t) (hs : t = [] → EndsClean s) : EndsClean (s ++ t) := by
  by_cases hnil : t = []
  · rw [hnil, List.append_nil]
    exact hs hnil
  · rwa [EndsClean, List.getLast?_append_of_ne_nil _ hnil]

/-- The end of a line is the end of every part that reaches it. -/
theorem EndsClean.suffix {s t : Str} (h : EndsClean (s ++ t)) : EndsClean t := by
  by_cases hnil : t = []
  · rw [hnil]
    exact endsClean_nil
  · rwa [EndsClean, List.getLast?_append_of_ne_nil _ hnil] at h

theorem withComment_endsClean {s l : Str} (hs : EndsClean s) (hl : EndsClean (commentTail l)) :
    EndsClean (withComment s l) := by
  rw [withComment_eq]
  exact endsClean_append hl fun _ => hs

/-- A line that ends with a brace or `=`, or with a spec. -/
theorem endsClean_pair {s v : Str} {c : Char} (hc : isWhitespace c = false) (hv : LastSolid v) :
    EndsClean (s ++ c :: v) := by
  refine endsClean_of_last (LastSolid.append ?_ (by simp) s)
  intro d hd
  cases v with
  | nil =>
    rw [List.getLast?_singleton, Option.some.injEq] at hd
    rw [← hd]
    exact hc
  | cons e v =>
    rw [List.getLast?_cons_cons] at hd
    exact hv d hd

theorem bareOpenLine_endsClean (pkg : Str) : EndsClean (bareOpenLine pkg) := by
  unfold bareOpenLine
  split <;> exact endsClean_append (by decide) fun h => (by cases h)

/-- The lines of a text come back from the file as they were written. -/
def Returns (ls : List Str) : Prop := ∀ l ∈ ls, EndsClean l

instance (ls : List Str) : Decidable (Returns ls) := List.decidableBAll _ ls

/-- **Lines that end cleanly come back from the file.** -/
theorem lines_returned (hne : ls ≠ []) (hls : Unbroken ls) (h : Returns ls) : lines (unlines ls) = ls := by
  rw [lines_unlines hne hls]
  conv_rhs => rw [← List.map_id ls]
  refine List.map_congr_left fun l hl => ?_
  unfold stripCr
  cases hs : stripSuffix '\r' l with
  | none => rfl
  | some b =>
    have hend := stripSuffix_eq_some.mp hs
    exact absurd (by rw [hend, List.getLast?_concat]) (h l hl)

/-! ## What an edit keeps of the end of a line -/

/-- Behind the new spec: the blanks and braces of the old value, and the comment. -/
def swapEnd (raw : Str) : Str := (valueOf raw).filter valueEnd ++ commentTail raw

/-- What the package half keeps of the end of line `i`. -/
def packageEnd (t : Target) (i : Nat) (l : Str) : Str :=
  match t.pkgLine with
  | some (.standalone j) | some (.openInline j) => if i = j then swapEnd l else l
  | some (.bareOpen j) => if i = j then commentTail l else l
  | some (.barePending j) =>
    if i = j then commentTail l
    -- the brace under the header goes
    else if t.blockOpen = some i ∧ parseOuter (trim l) = .bareOpen [] then []
    else l
  | none => l

/-- What the thread half keeps of the end of line `i`. -/
def threadEnd (t : Target) (thread : Str) (i : Nat) (l : Str) : Str :=
  match (t.locs thread).getLast? with
  | some last =>
    match (t.locs thread).find? fun loc => loc.idx = i with
    | some loc =>
      if loc.idx = last.idx then swapEnd l
      -- a line whose brace is still needed keeps its comment
      else if loc.opens || loc.closed then commentTail l
      else []
    | none => l
  | none =>
    match t.blockClose, t.pkgLine with
    | none, some (.standalone j) => if i = j then [] else l
    | _, _ => l

/-- What `rule_upsert` keeps of the end of line `i`. -/
def keptEnd (t : Target) (thread : Str) (i : Nat) (l : Str) : Str :=
  if thread = [] then packageEnd t i l else threadEnd t thread i l

/-- No line ends, in what the edit keeps of it, with a carriage return. -/
def KeepsClean (ls : List Str) (pkg thread : Str) : Prop :=
  ∀ e ∈ ls.zipIdx, EndsClean (keptEnd (targetScan ls pkg) thread e.2 e.1)

instance (ls : List Str) (pkg thread : Str) : Decidable (KeepsClean ls pkg thread) :=
  inferInstanceAs (Decidable (∀ e ∈ _, _))

theorem KeepsClean.kept (h : KeepsClean ls pkg thread) {i : Nat} {l : Str} (hl : ls[i]? = some l) :
    EndsClean (keptEnd (targetScan ls pkg) thread i l) :=
  h (l, i) (List.mem_zipIdx_iff_getElem?.mpr hl)

/-- A swapped line comes back. -/
theorem specSwap_endsClean (hraw : skipped (trim line) = false) (heq : '=' ∈ core line) (hc : Spec topo cpus)
    (h : EndsClean (swapEnd line)) : EndsClean (specSwap line cpus) := by
  obtain ⟨w, l, rhs, lead, hform⟩ := specSwap_form hraw heq hc.unmarked
  have hvalue : valueOf line = trimStart rhs := by
    have hsplit : splitLast '=' (stripComment line) = some (w ++ l, rhs) := by
      rw [hform.old]
      exact splitLast_eq_some.mpr ⟨by simp, hform.value⟩
    rw [valueOf, hsplit]
    rfl
  have hassoc : specSwap line cpus = (w ++ (l ++ '=' :: lead) ++ cpus) ++ swapEnd line := by
    rw [hform.new, swapTail_eq, swapEnd, hvalue]
    simp
  rw [hassoc]
  exact endsClean_append h fun _ => endsClean_append (endsClean_of_last hc.last) fun h => absurd h hc.ne

/-! ## The lines of the first call -/

/-- A line that states a spec, as far as the swap looks at it. -/
def States (l : Str) : Prop := skipped (trim l) = false ∧ '=' ∈ core l

/-- The lines of a text with line `i` replaced. -/
theorem returns_set {i : Nat} {x : Str} (hx : ∀ l, ls[i]? = some l → EndsClean x)
    (h : ∀ j l, j ≠ i → ls[j]? = some l → EndsClean l) : Returns (ls.set i x) := by
  intro y hy
  obtain ⟨j, hj⟩ := List.mem_iff_getElem?.mp hy
  rw [List.getElem?_set] at hj
  split at hj
  · split at hj
    · next hlt =>
      rw [← Option.some.inj hj]
      exact hx _ (List.getElem?_eq_getElem hlt)
    · cases hj
  · next hij => exact h j y (fun h => hij h.symm) hj

theorem getD_of_getElem? {i : Nat} {l : Str} (h : ls[i]? = some l) : ls.getD i [] = l := by
  rw [List.getD_eq_getElem?_getD, h]
  rfl

/-- The package half, the header that states the rule being one. -/
theorem upsertPackage_returns (hspec : Spec topo cpus)
    (hstates : ∀ i ∈ statingLine (targetScan ls pkg), States (ls.getD i []))
    (hclean : KeepsClean ls pkg []) (h : upsertPackage ls (targetScan ls pkg) pkg cpus = .ok ls') :
    Returns ls' := by
  have hkept : ∀ {i l}, ls[i]? = some l → EndsClean (packageEnd (targetScan ls pkg) i l) := hclean.kept
  unfold packageEnd at hkept
  have hopen : EndsClean (pkg ++ '=' :: cpus ++ [' ', '{']) := endsClean_append (by decide) fun h => by cases h
  -- the two headers whose spec is swapped
  have hswapped : ∀ i ∈ statingLine (targetScan ls pkg),
      (∀ j l, ls[j]? = some l → EndsClean (if j = i then swapEnd l else l)) →
        Returns (ls.set i (specSwap (ls.getD i []) cpus)) := by
    intro i hi hends
    refine returns_set (fun l hl => ?_) fun j l hj hl => ?_
    · obtain ⟨hshown, heq⟩ := hstates i hi
      rw [getD_of_getElem? hl] at hshown heq ⊢
      exact specSwap_endsClean hshown heq hspec (by simpa using hends i l hl)
    · simpa [hj] using hends j l hl
  unfold upsertPackage at h
  cases hline : (targetScan ls pkg).pkgLine with
  | none =>
    rw [hline] at h hkept
    dsimp only at h hkept
    split at h
    · cases h
    · obtain rfl := Except.ok.inj h
      intro l hl
      rcases List.mem_append.mp hl with hl | hl
      · obtain ⟨i, hi⟩ := List.mem_iff_getElem?.mp hl
        exact hkept hi
      · rw [List.mem_singleton.mp hl]
        exact endsClean_pair (by decide) hspec.last
  | some l =>
    rw [hline] at h hkept
    cases l with
    | standalone i =>
      obtain rfl := Except.ok.inj h
      exact hswapped i (by simp [statingLine, hline, PkgLine.stating]) fun j l hl => by simpa using hkept hl
    | openInline i =>
      obtain rfl := Except.ok.inj h
      exact hswapped i (by simp [statingLine, hline, PkgLine.stating]) fun j l hl => by simpa using hkept hl
    | bareOpen i =>
      obtain rfl := Except.ok.inj h
      refine returns_set (fun l hl => ?_) fun j l hj hl => ?_
      · rw [getD_of_getElem? hl]
        exact withComment_endsClean hopen (by simpa using hkept hl)
      · simpa [hj] using hkept hl
    | barePending i =>
      have hheader : ∀ l, ls[i]? = some l →
          EndsClean (withComment (pkg ++ '=' :: cpus ++ [' ', '{']) (ls.getD i [])) := fun l hl => by
        rw [getD_of_getElem? hl]
        exact withComment_endsClean hopen (by simpa using hkept hl)
      dsimp only at h
      generalize withComment (pkg ++ '=' :: cpus ++ [' ', '{']) (ls.getD i []) = header at h hheader
      cases hbrace : (targetScan ls pkg).blockOpen with
      | none =>
        rw [hbrace] at h hkept
        obtain rfl := Except.ok.inj h
        exact returns_set hheader fun j l hj hl => by simpa [hj] using hkept hl
      | some o =>
        rw [hbrace] at h hkept
        obtain rfl := Except.ok.inj h
        split
        · -- the brace is gone: the header and the lines beside the two are left
          intro y hy
          obtain ⟨j, hjo, hj⟩ := List.mem_eraseIdx_iff_getElem?.mp hy
          by_cases hji : j = i
          · subst hji
            rw [List.getElem?_set_self'] at hj
            obtain ⟨l, hl, rfl⟩ := Option.map_eq_some_iff.mp hj
            exact hheader l hl
          · rw [List.getElem?_set_ne (Ne.symm hji)] at hj
            simpa [hji, Ne.symm hjo] using hkept hj
        · next hread =>
          refine returns_set hheader fun j l hj hl => ?_
          by_cases hjo : j = o
          · subst hjo
            rw [List.getD_eq_getElem?_getD, List.getElem?_set_ne (Ne.symm hj), hl, Option.getD_some] at hread
            simpa [hj, hread] using hkept hl
          · simpa [hj, Ne.symm hjo] using hkept hl

/-- The thread half, the last occurrence being one. -/
theorem upsertThread_returns (hspec : Spec topo cpus) (hth : thread ≠ [])
    (hstates : ∀ last, ((targetScan ls pkg).locs thread).getLast? = some last → States (ls.getD last.idx []))
    (hclean : KeepsClean ls pkg thread) (h : upsertThread ls (targetScan ls pkg) pkg thread cpus = .ok ls') :
    Returns ls' := by
  have hkept : ∀ {i l}, ls[i]? = some l → EndsClean (threadEnd (targetScan ls pkg) thread i l) := fun hl => by
    have := hclean.kept hl
    rwa [keptEnd, if_neg hth] at this
  unfold threadEnd at hkept
  have hrule : ∀ l ∈ [('\t' :: thread ++ '=' :: cpus)], EndsClean l := fun l hl => by
    rw [List.mem_singleton.mp hl]
    exact endsClean_pair (by decide) hspec.last
  have hclose : ∀ l ∈ [['}']], EndsClean l := fun l hl => by
    rw [List.mem_singleton.mp hl]
    decide
  have hall : (∀ {i l}, ls[i]? = some l → EndsClean l) → Returns ls := fun h l hl => by
    obtain ⟨i, hi⟩ := List.mem_iff_getElem?.mp hl
    exact h hi
  unfold upsertThread at h
  dsimp only at h
  cases hlast : ((targetScan ls pkg).locs thread).getLast? with
  | some last =>
    rw [hlast] at h hkept
    obtain rfl := Except.ok.inj h
    rw [upsertLocs_run hlast (locs_ascending thread) fun loc hloc => thread_idx_lt (mem_locs.mp hloc)]
    intro y hy
    obtain ⟨⟨l, i⟩, hmem, hy⟩ := List.mem_flatMap.mp hy
    have hl := List.mem_zipIdx_iff_getElem?.mp hmem
    have hend := hkept hl
    dsimp only at hend hy
    unfold editsAt at hy
    cases hfind : ((targetScan ls pkg).locs thread).find? fun loc => loc.idx = i with
    | none =>
      rw [hfind] at hend hy
      obtain rfl := List.mem_singleton.mp hy
      exact hend
    | some loc =>
      rw [hfind] at hend hy
      have hidx : loc.idx = i := by simpa using List.find?_some hfind
      dsimp only [Option.map_some, Option.getD_some] at hend hy
      unfold keepLast at hy
      by_cases hloc : loc.idx = last.idx
      · rw [if_pos hloc] at hend hy
        obtain ⟨hshown, heq⟩ := hstates last hlast
        rw [← hloc, hidx, getD_of_getElem? hl] at hshown heq
        rw [List.mem_singleton.mp hy]
        exact specSwap_endsClean hshown heq hspec hend
      · rw [if_neg hloc] at hend hy
        unfold lineGone at hy
        cases ho : loc.opens with
        | true =>
          rw [ho] at hend hy
          rw [List.mem_singleton.mp hy]
          exact withComment_endsClean (bareOpenLine_endsClean pkg) hend
        | false =>
          cases hcl : loc.closed with
          | true =>
            rw [ho, hcl] at hend hy
            rw [List.mem_singleton.mp hy]
            exact withComment_endsClean (by decide) hend
          | false =>
            rw [ho, hcl] at hy
            cases hy
  | none =>
    rw [hlast] at h hkept
    dsimp only at h hkept
    split at h
    · next hc =>
      rw [hc] at hkept
      obtain rfl := Except.ok.inj h
      exact all_spliceAt (hall hkept) hrule
    · next i hc hline =>
      rw [hc, hline] at hkept
      obtain rfl := Except.ok.inj h
      have hset : Returns (ls.set i (trimEnd (ls.getD i []) ++ [' ', '{'])) :=
        returns_set (fun _ _ => endsClean_append (by decide) fun h => by cases h)
          fun j l hj hl => by simpa [hj] using hkept hl
      exact all_spliceAt hset (all_append hrule hclose)
    · next hc hline =>
      split at h
      · cases h
      · obtain rfl := Except.ok.inj h
        have hls : Returns ls := hall fun {i l} hl => by
          have := hkept hl
          rw [hc] at this
          split at this
          · next hline' => exact absurd hline' (hline _)
          · exact this
        refine all_append hls fun l hl => ?_
        rcases List.mem_cons.mp hl with rfl | hl
        · exact bareOpenLine_endsClean pkg
        · exact all_append hrule hclose l hl

end AppOptR
