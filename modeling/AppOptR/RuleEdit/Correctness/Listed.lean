import AppOptR.RuleEdit.Ops

/-!
# `RuleEdit.Correctness.Listed` — what the scan lists is there

Facts about `target_scan` that hold for every text and every package string, well formed or not: each index
it returns is that of a line of the text, the thread entries come in line order, and a header or single-line
rule it lists is a line that reads as one (`ScanListed`). The loops of `rule_delete_pkg` and `rule_rename` rest
on these alone.
-/

namespace AppOptR

open Text

variable {ls : List Str} {pkg line : Str} {n : Nat} {s : ScanState}

/-- The scan before line `i` is outside every block, and the line is neither blank nor a comment. -/
structure ReadOutside (ls : List Str) (pkg : Str) (i : Nat) : Prop where
  outside : (scanPrefix ls pkg (ls.take i)).inBlock = false
  shown : skipped (trim (ls.getD i [])) = false

/-- The line a header stands on reads as it says. -/
def PkgLine.Reads (ls : List Str) (pkg : Str) : PkgLine → Prop
  | .standalone i => ReadOutside ls pkg i ∧ ∃ cpus, parseOuter (trim (ls.getD i [])) = .rule pkg cpus false
  | .openInline i => ∃ cpus, parseOuter (trim (ls.getD i [])) = .rule pkg cpus true
  | .bareOpen i => parseOuter (trim (ls.getD i [])) = .bareOpen pkg
  | .barePending i => parseOuter (trim (ls.getD i [])) = .pending pkg

/-- A thread entry of the scan: a line before `n`, and a single-line rule if it says so; only such a one opens
    a block. -/
structure ThreadListed (ls : List Str) (pkg : Str) (n : Nat) (t : Str × ThreadLoc) : Prop where
  idx : t.2.idx < n
  opens : t.2.opens = true → t.2.single = true
  reads : t.2.single = true → ReadOutside ls pkg t.2.idx ∧ ∃ cpus,
    parseOuter (trim (ls.getD t.2.idx [])) = .single pkg t.1 cpus t.2.opens

/-- What the scan has listed of the first `n` lines. -/
structure ScanListed (ls : List Str) (pkg : Str) (n : Nat) (s : ScanState) : Prop where
  threads : ∀ t ∈ s.t.threads, ThreadListed ls pkg n t
  ascending : s.t.threads.Pairwise fun a b => a.2.idx < b.2.idx
  header : ∀ l, s.t.pkgLine = some l → l.idx < n ∧ l.Reads ls pkg
  pending : ∀ i, s.pending = some i → i < n
  blockOpen : ∀ o, s.t.blockOpen = some o → o < n
  blockClose : ∀ c, s.t.blockClose = some c →
    c < n ∧ (scanPrefix ls pkg (ls.take c)).targetBlock = true

theorem ScanListed.start : ScanListed ls pkg 0 {} :=
  ⟨fun _ h => (by cases h), .nil, fun _ h => (by cases h), fun _ h => (by cases h),
    fun _ h => (by cases h), fun _ h => (by cases h)⟩

theorem ScanListed.mono (h : ScanListed ls pkg n s) : ScanListed ls pkg (n + 1) s where
  threads t ht := ⟨(h.threads t ht).idx.trans n.lt_succ_self, (h.threads t ht).opens, (h.threads t ht).reads⟩
  ascending := h.ascending
  header l hl := ⟨(h.header l hl).1.trans n.lt_succ_self, (h.header l hl).2⟩
  pending i hi := (h.pending i hi).trans n.lt_succ_self
  blockOpen o ho := (h.blockOpen o ho).trans n.lt_succ_self
  blockClose c hc := ⟨(h.blockClose c hc).1.trans n.lt_succ_self, (h.blockClose c hc).2⟩

/-- The flags of the scan do not matter here. -/
theorem ScanListed.flags (h : ScanListed ls pkg n s) {s' : ScanState} (ht : s'.t = s.t)
    (hp : ∀ i, s'.pending = some i → i < n) : ScanListed ls pkg n s' := by
  obtain ⟨h₁, h₂, h₃, _, h₅, h₆⟩ := h
  rw [← ht] at h₁ h₂ h₃ h₅ h₆
  exact ⟨h₁, h₂, h₃, hp, h₅, h₆⟩

theorem ScanListed.push (h : ScanListed ls pkg n s) {name : Str} {loc : ThreadLoc} (hidx : loc.idx = n)
    (hopens : loc.opens = true → loc.single = true)
    (hreads : loc.single = true → ReadOutside ls pkg n ∧ ∃ cpus,
      parseOuter (trim (ls.getD n [])) = .single pkg name cpus loc.opens)
    {s' : ScanState} (ht : s'.t = s.t.pushThread name loc) (hp : ∀ i, s'.pending = some i → i < n + 1) :
    ScanListed ls pkg (n + 1) s' := by
  have hm := h.mono
  refine ⟨fun t hmem => ?_, ?_, fun l hl => hm.header l (by rwa [ht] at hl), hp,
    fun o ho => hm.blockOpen o (by rwa [ht] at ho), fun c hc => hm.blockClose c (by rwa [ht] at hc)⟩
  · rw [ht] at hmem
    rcases List.mem_append.mp hmem with hmem | hmem
    · exact hm.threads t hmem
    · rw [List.mem_singleton.mp hmem]
      exact ⟨by simp [hidx], hopens, by simpa [hidx] using hreads⟩
  · rw [ht]
    refine List.pairwise_append.mpr ⟨h.ascending, List.pairwise_singleton _ _, fun a ha b hb => ?_⟩
    rw [List.mem_singleton.mp hb, hidx]
    exact (h.threads a ha).idx

theorem ScanListed.open (h : ScanListed ls pkg (n + 1) s) {s' : ScanState} (ht : s'.t = s.t.openBlock n)
    (hp : ∀ i, s'.pending = some i → i < n + 1) : ScanListed ls pkg (n + 1) s' := by
  obtain ⟨h₁, h₂, h₃, _, h₅, h₆⟩ := h
  have hthreads : (s.t.openBlock n).threads = s.t.threads := by unfold Target.openBlock; split <;> rfl
  have hline : (s.t.openBlock n).pkgLine = s.t.pkgLine := by unfold Target.openBlock; split <;> rfl
  have hclose : (s.t.openBlock n).blockClose = s.t.blockClose := by unfold Target.openBlock; split <;> rfl
  refine ⟨?_, ?_, ?_, hp, fun o ho => ?_, ?_⟩
  · rw [ht, hthreads]
    exact h₁
  · rw [ht, hthreads]
    exact h₂
  · rw [ht, hline]
    exact h₃
  · rw [ht] at ho
    unfold Target.openBlock at ho
    split at ho
    · rw [← Option.some.inj ho]
      exact n.lt_succ_self
    · exact h₅ o ho
  · rw [ht, hclose]
    exact h₆

theorem ScanListed.note (h : ScanListed ls pkg (n + 1) s) {l : PkgLine} (hl : l.idx < n + 1) (hr : l.Reads ls pkg)
    {s' : ScanState} (ht : s'.t = s.t.notePkgLine l) (hp : ∀ i, s'.pending = some i → i < n + 1) :
    ScanListed ls pkg (n + 1) s' := by
  obtain ⟨h₁, h₂, h₃, _, h₅, h₆⟩ := h
  have hthreads : (s.t.notePkgLine l).threads = s.t.threads := by unfold Target.notePkgLine; split <;> rfl
  have hopen : (s.t.notePkgLine l).blockOpen = s.t.blockOpen := by unfold Target.notePkgLine; split <;> rfl
  have hclose : (s.t.notePkgLine l).blockClose = s.t.blockClose := by unfold Target.notePkgLine; split <;> rfl
  refine ⟨?_, ?_, fun l' hl' => ?_, hp, ?_, ?_⟩
  · rw [ht, hthreads]
    exact h₁
  · rw [ht, hthreads]
    exact h₂
  · rw [ht] at hl'
    unfold Target.notePkgLine at hl'
    split at hl'
    · rw [← Option.some.inj hl']
      exact ⟨hl, hr⟩
    · exact h₃ l' hl'
  · rw [ht, hopen]
    exact h₅
  · rw [ht, hclose]
    exact h₆

theorem ScanListed.close (h : ScanListed ls pkg (n + 1) s)
    (htarget : s.targetBlock = true → (scanPrefix ls pkg (ls.take n)).targetBlock = true) :
    ScanListed ls pkg (n + 1) (s.closeBlock n) := by
  obtain ⟨h₁, h₂, h₃, h₄, h₅, h₆⟩ := h
  unfold ScanState.closeBlock
  dsimp only
  split
  · next hcond =>
    refine ⟨h₁, h₂, h₃, h₄, h₅, fun c hc => ?_⟩
    rw [← Option.some.inj hc]
    exact ⟨n.lt_succ_self, htarget (Bool.and_eq_true _ _ ▸ hcond).1⟩
  · exact ⟨h₁, h₂, h₃, h₄, h₅, h₆⟩

/-- **The step lemma.** -/
theorem ScanListed.next (h : ScanListed ls pkg n s) (hline : ls.getD n [] = line)
    (hs : scanPrefix ls pkg (ls.take n) = s) : ScanListed ls pkg (n + 1) (scanLine ls pkg s (line, n)) := by
  have hm := h.mono
  have hown : s.targetBlock = true → (scanPrefix ls pkg (ls.take n)).targetBlock = true := by
    rw [hs]
    exact id
  have hpend : ∀ i, s.pending = some i → i < n + 1 := hm.pending
  have hnone : ∀ i, (none : Option Nat) = some i → i < n + 1 := fun i hi => by cases hi
  unfold scanLine
  dsimp only
  split
  · exact hm
  next hskip =>
  -- the line is read as an outer line only outside a block
  have hread : s.inBlock = false → ReadOutside ls pkg n := fun hb => by
    refine ⟨by rw [hs, hb], ?_⟩
    rw [hline]
    simpa using hskip
  split
  · split
    · exact hm.close hown
    · cases hr : splitRuleLine (trim line) with
      | none =>
        dsimp only
        split
        · exact hm.close hown
        · exact hm
      | some r =>
        obtain ⟨name, cpus, closed⟩ := r
        dsimp only
        have hpush : ScanListed ls pkg (n + 1) (if s.targetBlock && !name.isEmpty then
            { s with t := s.t.pushThread name { idx := n, single := false, closed, opens := false } }
            else s) := by
          split
          · exact h.push rfl (fun ho => by cases ho) (fun hsingle => by cases hsingle) rfl hpend
          · exact hm
        split
        · refine hpush.close fun ht => hown ?_
          split at ht <;> exact ht
        · exact hpush
  next hout =>
    have hblock : s.inBlock = false := by simpa using hout
    cases hp : parseOuter (trim line) with
    | single pg th cpus opens =>
      dsimp only
      -- the single-line rule is pushed before the block is opened
      let s₁ : ScanState := { s with
        pending := none
        t := if pg = pkg ∧ th ≠ [] then
            s.t.pushThread th { idx := n, single := true, closed := false, opens }
          else s.t }
      have hpush : ScanListed ls pkg (n + 1) s₁ := by
        by_cases hown : pg = pkg ∧ th ≠ []
        · refine @ScanListed.push _ _ _ _ h th { idx := n, single := true, closed := false, opens } rfl
            (fun _ => rfl) (fun _ => ⟨hread hblock, cpus, ?_⟩) s₁ (if_pos hown) hnone
          rw [hline, hp, hown.1]
        · exact @ScanListed.flags _ _ _ _ hm s₁ (if_neg hown) hnone
      split
      · by_cases ho : pg = pkg
        · exact hpush.open (if_pos ho) hnone
        · exact hpush.flags (if_neg ho) hnone
      · exact hpush
    | rule pg cpus opens =>
      dsimp only
      by_cases ho : pg = pkg
      · subst ho
        cases opens with
        | true =>
          simp only [if_true]
          refine ScanListed.note (s := { s with pending := none, t := s.t.openBlock n })
            (hm.open rfl hnone) (l := .openInline n) n.lt_succ_self ⟨cpus, ?_⟩ rfl hnone
          rw [hline, hp]
        | false =>
          simp only [Bool.false_eq_true, if_false, if_true]
          refine hm.note (l := .standalone n) n.lt_succ_self ⟨hread hblock, cpus, ?_⟩ rfl hnone
          rw [hline, hp]
      · simp only [ho, if_false]
        split
        · exact hm.flags rfl hnone
        · exact hm.flags rfl hnone
    | bareOpen owner =>
      dsimp only
      split
      · by_cases ho : owner = pkg
        · subst ho
          simp only [if_true]
          refine ScanListed.note (s := { s with pending := none, t := s.t.openBlock n })
            (hm.open rfl hnone) (l := .bareOpen n) n.lt_succ_self ?_ rfl hnone
          show parseOuter (trim (ls.getD n [])) = _
          rw [hline, hp]
        · simp only [ho, if_false]
          exact hm.flags rfl hnone
      · cases hsp : s.pending with
        | none => exact hm
        | some pi =>
          dsimp only
          by_cases hown : parseOuter (trim (ls.getD pi [])) = .pending pkg
          · simp only [hown, if_true]
            exact ScanListed.note (s := { s with pending := none, t := s.t.openBlock n })
              (hm.open rfl hnone) (l := .barePending pi) (hpend pi hsp) hown rfl hnone
          · simp only [hown, if_false]
            exact hm.flags rfl hnone
    | pending key => exact hm.flags rfl fun i hi => by rw [← Option.some.inj hi]; exact n.lt_succ_self
    | junk => exact hm.flags rfl hnone

/-- **The run lemma.** -/
theorem listed_scan (ls : List Str) (pkg : Str) {pre : List Str} (post : List Str) (hls : ls = pre ++ post) :
    ScanListed ls pkg pre.length (scanPrefix ls pkg pre) := by
  induction pre using List.reverseRecOn generalizing post with
  | nil => exact .start
  | append_singleton pre line ih =>
    rw [scanPrefix_concat, List.length_append, List.length_singleton]
    have h := ih (line :: post) (by rw [hls]; simp)
    exact h.next (by rw [hls]; simp) (by rw [hls]; simp)

theorem targetScan_listed (ls : List Str) (pkg : Str) :
    ScanListed ls pkg ls.length { t := targetScan ls pkg } := by
  have h := listed_scan ls pkg [] (List.append_nil ls).symm
  obtain ⟨h₁, h₂, h₃, _, h₅, h₆⟩ := h
  exact ⟨h₁, h₂, h₃, fun i hi => (by cases hi), h₅, h₆⟩

theorem thread_idx_lt {t : Str × ThreadLoc} (h : t ∈ (targetScan ls pkg).threads) : t.2.idx < ls.length :=
  ((targetScan_listed ls pkg).threads t h).idx

/-- The scan lists its thread entries in line order, and so the single-line rules and those of one thread. -/
theorem singles_ascending : (targetScan ls pkg).singles.Pairwise fun a b => a.idx < b.idx := by
  have h : ((targetScan ls pkg).threads.map (·.2)).Pairwise fun a b => a.idx < b.idx :=
    List.pairwise_map.mpr (targetScan_listed ls pkg).ascending
  exact h.filter _

theorem locs_ascending (name : Str) : ((targetScan ls pkg).locs name).Pairwise fun a b => a.idx < b.idx :=
  List.pairwise_map.mpr ((targetScan_listed ls pkg).ascending.filter _)

/-- No single-line rule has an empty key. -/
theorem singles_nil_of_empty (ls : List Str) : (targetScan ls []).singles = [] := by
  rw [Target.singles, List.filter_eq_nil_iff]
  intro loc hloc hs
  obtain ⟨t, ht, rfl⟩ := List.mem_map.mp hloc
  obtain ⟨_, cpus, hr⟩ := ((targetScan_listed ls []).threads t ht).reads hs
  exact (parseOuter_single hr).1 rfl

end AppOptR
