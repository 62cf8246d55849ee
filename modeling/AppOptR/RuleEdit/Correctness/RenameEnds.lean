import AppOptR.RuleEdit.Correctness.Removal
import AppOptR.RuleEdit.Correctness.Listed
import AppOptR.RuleEdit.Correctness.Store
import AppOptR.RuleEdit.Renames

/-!
# `RuleEdit.Correctness.RenameEnds` — the loop of `rule_rename`

Each round rewrites the first header and the single-line rules of the old package where they stand, and the
loop relies on a rewritten line not being read as one of the old package again. A header is one for at most two
rounds, a single-line rule for one (`Renames`); so what is left to rewrite shrinks with every round
(`renamesLeft_total`). The exception is a new name that nests the old one (`Nests`): `a{T}=0` renamed from `a`
to `a{b` is `a{b{T}=0`, a single-line rule of `a` again, in every round.
-/

namespace AppOptR

open Text Json Relation

variable {old new l : Str} {ls ls' : List Str}

/-! ## What a line has left -/

/-- How many rounds can still rewrite the line. -/
def renamesLeft (old new l : Str) : Nat :=
  if ReadsOf true old l then (if Nests old new then 0 else 1)
  else if ReadsOf false old l then (if ReadsOf false old (renameLine old new l) then 2 else 1)
  else 0

/-- A line that a round may rewrite. -/
def Rewritable (old new l : Str) : Prop := ReadsOf true old l ∧ ¬ Nests old new ∨ ReadsOf false old l

theorem reads_exclusive (h : ReadsOf false old l) : ¬ ReadsOf true old l := fun h' => by
  rw [ReadsOf, h.2] at h'
  cases h'.2

/-- **A rewritten line has fewer rounds left.** -/
theorem renamesLeft_lt (hold : Key old) (hnew : Key new) (hne : old ≠ new) (h : Rewritable old new l) :
    renamesLeft old new (renameLine old new l) < renamesLeft old new l := by
  rcases h with ⟨h, hnest⟩ | h
  · have hgone := fun single => @rename_single _ _ _ hold hnew hne hnest h single
    unfold renamesLeft
    rw [if_pos h, if_neg hnest, if_neg (hgone true), if_neg (hgone false)]
    exact Nat.zero_lt_one
  · have hleft : renamesLeft old new l = if ReadsOf false old (renameLine old new l) then 2 else 1 := by
      unfold renamesLeft
      rw [if_neg (reads_exclusive h), if_pos h]
    rw [hleft]
    by_cases h' : ReadsOf false old (renameLine old new l)
    · rw [if_pos h']
      unfold renamesLeft
      rw [if_neg (reads_exclusive h'), if_pos h', if_neg (rename_header_twice hold hnew hne h h')]
      exact Nat.one_lt_two
    · rw [if_neg h']
      unfold renamesLeft
      by_cases hs : ReadsOf true old (renameLine old new l)
      · -- only under a nesting name, and then single-line rules do not count
        have hnest : Nests old new := by
          by_contra hnest
          exact rename_header_single hold hnew hnest h hs
        rw [if_pos hs, if_pos hnest]
        exact Nat.zero_lt_one
      · rw [if_neg hs, if_neg h']
        exact Nat.zero_lt_one

/-! ## What a round leaves -/

/-- What the lines have left, together. -/
def renamesTotal (old new : Str) (ls : List Str) : Nat := (ls.map (renamesLeft old new)).sum

theorem renamesTotal_set {i : Nat} (h : i < ls.length) (x : Str) :
    renamesTotal old new (ls.set i x) + renamesLeft old new (ls.getD i []) =
      renamesTotal old new ls + renamesLeft old new x := by
  unfold renamesTotal
  induction ls generalizing i with
  | nil => exact absurd h (Nat.not_lt_zero _)
  | cons l ls ih =>
    cases i with
    | zero =>
      simp only [List.set_cons_zero, List.getD_cons_zero, List.map_cons, List.sum_cons]
      omega
    | succ i =>
      have hi := ih (Nat.lt_of_succ_lt_succ h)
      simp only [List.set_cons_succ, List.getD_cons_succ, List.map_cons, List.sum_cons]
      omega

/-- One rewrite of a round. -/
def renameAt (old new : Str) (ls : List Str) (i : Nat) : List Str := ls.set i (renameLine old new (ls.getD i []))

/-- The lines after one round. -/
def renamedLines (old new : Str) (ls : List Str) : List Str :=
  (renameRound (targetScan ls old)).foldl (renameAt old new) ls

/-- Each rewrite of different lines takes something away. -/
theorem renamesTotal_rewrites (hold : Key old) (hnew : Key new) (hne : old ≠ new) {is : List Nat}
    (hdistinct : is.Nodup) (his : ∀ i ∈ is, i < ls.length ∧ Rewritable old new (ls.getD i [])) :
    renamesTotal old new (is.foldl (renameAt old new) ls) + is.length ≤ renamesTotal old new ls := by
  induction is generalizing ls with
  | nil => exact le_rfl
  | cons i is ih =>
    obtain ⟨hi, hrest⟩ := List.nodup_cons.mp hdistinct
    obtain ⟨hlt, hw⟩ := his i (by simp)
    have hstep := @renamesTotal_set old new _ _ hlt (renameLine old new (ls.getD i []))
    have hless := renamesLeft_lt hold hnew hne hw
    have hmore := @ih (renameAt old new ls i) hrest fun j hj => by
      obtain ⟨hjlt, hjw⟩ := his j (List.mem_cons_of_mem _ hj)
      have hij : i ≠ j := fun he => hi (he ▸ hj)
      unfold renameAt
      rw [List.length_set, List.getD_eq_getElem?_getD, List.getElem?_set_ne hij, ← List.getD_eq_getElem?_getD]
      exact ⟨hjlt, hjw⟩
    rw [List.foldl_cons, List.length_cons]
    unfold renameAt at hmore ⊢
    omega

/-! ## The lines of a round -/

theorem ReadsOf.of_eq {r : OuterLine} {single : Bool} (h : parseOuter (trim l) = r) (hk : r.key = old)
    (hs : r.isSingle = single) : ReadsOf single old l := by
  subst h
  exact ⟨hk, hs⟩

theorem header_reads {h : PkgLine} (hr : h.Reads ls old) : ReadsOf false old (ls.getD h.idx []) := by
  cases h with
  | standalone i =>
    obtain ⟨_, cpus, hp⟩ := hr
    exact .of_eq hp rfl rfl
  | openInline i =>
    obtain ⟨cpus, hp⟩ := hr
    exact .of_eq hp rfl rfl
  | bareOpen i => exact .of_eq hr rfl rfl
  | barePending i => exact .of_eq hr rfl rfl

theorem single_listed {loc : ThreadLoc} (h : loc ∈ (targetScan ls old).singles) :
    loc.idx < ls.length ∧ ReadsOf true old (ls.getD loc.idx []) := by
  obtain ⟨name, hmem, hsingle⟩ := mem_singles.mp h
  have ht := (targetScan_listed ls old).threads _ hmem
  obtain ⟨_, cpus, hp⟩ := ht.reads hsingle
  exact ⟨ht.idx, .of_eq hp rfl rfl⟩

theorem header_listed {h : PkgLine} (hl : (targetScan ls old).pkgLine = some h) :
    h.idx < ls.length ∧ ReadsOf false old (ls.getD h.idx []) := by
  obtain ⟨hlt, hr⟩ := (targetScan_listed ls old).header h hl
  exact ⟨hlt, header_reads hr⟩

theorem renameRound_cases {i : Nat} (h : i ∈ renameRound (targetScan ls old)) :
    (∃ loc ∈ (targetScan ls old).singles, loc.idx = i) ∨ ∃ l, (targetScan ls old).pkgLine = some l ∧ l.idx = i := by
  unfold renameRound at h
  rcases List.mem_append.mp h with h | h
  · exact .inl (by simpa using h)
  · exact .inr (by simpa using h)

/-- A round rewrites each of its lines once. -/
theorem renameRound_nodup : (renameRound (targetScan ls old)).Nodup := by
  have hasc : ((targetScan ls old).singles.map (·.idx)).Pairwise (· < ·) := List.pairwise_map.mpr singles_ascending
  unfold renameRound
  refine List.nodup_append.mpr ⟨hasc.imp fun h => Nat.ne_of_lt h, ?_, ?_⟩
  · cases (targetScan ls old).pkgLine <;> simp
  · intro i hi j hj hij
    obtain ⟨loc, hloc, rfl⟩ := List.mem_map.mp hi
    obtain ⟨l, hl, rfl⟩ : ∃ l, (targetScan ls old).pkgLine = some l ∧ l.idx = j := by simpa using hj
    have hheader := (header_listed hl).2
    rw [← hij] at hheader
    exact reads_exclusive hheader (single_listed hloc).2

/-! ## The loop -/

/-- One round of the loop. -/
def RenameStep (old new : Str) (ls ls' : List Str) : Prop :=
  renameRound (targetScan ls old) ≠ [] ∧ ls' = renamedLines old new ls

/-- The state `rule_rename` waits for. -/
def Renamed (old : Str) (ls : List Str) : Prop :=
  (targetScan ls old).pkgLine = none ∧ (targetScan ls old).singles = []

theorem renameRound_nil : renameRound (targetScan ls old) = [] ↔ Renamed old ls := by
  unfold renameRound Renamed
  rw [List.append_eq_nil_iff, List.map_eq_nil_iff, and_comm]
  cases (targetScan ls old).pkgLine <;> simp

theorem renameLoop_step {fuel : Nat} (h : renameRound (targetScan ls old) ≠ []) :
    renameLoop old new (fuel + 1) ls = renameLoop old new fuel (renamedLines old new ls) := by
  conv_lhs => unfold renameLoop
  split
  · next hnil => exact absurd hnil h
  · rfl

theorem renameLoop_done {fuel : Nat} (h : Renamed old ls) : renameLoop old new (fuel + 1) ls = some ls := by
  conv_lhs => unfold renameLoop
  rw [renameRound_nil.mpr h]

/-- **What the loop returns**: the lines after some rounds, once none is left to rewrite. -/
theorem renameLoop_exit {fuel : Nat} (h : renameLoop old new fuel ls = some ls') :
    ReflTransGen (RenameStep old new) ls ls' ∧ Renamed old ls' := by
  induction fuel generalizing ls with
  | zero => cases h
  | succ fuel ih =>
    by_cases hround : renameRound (targetScan ls old) = []
    · rw [renameLoop_done (renameRound_nil.mp hround)] at h
      cases h
      exact ⟨.refl, renameRound_nil.mp hround⟩
    · rw [renameLoop_step hround] at h
      obtain ⟨hrun, hexit⟩ := ih h
      exact ⟨.head ⟨hround, rfl⟩ hrun, hexit⟩

/-- The lines that may come up in a round: under a nesting name, no single-line rules. -/
def RoundsApart (old new : Str) (ls : List Str) : Prop :=
  ∀ ls', ReflTransGen (RenameStep old new) ls ls' → Nests old new → (targetScan ls' old).singles = []

theorem round_shrinks (hold : Key old) (hnew : Key new) (hne : old ≠ new)
    (hapart : Nests old new → (targetScan ls old).singles = []) (h : renameRound (targetScan ls old) ≠ []) :
    renamesTotal old new (renamedLines old new ls) < renamesTotal old new ls := by
  have hless := @renamesTotal_rewrites _ _ ls hold hnew hne _ renameRound_nodup fun i hi => by
    rcases renameRound_cases hi with ⟨loc, hloc, rfl⟩ | ⟨l, hl, rfl⟩
    · obtain ⟨hlt, hr⟩ := single_listed hloc
      refine ⟨hlt, .inl ⟨hr, fun hnest => ?_⟩⟩
      rw [hapart hnest] at hloc
      cases hloc
    · exact ⟨(header_listed hl).1, .inr (header_listed hl).2⟩
  have hpos := List.length_pos_iff.mpr h
  unfold renamedLines
  omega

/-- **The loop ends** after at most as many rounds as the lines have left. -/
theorem renameLoop_ends {fuel : Nat} (hold : Key old) (hnew : Key new) (hne : old ≠ new)
    (hapart : RoundsApart old new ls) (hfuel : renamesTotal old new ls < fuel) :
    ∃ out, renameLoop old new fuel ls = some out ∧ Renamed old out := by
  induction fuel generalizing ls with
  | zero => exact absurd hfuel (Nat.not_lt_zero _)
  | succ fuel ih =>
    by_cases hround : renameRound (targetScan ls old) = []
    · have hdone := renameRound_nil.mp hround
      exact ⟨ls, renameLoop_done hdone, hdone⟩
    · rw [renameLoop_step hround]
      have hless := round_shrinks hold hnew hne (hapart ls .refl) hround
      exact ih (fun ls' hrun => hapart ls' (.head ⟨hround, rfl⟩ hrun)) (by omega)

/-! ## Every request -/

/-- The names `rule_rename_api` passes on to `rule_rename`. -/
structure RenameArgs (old new : Str) : Prop where
  oldName : Name maxPkgLen old
  newName : Name maxPkgLen new
  shape : ¬ ('{' ∈ new ∧ new.getLast? = some '}')
  differ : old ≠ new

theorem ruleRenameApiArgs_ok {body : Option Value} (h : ruleRenameApiArgs body = .ok (some (old, new))) :
    RenameArgs old new := by
  unfold ruleRenameApiArgs at h
  cases body with
  | none => cases h
  | some v =>
    dsimp only at h
    generalize ho : (v.index "old".toList).asStr.map trim = o at h
    generalize hn : (v.index "new".toList).asStr.map trim = n at h
    cases o with
    | none => cases h
    | some o =>
      cases n with
      | none => cases h
      | some n =>
        obtain ⟨o', _, rfl⟩ := Option.map_eq_some_iff.mp ho
        obtain ⟨n', _, rfl⟩ := Option.map_eq_some_iff.mp hn
        dsimp only at h
        split at h
        · cases h
        next hnames =>
        split at h
        · cases h
        next hshape =>
        split at h
        · cases h
        next hne =>
        simp only [Except.ok.injEq, Option.some.injEq, Prod.mk.injEq] at h
        obtain ⟨rfl, rfl⟩ := h
        simp only [Bool.or_eq_true, Bool.not_eq_true', not_or, Bool.not_eq_false] at hnames
        refine ⟨tokenOk_name hnames.1, tokenOk_name hnames.2, fun hs => hshape ?_, hne⟩
        simp [pkgShapeOk, hs.1, hs.2]

/-- Whatever the text, the loop of `rule_rename` reaches a state without a line of the old package. -/
def RenameEnds (old new text : Str) : Prop :=
  ∃ n, ∀ fuel, n ≤ fuel → ∃ out, renameLoop old new fuel (normalizeSingles (lines text) old) = some out ∧
    Renamed old out

/-- **The loop of `rule_rename` ends** for every request, unless the new name nests the old one and a round
    finds a single-line rule to rewrite. -/
theorem rename_ends (body : Option Value) (old new text : Str)
    (hargs : ruleRenameApiArgs body = .ok (some (old, new)))
    (hapart : RoundsApart old new (normalizeSingles (lines text) old)) : RenameEnds old new text := by
  have h := ruleRenameApiArgs_ok hargs
  refine ⟨renamesTotal old new (normalizeSingles (lines text) old) + 1, fun fuel hfuel => ?_⟩
  exact renameLoop_ends h.oldName.key h.newName.key h.differ hapart (by omega)

theorem rename_ends_block :
    RenameEnds "com.a".toList "com.b".toList "com.a\x7bT\x7d=1\ncom.a=0 # all\n".toList :=
  rename_ends (some (.object [("old".toList, .string "com.a".toList), ("new".toList, .string "com.b".toList)]))
    _ _ _ (by decide +kernel) fun _ _ hnest => absurd hnest (by decide +kernel)

/-- One line, a single-line rule that opens a block: under a nesting name every round rewrites it. -/
theorem renameLoop_nested (hold : Key old) (hnew : Key new) (hnest : Nests old new) {th cp : Str}
    (hs : skipped (trim l) = false) (h : parseOuter (trim l) = .single old th cp true) (fuel : Nat) :
    renameLoop old new fuel [l] = none := by
  induction fuel generalizing l th with
  | zero => rfl
  | succ fuel ih =>
    have hth : th ≠ [] := (parseOuter_single h).2
    have hround : renameRound (targetScan [l] old) = [0] := by
      simp [renameRound, targetScan, scanPrefix, scanLine, hs, h, hth, Target.singles, Target.pushThread,
        Target.openBlock]
    rw [renameLoop_step (by rw [hround]; simp)]
    obtain ⟨hs', th', h'⟩ := rename_nested hold hnew hnest h
    unfold renamedLines
    rw [hround]
    exact ih hs' h'

/-- `rule_rename_api` accepts the names, the package has a rule and the new name has none; and the loop does
    not end. -/
theorem rename_nested_never_ends :
    ruleRenameApiArgs (some (.object [("old".toList, .string "a".toList), ("new".toList, .string "a\x7bb".toList)]))
      = .ok (some ("a".toList, "a\x7bb".toList)) ∧
    (∀ fuel, renameLines fuel "a".toList "a\x7bb".toList (lines "a\x7bT\x7d=0 \x7b\n".toList) = none) ∧
    ¬ RenameEnds "a".toList "a\x7bb".toList "a\x7bT\x7d=0 \x7b\n".toList := by
  have hargs : ruleRenameApiArgs (some (.object [("old".toList, .string "a".toList),
      ("new".toList, .string "a\x7bb".toList)])) = .ok (some ("a".toList, "a\x7bb".toList)) := by decide +kernel
  have hnames := ruleRenameApiArgs_ok hargs
  have hnever := @renameLoop_nested _ _ ("a\x7bT\x7d=0 \x7b".toList) hnames.oldName.key hnames.newName.key
    (by decide +kernel) ("T".toList) ("0".toList) (by decide +kernel) (by decide +kernel)
  have hlines : normalizeSingles (lines "a\x7bT\x7d=0 \x7b\n".toList) "a".toList = ["a\x7bT\x7d=0 \x7b".toList] := by
    decide +kernel
  refine ⟨hargs, fun fuel => ?_, fun ⟨n, hn⟩ => ?_⟩
  · unfold renameLines
    dsimp only
    rw [hlines, if_neg (by decide +kernel), if_neg (by decide +kernel), hnever fuel]
    rfl
  · obtain ⟨out, hout, _⟩ := hn n le_rfl
    rw [hlines, hnever n] at hout
    cases hout

end AppOptR
