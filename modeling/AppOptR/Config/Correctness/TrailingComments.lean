import AppOptR.RuleEdit.Renames

/-!
# `Config.Correctness.TrailingComments` — a comment behind a line changes what the file means in one place only

The loader reads a line by its core, the text without the comment (`core_annotate`), with one exception: a line of a
block that is neither a close nor a rule ends the block when it has a `}` anywhere, the comment included.
`CommentSafe` keeps such a line's comment free of `}`. Under it the annotated file takes every step of the plain one
(`step_annotate`); where it fails, the block ends one line early, and a rule put there reads differently.
-/

namespace AppOptR

open Text

variable {l p c : Str} {ctl : LoadCtl} {topo : CpuTopology} {noted : List (Str × Option Str)}

/-- A line with its comment: ` # ` and the text, or nothing. -/
def annotate (line : Str × Option Str) : Str :=
  match line.2 with
  | none => line.1
  | some c => line.1 ++ (" # ".toList ++ c)

/-- A comment on this line does not end a block. -/
def SafeComment (ctl : LoadCtl) (line : Str × Option Str) : Prop :=
  ctl.inBlock = true → skipped (trim line.1) = false → closeLike (trim line.1) = false →
    splitRuleLine (trim line.1) = none → '}' ∉ trim line.1 → ∀ c ∈ line.2, '}' ∉ c

instance (ctl : LoadCtl) (line : Str × Option Str) : Decidable (SafeComment ctl line) :=
  inferInstanceAs (Decidable (_ → _ → _ → _ → _ → ∀ c ∈ line.2, '}' ∉ c))

/-- No comment of the file ends a block. -/
def CommentSafe (noted : List (Str × Option Str)) : Prop :=
  Mealy.Along (Mealy.through loadCtlStep Prod.fst) SafeComment {} noted

instance (noted : List (Str × Option Str)) : Decidable (CommentSafe noted) := Mealy.decidableAlong _ _

/-! ## A line with a comment -/

/-- The comment goes behind the trimmed line. -/
theorem trim_annotate (hne : trim l ≠ []) (c : Str) :
    ∃ t, CommentTail t ∧ trim (l ++ (" # ".toList ++ c)) = trim l ++ t ∧ ('}' ∈ t ↔ '}' ∈ c) := by
  obtain ⟨w, w', hw, hw', hl⟩ := trim_decomp l
  have hassoc : w' ++ (" # ".toList ++ c) = (w' ++ [' ']) ++ ('#' :: ' ' :: c) := by simp
  have hspace : Blank [' '] := by
    intro d hd
    rw [List.mem_singleton.mp hd]
    decide
  have htail : CommentTail (w' ++ (" # ".toList ++ c)) :=
    ⟨w' ++ [' '], '#' :: ' ' :: c, hassoc, by simp, hw'.append hspace, ' ' :: c, .inl rfl⟩
  have hread : trim (l ++ (" # ".toList ++ c)) = trim l ++ trimEnd (w' ++ (" # ".toList ++ c)) := by
    have hline : l ++ (" # ".toList ++ c) = w ++ (trim l ++ (w' ++ (" # ".toList ++ c))) := by
      conv_lhs => rw [hl]
      simp only [List.append_assoc]
    rw [hline, trim_blank_append hw, ((headSolid_trim l).append hne _).trim_eq, htail.trimEnd.2]
  refine ⟨_, htail.trimEnd.1, hread, ?_⟩
  constructor
  · intro hm
    obtain ⟨v, _, hv⟩ := trimEnd_decomp (w' ++ (" # ".toList ++ c))
    have hm' : '}' ∈ w' ++ (" # ".toList ++ c) := by rw [hv]; exact List.mem_append_left _ hm
    rcases List.mem_append.mp hm' with h | h
    · exact absurd (hw' _ h) (by decide)
    · rcases List.mem_append.mp h with h | h
      · exact absurd h (by decide)
      · exact h
  · intro hm
    by_contra hn
    have hkeep := mem_trim_of_mem (s := w' ++ (" # ".toList ++ c)) (by simp [hm]) (by decide : isWhitespace '}' = false)
    rw [← trim_trimEnd] at hkeep
    exact hn (trim_subset _ hkeep)

/-- A comment leaves the core alone. -/
theorem core_annotate (hne : trim l ≠ []) (c : Str) : core (l ++ (" # ".toList ++ c)) = core l := by
  obtain ⟨t, ht, hread, _⟩ := trim_annotate hne c
  have htail : CommentTail (commentTail (trim l) ++ t) := by
    rcases commentTail_cases (trim l) with h | h
    · rw [h]
      exact ht
    · exact h.append t
  have hsplit : trim l ++ t = stripComment (trim l) ++ (commentTail (trim l) ++ t) := by
    rw [← List.append_assoc, stripComment_append_commentTail]
  have hnil : commentTail (trim l) ++ t ≠ [] := by
    obtain ⟨x, r, hx, _⟩ := htail.head
    rw [hx]
    simp
  unfold core
  rw [hread, hsplit, stripComment_append (commentFind_stripComment _) (.inr htail), if_neg hnil]
  exact trimEnd_eq_self.mpr (lastSolid_core l)

theorem skipped_annotate (l c : Str) : skipped (trim (l ++ (" # ".toList ++ c))) = skipped (trim l) := by
  by_cases hne : trim l = []
  · have hspace : Blank [' '] := by
      intro d hd
      rw [List.mem_singleton.mp hd]
      decide
    have htail : CommentTail (" # ".toList ++ c) :=
      ⟨[' '], '#' :: ' ' :: c, by simp, by simp, hspace, ' ' :: c, .inl rfl⟩
    rw [blank_append_mark (trim_eq_nil.mp hne) (.inr htail), hne]
    rfl
  · obtain ⟨t, ht, hread, _⟩ := trim_annotate hne c
    obtain ⟨x, r, rfl, hx⟩ := ht.head
    have hslash : x ≠ '/' := by
      rintro rfl
      exact absurd hx (by decide)
    rw [hread, skipped_append hne hslash]

/-! ## One line -/

/-- What the loader does with a line of a block that is neither a close nor a rule. -/
theorem step_idle (hin : ctl.inBlock = true) (hs : skipped (trim l) = false) (hcl : closeLike (trim l) = false)
    (hsplit : splitRuleLine (trim l) = none) :
    loadCtlStep ctl l = (if '}' ∈ trim l then { ctl with inBlock := false, curPkg := [] } else ctl, [.fail]) := by
  unfold loadCtlStep
  simp only [hs, hin, hcl, hsplit, Bool.false_eq_true, if_false, if_true]

/-- **One line**: a safe comment changes nothing. -/
theorem step_annotate {line : Str × Option Str} (h : SafeComment ctl line) :
    loadCtlStep ctl (annotate line) = loadCtlStep ctl line.1 := by
  obtain ⟨l, note⟩ := line
  cases note with
  | none => rfl
  | some c =>
    show loadCtlStep ctl (l ++ (" # ".toList ++ c)) = loadCtlStep ctl l
    by_cases hs : skipped (trim l) = true
    · unfold loadCtlStep
      simp only [skipped_annotate, hs, if_true]
    have hs : skipped (trim l) = false := by simpa using hs
    have hne : trim l ≠ [] := by
      intro hnil
      rw [hnil] at hs
      cases hs
    have hs' : skipped (trim (l ++ (" # ".toList ++ c))) = false := by rw [skipped_annotate, hs]
    -- the three readers see the line without its comment
    have hcore := core_annotate hne c
    have hcl : closeLike (trim (l ++ (" # ".toList ++ c))) = closeLike (trim l) := by
      rw [closeLike_core, hcore, ← closeLike_core]
    have hsplit : splitRuleLine (trim (l ++ (" # ".toList ++ c))) = splitRuleLine (trim l) := by
      rw [splitRuleLine_core, hcore, ← splitRuleLine_core]
    have houter : parseOuter (trim (l ++ (" # ".toList ++ c))) = parseOuter (trim l) := by
      rw [parseOuter_core, hcore, ← parseOuter_core]
    by_cases hidle : ctl.inBlock = true ∧ closeLike (trim l) = false ∧ splitRuleLine (trim l) = none
    · -- the one place where the loader looks at the whole line
      obtain ⟨hin, hc, hn⟩ := hidle
      obtain ⟨t, _, hread, hmem⟩ := trim_annotate hne c
      have hbrace : '}' ∈ trim (l ++ (" # ".toList ++ c)) ↔ '}' ∈ trim l := by
        rw [hread, List.mem_append, hmem]
        by_cases hb : '}' ∈ trim l
        · simp [hb]
        · simp [hb, h hin hs hc hn hb c rfl]
      rw [step_idle hin hs' (hcl.trans hc) (hsplit.trans hn), step_idle hin hs hc hn]
      simp only [hbrace]
    · unfold loadCtlStep
      simp only [hs, hs', hcl, hsplit, houter, Bool.false_eq_true, if_false]
      by_cases hin : ctl.inBlock = true
      · simp only [hin, if_true]
        by_cases hc : closeLike (trim l) = true
        · simp only [hc, if_true]
        · have hc : closeLike (trim l) = false := by simpa using hc
          cases hn : splitRuleLine (trim l) with
          | none => exact absurd ⟨hin, hc, hn⟩ hidle
          | some r => rfl
      · simp only [hin]
        rfl

/-! ## The file -/

/-- The rules of some lines, by what the control emits. -/
theorem loadLines_view (createCpusetDir : Nat → Str → Bool) (topo : CpuTopology) (ls : List Str) :
    (loadLines createCpusetDir topo ls).rules.map AffinityRule.view
      = ((Mealy.emit loadCtlStep {} ls).flatMap addArgs).filterMap fun e =>
          (addRule (fun _ => true) topo e.1 e.2.1 e.2.2).map AffinityRule.view := by
  have hrule : ∀ (create : Str → Bool) (pkg thread cpus : Str),
      (addRule create topo pkg thread cpus).map AffinityRule.view
        = (addRule (fun _ => true) topo pkg thread cpus).map AffinityRule.view := by
    intro create pkg thread cpus
    unfold addRule
    split
    · rfl
    split
    · rfl
    split
    · rfl
    dsimp only
    split <;> rfl
  have hview : ((Mealy.emit (Mealy.indexed loadCtlStep) {} ls.zipIdx).flatMap (Mealy.tag addArgs)).map Prod.snd
      = (Mealy.emit loadCtlStep {} ls).flatMap addArgs := Mealy.emit_indexed_view addArgs ({} : LoadCtl) ls 0
  rw [loadLines_rules, addCalls, ← hview, List.map_filterMap, List.filterMap_map, List.filterMap_map]
  refine List.filterMap_congr fun e _ => ?_
  exact hrule _ _ _ _

/-- A safe annotation takes the steps of the plain file. -/
theorem annotate_sim : Mealy.Sim (Mealy.through loadCtlStep Prod.fst) (Mealy.through loadCtlStep annotate) SafeComment
    (fun ctl ctl' => ctl = ctl') addArgs addArgs where
  next := by
    rintro ctl _ line rfl h
    exact congrArg Prod.fst (step_annotate h).symm
  view := by
    rintro ctl _ line rfl h
    exact congrArg (fun r => r.2.flatMap addArgs) (step_annotate h).symm

/-- The two runs over an annotated text. -/
theorem annotate_run (h : CommentSafe noted) :
    Mealy.final loadCtlStep {} (noted.map annotate) = Mealy.final loadCtlStep {} (noted.map Prod.fst) ∧
      (Mealy.emit loadCtlStep {} (noted.map annotate)).flatMap addArgs
        = (Mealy.emit loadCtlStep {} (noted.map Prod.fst)).flatMap addArgs := by
  obtain ⟨hfinal, hemit⟩ := annotate_sim.run (s := {}) (t := {}) rfl h
  rw [Mealy.final_through, Mealy.final_through] at hfinal
  rw [Mealy.emit_through, Mealy.emit_through] at hemit
  exact ⟨hfinal.symm, hemit.symm⟩

/-- **A safe annotation changes no rule.** -/
theorem safe_view (create create' : Nat → Str → Bool) (topo : CpuTopology) (h : CommentSafe noted) :
    (loadLines create' topo (noted.map annotate)).rules.map AffinityRule.view
      = (loadLines create topo (noted.map Prod.fst)).rules.map AffinityRule.view := by
  rw [loadLines_view, loadLines_view, (annotate_run h).2]

/-! ## Where a comment ends a block -/

theorem commentSafe_append {rest : List (Str × Option Str)} (h : CommentSafe (noted ++ rest)) : CommentSafe noted :=
  (Mealy.along_append.mp h).1

/-- Lines without comments are safe. -/
theorem commentSafe_plain (ls : List Str) {ctl : LoadCtl} :
    Mealy.Along (Mealy.through loadCtlStep Prod.fst) SafeComment ctl (ls.map fun l => (l, none)) := by
  induction ls generalizing ctl with
  | nil => exact Mealy.along_nil
  | cons l ls ih =>
    refine Mealy.along_cons.mpr ⟨?_, ih⟩
    intro _ _ _ _ _ c hc
    cases hc

theorem map_annotate_plain (ls : List Str) : (ls.map fun l => (l, none)).map annotate = ls := by
  rw [List.map_map]
  exact List.map_id ls

theorem map_fst_plain (ls : List Str) : (ls.map fun l => ((l, none) : Str × Option Str)).map Prod.fst = ls := by
  rw [List.map_map]
  exact List.map_id ls

/-- The first unsafe comment: the plain block goes on, the annotated one ends. -/
theorem unsafe_places (h : ¬ CommentSafe noted) :
    ∃ pre rest ctl, noted = pre ++ rest ∧ ctl.inBlock = true ∧
      Mealy.final loadCtlStep {} (pre.map Prod.fst) = ctl ∧
      Mealy.final loadCtlStep {} (pre.map annotate) = { ctl with inBlock := false, curPkg := [] } ∧
      (Mealy.emit loadCtlStep {} (pre.map annotate)).flatMap addArgs
        = (Mealy.emit loadCtlStep {} (pre.map Prod.fst)).flatMap addArgs := by
  obtain ⟨pre, line, rest, rfl, hpre, hbad⟩ := Mealy.not_along h
  obtain ⟨l, note⟩ := line
  have hrun := annotate_run hpre
  rw [Mealy.final_through] at hbad
  generalize hctl : Mealy.final loadCtlStep {} (pre.map Prod.fst) = ctl at hbad hrun
  unfold SafeComment at hbad
  push Not at hbad
  obtain ⟨hin, hs, hcl, hsplit, hnb, c, hc, hb⟩ := hbad
  obtain rfl : note = some c := hc
  have hne : trim l ≠ [] := by
    intro hnil
    rw [hnil] at hs
    cases hs
  obtain ⟨t, _, hread, hmem⟩ := trim_annotate hne c
  -- the line states nothing, so without its comment the block stays open
  have hplain : loadCtlStep ctl l = (ctl, [.fail]) := by
    rw [step_idle hin hs hcl hsplit, if_neg hnb]
  have hcore := core_annotate hne c
  -- with it the brace in the comment ends the block
  have hnoted : loadCtlStep ctl (annotate (l, some c)) = ({ ctl with inBlock := false, curPkg := [] }, [.fail]) := by
    have hs' : skipped (trim (l ++ (" # ".toList ++ c))) = false := by rw [skipped_annotate, hs]
    have hcl' : closeLike (trim (l ++ (" # ".toList ++ c))) = false := by
      rw [closeLike_core, hcore, ← closeLike_core, hcl]
    have hsplit' : splitRuleLine (trim (l ++ (" # ".toList ++ c))) = none := by
      rw [splitRuleLine_core, hcore, ← splitRuleLine_core, hsplit]
    have hb' : '}' ∈ trim (l ++ (" # ".toList ++ c)) := by
      rw [hread]
      exact List.mem_append_right _ (hmem.mpr hb)
    show loadCtlStep ctl (l ++ (" # ".toList ++ c)) = _
    rw [step_idle hin hs' hcl' hsplit', if_pos hb']
  refine ⟨pre ++ [(l, some c)], rest, ctl, by simp, hin, ?_, ?_, ?_⟩
  · rw [List.map_append, Mealy.final_append, hctl]
    exact congrArg Prod.fst hplain
  · rw [List.map_append, Mealy.final_append, hrun.1]
    exact congrArg Prod.fst hnoted
  · rw [List.map_append, List.map_append, Mealy.emit_append, Mealy.emit_append, List.flatMap_append,
      List.flatMap_append, hrun.1, hctl, hrun.2]
    refine congrArg _ ?_
    show (Mealy.emit loadCtlStep ctl [annotate (l, some c)]).flatMap addArgs
      = (Mealy.emit loadCtlStep ctl [l]).flatMap addArgs
    rw [Mealy.emit_cons, Mealy.emit_cons, hplain, hnoted]
    rfl

/-- A rule for the first core, that no block owns. -/
def loneRule : Str := "x=0".toList

/-- Behind an unsafe comment, a rule of the block becomes a rule of a package. -/
theorem unsafe_view (h : ¬ CommentSafe noted) (create create' : Nat → Str → Bool) :
    ∃ pre rest, noted = pre ++ rest ∧
      (loadLines create' quadTopology (pre.map annotate ++ [loneRule])).rules.map AffinityRule.view
        ≠ (loadLines create quadTopology (pre.map Prod.fst ++ [loneRule])).rules.map AffinityRule.view := by
  obtain ⟨pre, rest, ctl, rfl, hin, hplain, hnoted, hemit⟩ := unsafe_places h
  refine ⟨pre, rest, rfl, fun hsame => ?_⟩
  rw [loadLines_view, loadLines_view, Mealy.emit_append, Mealy.emit_append, List.flatMap_append, List.flatMap_append,
    hplain, hnoted, hemit, List.filterMap_append, List.filterMap_append, List.append_cancel_left_eq] at hsame
  -- the same line, read as a thread of the block and as a package
  have hinside : (Mealy.emit loadCtlStep ctl [loneRule]).flatMap addArgs = [(ctl.curPkg, "x".toList, "0".toList)] := by
    have hs : skipped (trim loneRule) = false := by decide
    have hcl : closeLike (trim loneRule) = false := by decide
    have hsplit : splitRuleLine (trim loneRule) = some ("x".toList, "0".toList, false) := by decide
    rw [Mealy.emit_cons]
    unfold loadCtlStep
    simp only [hs, hin, hcl, hsplit, Bool.false_eq_true, if_false, if_true]
    rfl
  have houtside : (Mealy.emit loadCtlStep { ctl with inBlock := false, curPkg := [] } [loneRule]).flatMap addArgs
      = [("x".toList, [], "0".toList)] := by
    have hs : skipped (trim loneRule) = false := by decide
    have hread : parseOuter (trim loneRule) = .rule "x".toList "0".toList false := by decide
    rw [Mealy.emit_cons]
    unfold loadCtlStep
    simp only [hs, hread, Bool.false_eq_true, if_false]
    unfold danglingFail
    split <;> rfl
  rw [hinside, houtside] at hsame
  have hrule : (addRule (fun _ => true) quadTopology "x".toList [] "0".toList).map AffinityRule.view
      = some ("x".toList, [], parseCpuSpec "0".toList quadTopology) := by decide +kernel
  rw [List.filterMap_cons, hrule] at hsame
  -- the rule of the block, if there is one, has a thread
  unfold addRule at hsame
  simp only [List.filterMap_cons, List.filterMap_nil] at hsame
  split at hsame
  · cases hsame
  · next r hr =>
    split at hr
    · cases hr
    split at hr
    · cases hr
    split at hr
    · cases hr
    split at hr
    · cases hr
    cases hr
    have hthread : ([[]] : List Str) = ["x".toList] := congrArg (List.map fun v : Str × Str × CpuSet => v.2.1) hsame
    cases hthread

/-- Lines without comments behind a safe annotation. -/
theorem CommentSafe.append_plain (h : CommentSafe noted) (post : List Str) :
    CommentSafe (noted ++ post.map fun l => (l, none)) :=
  Mealy.along_append.mpr ⟨h, commentSafe_plain post⟩

/-- **A comment behind a line changes no rule** of a file when none of its comments ends a block. The condition is the
    exact one for lines that any others may follow: where it fails, some first lines of the file and one more read
    differently. -/
theorem comments_mean_nothing (create create' : Nat → Str → Bool) (appPackageNames threadRulePackages : Finset Str)
    (noted : List (Str × Option Str)) :
    (CommentSafe noted → ∀ topo content content', lines content = noted.map Prod.fst →
      lines content' = noted.map annotate →
      (configOf create' topo appPackageNames threadRulePackages content').rules.map AffinityRule.view
        = (configOf create topo appPackageNames threadRulePackages content).rules.map AffinityRule.view) ∧
    (CommentSafe noted ↔ ∀ topo pre, pre <+: noted → ∀ post,
      (loadLines create' topo (pre.map annotate ++ post)).rules.map AffinityRule.view
        = (loadLines create topo (pre.map Prod.fst ++ post)).rules.map AffinityRule.view) := by
  refine ⟨fun h topo content content' hplain hnoted => ?_, fun h topo pre hpre post => ?_, fun h => ?_⟩
  · show (loadLines create' topo (lines content')).rules.map _ = (loadLines create topo (lines content)).rules.map _
    rw [hplain, hnoted]
    exact safe_view create create' topo h
  · obtain ⟨rest, rfl⟩ := hpre
    have hview := safe_view create create' topo ((commentSafe_append h).append_plain post)
    rwa [List.map_append, List.map_append, map_annotate_plain, map_fst_plain] at hview
  · by_contra hunsafe
    obtain ⟨pre, rest, rfl, hne⟩ := unsafe_view hunsafe create create'
    exact hne (h quadTopology pre (List.prefix_append pre rest) [loneRule])

/-- A `}` in the comment of a rule of a block. -/
theorem comments_mean_nothing_rule :
    (configOf (fun _ _ => true) quadTopology ∅ ∅ "com.a \x7b\nT=0 # not \x7d\nU=1\n\x7d\n".toList).rules.map
        AffinityRule.view
      = (configOf (fun _ _ => true) quadTopology ∅ ∅ "com.a \x7b\nT=0\nU=1\n\x7d\n".toList).rules.map
          AffinityRule.view :=
  (comments_mean_nothing (fun _ _ => true) (fun _ _ => true) ∅ ∅
    [("com.a \x7b".toList, none), ("T=0".toList, some "not \x7d".toList), ("U=1".toList, none),
      ("\x7d".toList, none)]).1 (by decide +kernel) quadTopology _ _ (by decide +kernel) (by decide +kernel)

/-- A comment with a `}` inside a block: the rule behind it is lost to the package. -/
theorem comments_end_block :
    let noted : List (Str × Option Str) :=
      [("com.a \x7b".toList, none), ("note".toList, some "see \x7d".toList), ("T=0".toList, none),
        ("\x7d".toList, none)]
    let content := "com.a \x7b\nnote\nT=0\n\x7d\n".toList
    let content' := "com.a \x7b\nnote # see \x7d\nT=0\n\x7d\n".toList
    lines content = noted.map Prod.fst ∧ lines content' = noted.map annotate ∧
      (configOf (fun _ _ => true) quadTopology ∅ ∅ content').rules.map AffinityRule.view
        ≠ (configOf (fun _ _ => true) quadTopology ∅ ∅ content).rules.map AffinityRule.view := by
  decide +kernel

end AppOptR
