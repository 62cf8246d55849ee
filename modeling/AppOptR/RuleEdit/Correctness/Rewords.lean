import AppOptR.RuleEdit.Script
import AppOptR.RuleEdit.Correctness.Idempotent
import AppOptR.RuleEdit.Correctness.RenameCarries
import AppOptR.RuleEdit.Correctness.DeleteRule
import AppOptR.RuleEdit.Correctness.SpecSwap

/-!
# `RuleEdit.Correctness.Rewords` — what a rewrite leaves of the comment behind a line

The source assigns to a line in seven ways (`Reword`). `with_comment` keeps the trailing comment; the brace that is
put behind a header is written into it, the rewrite of a header without its rule drops it, `spec_swap` hands it
blanks of the old value, and `rule_rename` trims its end. `Reword.Harmless` is the condition on the line for each of
these, and it is exact (`Reword.tail_iff`), where the line fits the rewrite (`Reword.Fits`).
-/

namespace AppOptR

open Text

variable {l pkg thread cpus old new : Str} {ls ls' : List Str} {n : Nat} {s : ScanState}

/-! ## The trailing comment of a rewritten line -/

theorem commentTail_plain {s : Str} (h : commentFind false s = none) : commentTail s = [] := by
  rcases stripComment_cases s with ⟨_, ht, _⟩ | ⟨ht, _, _⟩
  · exact ht
  · have hat : commentAt s = none := by rw [commentAt, h]; rfl
    exact commentAt_eq_none.mp hat

theorem brace_plain {c : Char} (h : c ∈ [' ', '{']) : c ≠ '#' ∧ c ≠ '/' := by
  rcases List.mem_pair.mp h with rfl | rfl <;> decide

/-- A comment put behind a text is the comment of the line. -/
theorem commentTail_append {s t : Str} (hs : commentFind false s = none) (hl : LastSolid s)
    (ht : t = [] ∨ CommentTail t) : commentTail (s ++ t) = t := by
  have hsplit := stripComment_append_commentTail (s ++ t)
  have hstrip : stripComment (s ++ t) = s := by
    rw [stripComment_append hs ht, trimEnd_eq_self.mpr hl, ite_self]
  rw [hstrip] at hsplit
  exact List.append_cancel_left hsplit

/-- **`with_comment` keeps the comment.** -/
theorem commentTail_withComment {s : Str} (hs : commentFind false s = none) (hl : LastSolid s) (l : Str) :
    commentTail (withComment s l) = commentTail l := by
  rw [withComment_eq]
  exact commentTail_append hs hl (commentTail_cases l)

/-- **A brace behind a line** is written into its comment. -/
theorem commentTail_opened (l : Str) : commentTail (trimEnd l ++ [' ', '{']) = commentTail l ↔ commentAt l = none := by
  rw [commentAt_eq_none]
  rcases stripComment_cases l with ⟨_, ht, hn⟩ | ⟨ht, hlast, hn⟩
  · have hnew : commentFind false (trimEnd l ++ [' ', '{']) = none :=
      commentFind_append_plain (commentFind_trimEnd hn) fun _ hc => brace_plain hc
    rw [ht, commentTail_plain hnew]
  · have hne : commentTail l ≠ [] := by
      obtain ⟨x, r, hx, _⟩ := ht.head
      rw [hx]
      exact List.cons_ne_nil _ _
    refine iff_of_false (fun hsame => ?_) hne
    have hline : trimEnd l ++ [' ', '{'] = stripComment l ++ (trimEnd (commentTail l) ++ [' ', '{']) := by
      conv_lhs => rw [← stripComment_append_commentTail l, ht.trimEnd.2, List.append_assoc]
    rw [hline, commentTail_append hn hlast (.inr (ht.trimEnd.1.append _))] at hsame
    have hend : trimEnd (trimEnd (commentTail l) ++ [' ', '{']) = trimEnd (commentTail l) ++ [' ', '{'] :=
      trimEnd_eq_self.mpr fun c hc => by
        rw [List.getLast?_append_of_ne_nil _ (by simp)] at hc
        rw [← Option.some.inj hc]
        decide
    have hlen := congrArg List.length (hend.symm.trans (congrArg trimEnd hsame))
    simp at hlen

/-- The blanks behind a comment are part of it; `trim` takes them off. -/
theorem commentTail_trim (hs : skipped (trim l) = false) :
    commentTail (trim l) = commentTail l ↔ commentAt l = none ∨ LastSolid l := by
  obtain ⟨w, x, hstrip, hw, hx, hne, hplain, _⟩ := core_decomp hs
  have hline := stripComment_append_commentTail l
  rw [hstrip, List.append_assoc] at hline
  rw [commentAt_eq_none]
  rcases stripComment_cases l with ⟨_, ht, _⟩ | ⟨ht, hlast, _⟩
  · have htrim : trim l = trimEnd x := by
      rw [← hline, ht, List.append_nil, trim_blank_append hw, hx.trim_eq]
    rw [htrim, commentTail_plain (commentFind_trimEnd hplain), ht]
    exact iff_of_true rfl (.inl rfl)
  · have htne : commentTail l ≠ [] := by
      obtain ⟨y, r, hy, _⟩ := ht.head
      rw [hy]
      exact List.cons_ne_nil _ _
    have hxlast : LastSolid x := by
      rw [hstrip] at hlast
      exact hlast.of_append
    have htrim : trim l = x ++ trimEnd (commentTail l) := by
      conv_lhs => rw [← hline]
      rw [trim_blank_append hw, (hx.append hne _).trim_eq, ht.trimEnd.2]
    have hsolid : LastSolid l ↔ LastSolid (commentTail l) := by
      conv_lhs => rw [← hline, ← List.append_assoc]
      exact ⟨fun hl => hl.of_append, fun hl => hl.append htne _⟩
    rw [htrim, commentTail_append hplain hxlast (.inr ht.trimEnd.1), trimEnd_eq_self, hsolid, or_iff_right htne]

/-- A renamed line has the comment of the trimmed one. -/
theorem commentTail_renameLine {single : Bool} (hold : Key old) (hnew : Key new) (h : ReadsOf single old l) :
    commentTail (renameLine old new l) = commentTail (trim l) := by
  obtain ⟨u, hu, _, hcore⟩ := h.renamed hold hnew
  have htrim : trim l = old ++ (u ++ commentTail (trim l)) := by
    conv_lhs => rw [← stripComment_append_commentTail (trim l)]
    rw [show stripComment (trim l) = old ++ u from hu, List.append_assoc]
  have hline := @renameLine_eq _ new _ _ htrim
  rcases commentTail_cases (trim l) with ht | ht
  · rw [ht, List.append_nil] at hline
    rw [ht, renamedRest, if_pos rfl, ← hline] at hcore
    have hplain := commentFind_core (renameLine old new l)
    rw [hcore] at hplain
    rw [commentTail_plain hplain, ht]
  · have hne : commentTail (trim l) ≠ [] := by
      obtain ⟨y, r, hy, _⟩ := ht.head
      rw [hy]
      exact List.cons_ne_nil _ _
    rw [renamedRest, if_neg hne] at hcore
    have hplain := commentFind_core (renameLine old new l)
    have hlast := lastSolid_core (renameLine old new l)
    rw [hcore] at hplain hlast
    rw [hline, renameTail_comment ht, ← List.append_assoc]
    exact commentTail_append hplain hlast (.inr ht)

/-! ## The rewrites -/

/-- What holds of a line when a step assigns to it: what the scan has read there, and what the request passed. -/
def Reword.Fits : Reword → Str → Prop
  | .opened, _ | .closing, _ => True
  | .blockLine pkg, _ | .bare pkg, _ => commentFind false pkg = none
  | .respec cpus, l => '=' ∈ core l ∧ ∃ topo, Spec topo cpus
  | .header pkg cpus, _ => commentFind false pkg = none ∧ commentFind false cpus = none
  | .rekey old new, l => Key old ∧ Key new ∧ ∃ single, ReadsOf single old l

/-- The value that `spec_swap` replaces leaves no blank behind its braces, or there is no comment to move. -/
def SwapTails (l : Str) : Prop := commentAt l = none ∨ LastSolid ((valueOf l).filter valueEnd)

/-- The line has no comment, or none with blanks behind it. -/
def EndsSolid (l : Str) : Prop := commentAt l = none ∨ LastSolid l

/-- The rewrite leaves the comment of the line alone. -/
def Reword.Harmless : Reword → Str → Prop
  | .opened, l | .bare _, l => commentAt l = none
  | .respec _, l => SwapTails l
  | .rekey _ _, l => EndsSolid l
  | .blockLine _, _ | .closing, _ | .header _ _, _ => True

theorem lastSolid_brace (s : Str) : LastSolid (s ++ [' ', '{']) := by
  intro c hc
  rw [List.getLast?_append_of_ne_nil _ (by simp)] at hc
  rw [← Option.some.inj hc]
  decide

theorem bareOpenLine_plain (h : commentFind false pkg = none) :
    commentFind false (bareOpenLine pkg) = none ∧ LastSolid (bareOpenLine pkg) := by
  unfold bareOpenLine
  split
  · have hpair : commentFind false (pkg ++ '=' :: []) = none := commentFind_pair h rfl (by decide) (by decide)
    rw [show pkg ++ ['=', ' ', '{'] = (pkg ++ '=' :: []) ++ [' ', '{'] by simp]
    exact ⟨commentFind_append_plain hpair fun _ hc => brace_plain hc, lastSolid_brace _⟩
  · exact ⟨commentFind_append_plain h fun _ hc => brace_plain hc, lastSolid_brace _⟩

/-- **A rewrite keeps the trailing comment** exactly when it is harmless. -/
theorem Reword.tail_iff {r : Reword} (hs : skipped (trim l) = false) (h : r.Fits l) :
    commentTail (r.act l) = commentTail l ↔ r.Harmless l := by
  cases r with
  | opened => exact commentTail_opened l
  | blockLine pkg =>
    obtain ⟨hplain, hlast⟩ := bareOpenLine_plain h
    exact iff_of_true (commentTail_withComment hplain hlast l) trivial
  | closing =>
    have hlast : LastSolid ['}'] := fun c hc => by rw [← Option.some.inj hc]; decide
    exact iff_of_true (commentTail_withComment rfl hlast l) trivial
  | respec cpus =>
    obtain ⟨heq, topo, hc⟩ := h
    exact commentTail_specSwap hs heq hc
  | header pkg cpus =>
    have hplain : commentFind false (pkg ++ '=' :: cpus ++ [' ', '{']) = none :=
      commentFind_append_plain (commentFind_pair h.1 h.2 (by decide) (by decide)) fun _ hc => brace_plain hc
    exact iff_of_true (commentTail_withComment hplain (lastSolid_brace _) l) trivial
  | bare pkg =>
    show commentTail (bareOpenLine pkg) = commentTail l ↔ commentAt l = none
    rw [commentTail_plain (bareOpenLine_plain h).1, commentAt_eq_none]
    exact eq_comm
  | rekey old new =>
    obtain ⟨hold, hnew, single, hreads⟩ := h
    show commentTail (renameLine old new l) = commentTail l ↔ EndsSolid l
    rw [commentTail_renameLine hold hnew hreads]
    exact commentTail_trim hs

end AppOptR
