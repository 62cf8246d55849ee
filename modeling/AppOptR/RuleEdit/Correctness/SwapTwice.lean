import AppOptR.RuleEdit.Correctness.SpecSwap

/-!
# `RuleEdit.Correctness.SwapTwice` — a spec put in a second time

The second of two equal edits finds the line the first has written and swaps its spec once more. The value it
meets is the new spec and a tail of blanks and braces, and `spec_swap` cuts the old spec off at the first
blank: a spec that is one word is replaced by itself, any other leaves its own blanks behind (`swap_again`).

What the swap makes of the block structure is weaker than what it makes of the rule (`SpecSwap`): the line opens
and closes what it did, unless a `{` inside an old spec comes to stand at the end (`StrayOpen`).
-/

namespace AppOptR

open Text

variable {cpus raw line l t : Str} {place : Place} {topo : CpuTopology}

/-! ## The same spec again -/

/-- A spec without white space. -/
def OneWord (cpus : Str) : Prop := ∀ c ∈ cpus, isWhitespace c = false

instance (cpus : Str) : Decidable (OneWord cpus) := List.decidableBAll _ cpus

theorem oneWord_iff (hc : Unmarked cpus) : OneWord cpus ↔ cpus.filter valueEnd = [] := by
  rw [List.filter_eq_nil_iff]
  refine forall₂_congr fun c hmem => ?_
  have hopen : c ≠ '{' := fun h => hc.braceFree.1 (h ▸ hmem)
  have hclose : c ≠ '}' := fun h => hc.braceFree.2 (h ▸ hmem)
  simp [valueEnd, hopen, hclose]

/-- The line states the spec behind its last `=`, and behind that there is nothing but blanks, braces and a
    comment. -/
def SpecWritten (cpus line : Str) : Prop :=
  ∃ l lead tail t, line = (l ++ '=' :: (lead ++ (cpus ++ tail))) ++ t ∧ Blank lead ∧
    (∀ c ∈ tail, valueEnd c = true) ∧ (t = [] ∨ CommentTail t) ∧
    commentFind false (l ++ '=' :: (lead ++ (cpus ++ tail))) = none

/-- The blanks a text ends with, where blanks and braces stand behind a spec. -/
theorem trimEnd_behind_spec (hc : Spec topo cpus) (s tail : Str) :
    trimEnd (s ++ (cpus ++ tail)) = s ++ (cpus ++ trimEnd tail) := by
  obtain ⟨w, hw, htail⟩ := trimEnd_decomp tail
  have hsolid : LastSolid (s ++ (cpus ++ trimEnd tail)) := by
    by_cases hnil : trimEnd tail = []
    · rw [hnil, List.append_nil]
      exact hc.last.append hc.ne _
    · rw [← List.append_assoc]
      exact LastSolid.append (lastSolid_trimEnd tail) hnil _
  conv_lhs => rw [htail]
  rw [← List.append_assoc cpus, ← List.append_assoc s, trimEnd_append hw]
  exact trimEnd_eq_self.mpr hsolid

/-- A spec and the blanks and braces behind it hold no `=`. -/
theorem eq_not_mem_spec {lead tail : Str} (hlead : Blank lead) (hc : Unmarked cpus)
    (htail : ∀ c ∈ tail, valueEnd c = true) : '=' ∉ lead ++ (cpus ++ tail) := by
  intro hm
  rcases List.mem_append.mp hm with hm | hm
  · exact absurd (hlead _ hm) (by decide)
  · rcases List.mem_append.mp hm with hm | hm
    · exact hc.not_mem (by simp [marks]) hm
    · exact absurd (htail _ hm) (by decide)

/-- **The spec put in a second time** stays as it is exactly when it is one word: `spec_swap` takes the first
    word off and keeps the blanks of the rest. -/
theorem SpecWritten.swap_again (h : SpecWritten cpus line) (hc : Spec topo cpus) :
    specSwap line cpus = line ↔ OneWord cpus := by
  obtain ⟨l, lead, tail, t, hline, hlead, htail, ht, hplain⟩ := h
  -- the cut at the comment takes the last blanks of the tail with it
  obtain ⟨tail', hstrip, htail'⟩ : ∃ tail', stripComment line = l ++ '=' :: (lead ++ (cpus ++ tail')) ∧
      ∀ c ∈ tail', valueEnd c = true := by
    by_cases hnil : t = []
    · exact ⟨tail, by rw [hline, stripComment_append hplain ht, if_pos hnil], htail⟩
    · refine ⟨trimEnd tail, ?_, fun c hm => htail c ?_⟩
      · have := trimEnd_behind_spec hc (l ++ '=' :: lead) tail
        rw [hline, stripComment_append hplain ht, if_neg hnil]
        simpa using this
      · obtain ⟨w, _, hw⟩ := trimEnd_decomp tail
        rw [hw]
        exact List.mem_append_left _ hm
  have hval : trimStart (lead ++ (cpus ++ tail')) = cpus ++ tail' := by
    rw [trimStart_append hlead, trimStart_eq_self]
    exact hc.head.append hc.ne _
  have htake : (lead ++ (cpus ++ tail')).take ((lead ++ (cpus ++ tail')).length - (cpus ++ tail').length) = lead := by
    rw [@List.length_append _ lead, Nat.add_sub_cancel, List.take_left' rfl]
  have hswap : specSwap line cpus
      = l ++ '=' :: (lead ++ (cpus ++ (cpus.filter valueEnd ++ tail'))) ++ commentTail line := by
    have hsplit : splitLast '=' (line.take ((commentAt line).getD line.length))
        = some (l, lead ++ (cpus ++ tail')) := by
      show splitLast '=' (stripComment line) = _
      rw [hstrip]
      exact splitLast_eq_some.mpr ⟨rfl, eq_not_mem_spec hlead hc.unmarked htail'⟩
    -- the blanks inside the spec are kept as a tail
    have hkept : swapTail (cpus ++ tail') = cpus.filter valueEnd ++ tail' := by
      rw [swapTail_eq, List.filter_append, List.filter_eq_self.mpr htail']
    unfold specSwap
    dsimp only
    rw [hsplit]
    dsimp only
    rw [hval, htake]
    show l ++ '=' :: lead ++ cpus ++ swapTail (cpus ++ tail') ++ commentTail line = _
    rw [hkept]
    simp
  have hold : line = l ++ '=' :: (lead ++ (cpus ++ tail')) ++ commentTail line := by
    rw [← hstrip, stripComment_append_commentTail]
  rw [oneWord_iff hc.unmarked, hswap]
  constructor
  · intro heq
    have hlen := congrArg List.length (heq.trans hold)
    simp only [List.length_append, List.length_cons] at hlen
    exact List.eq_nil_of_length_eq_zero (by omega)
  · intro hnil
    rw [hnil, List.nil_append]
    exact hold.symm

/-- A swapped line states its spec. -/
theorem specSwap_written (hraw : skipped (trim raw) = false) (heq : '=' ∈ core raw) (hc : Spec topo cpus) :
    SpecWritten cpus (specSwap raw cpus) := by
  obtain ⟨w, l, rhs, lead, h⟩ := specSwap_form hraw heq hc.unmarked
  have hplain := h.plain
  rw [← List.append_assoc] at hplain
  refine ⟨w ++ l, lead, swapTail (trimStart rhs), commentTail raw, ?_, h.blanks, fun c hm => ?_,
    commentTail_cases raw, hplain⟩
  · rw [h.new]
    simp
  · exact (List.mem_filter.mp hm).2

/-! ## The lines an edit writes afresh -/

theorem commentFind_indented {w k : Str} (hw : Blank w) (hk : CommentFree k) (b : Bool) :
    commentFind b (w ++ k) = none := by
  induction w generalizing b with
  | nil => exact commentFind_commentFree hk b
  | cons c w ih =>
    have hc : isWhitespace c = true := hw c (by simp)
    have hhash : c ≠ '#' := by
      rintro rfl
      exact absurd hc (by decide)
    have hslash : c ≠ '/' := by
      rintro rfl
      exact absurd hc (by decide)
    rw [List.cons_append, commentFind_cons, if_neg (by simp [hhash, hslash]), ih fun d hd => hw d (by simp [hd])]
    rfl

/-- A line `key=spec`, with blanks before it and an opening brace and a comment behind it. -/
theorem pairLine_written {w k tail : Str} (hk : CommentFree k) (hw : Blank w) (hc : Spec topo cpus)
    (htail : ∀ c ∈ tail, valueEnd c = true) (ht : t = [] ∨ CommentTail t) :
    SpecWritten cpus (w ++ (k ++ '=' :: (cpus ++ tail)) ++ t) := by
  have hvalue : commentFind false (cpus ++ tail) = none := by
    refine commentFind_commentFree (commentFree_of_plain fun c hm => ?_) false
    rcases List.mem_append.mp hm with hm | hm
    · have := hc.unmarked c hm
      constructor <;> rintro rfl <;> simp [marks] at this
    · have hend := htail c hm
      constructor <;> rintro rfl <;> revert hend <;> decide
  refine ⟨w ++ k, [], tail, t, by simp, blank_nil, htail, ht, ?_⟩
  exact commentFind_pair (commentFind_indented hw hk false) hvalue (by decide) (by decide)

/-! ## The block structure -/

/-- The last brace of the value is a `{` with text behind it: where the text goes, the line opens a block. -/
def StrayOpen (raw : Str) : Prop :=
  (braces (valueOf raw)).getLast? = some '{' ∧ (trimEnd (valueOf raw)).getLast? ≠ some '{'

instance (raw : Str) : Decidable (StrayOpen raw) := inferInstanceAs (Decidable (_ ∧ _))

/-- What ends with a brace has that brace as its last. -/
theorem braces_getLast {s : Str} {b : Char} (hb : b = '{' ∨ b = '}') (h : s.getLast? = some b) :
    (braces s).getLast? = some b := by
  obtain ⟨r, rfl⟩ := List.getLast?_eq_some_iff.mp h
  have : braces [b] = [b] := by rcases hb with rfl | rfl <;> rfl
  rw [braces_append, this, List.getLast?_concat]

/-- Blanks and braces end, the last blanks aside, with their last brace. -/
theorem getLast_valueEnd {tail : Str} (h : ∀ c ∈ tail, valueEnd c = true) :
    (trimEnd tail).getLast? = (braces tail).getLast? := by
  cases hl : (trimEnd tail).getLast? with
  | none =>
    have hblank : Blank tail := trimEnd_eq_nil.mp (List.getLast?_eq_none_iff.mp hl)
    rw [braceFree_iff.mp (blank_braceFree hblank)]
    rfl
  | some b =>
    have hsolid := lastSolid_trimEnd tail b hl
    have hmem : b ∈ tail := by
      obtain ⟨w, _, hw⟩ := trimEnd_decomp tail
      rw [hw]
      exact List.mem_append_left _ (List.mem_of_getLast? hl)
    have hbrace : b = '{' ∨ b = '}' := by
      have := h b hmem
      simpa [valueEnd, hsolid] using this
    rw [← braces_trimEnd, braces_getLast hbrace hl]

/-- **The brace at the end of a swapped value** is the last brace of the old one. -/
theorem swapped_opens {rhs lead : Str} (hc : Spec topo cpus) :
    valueOpens (trimEnd (lead ++ (cpus ++ swapTail (trimStart rhs)))) = decide ((braces rhs).getLast? = some '{') := by
  have htail : ∀ c ∈ swapTail (trimStart rhs), valueEnd c = true := fun c hm => (List.mem_filter.mp hm).2
  have hbraces : braces (swapTail (trimStart rhs)) = braces rhs := by rw [braces_swapTail, braces_trimStart]
  rw [trimEnd_behind_spec hc, valueOpens, ← hbraces, ← getLast_valueEnd htail]
  by_cases hnil : trimEnd (swapTail (trimStart rhs)) = []
  · have hlast : (lead ++ cpus).getLast? ≠ some '{' := by
      rw [List.getLast?_append_of_ne_nil _ hc.ne]
      exact fun hl => hc.unmarked.braceFree.1 (List.mem_of_getLast? hl)
    rw [hnil, List.append_nil, decide_eq_false hlast]
    rfl
  · rw [← List.append_assoc, List.getLast?_append_of_ne_nil _ hnil]

/-- The value that a line without a stray brace ends with. -/
theorem opens_of_not_stray {l rhs : Str} (hstrip : stripComment raw = l ++ '=' :: rhs) (hv : '=' ∉ rhs)
    (h : ¬ StrayOpen raw) : valueOpens (trimEnd rhs) = decide ((braces rhs).getLast? = some '{') := by
  have hvalue : valueOf raw = trimStart rhs := by
    have hsplit : splitLast '=' (stripComment raw) = some (l, rhs) := splitLast_eq_some.mpr ⟨hstrip, hv⟩
    rw [valueOf, hsplit]
    rfl
  -- the blanks before the value do not matter for its end
  have hend : (trimEnd rhs).getLast? = (trimEnd (trimStart rhs)).getLast? := by
    obtain ⟨w, hw, hrhs⟩ := trimStart_decomp rhs
    by_cases hnil : trimEnd (trimStart rhs) = []
    · have hblank : Blank rhs := by
        rw [hrhs]
        exact hw.append (trimEnd_eq_nil.mp hnil)
      rw [hnil, trimEnd_eq_nil.mpr hblank]
    · obtain ⟨w', hw', hrhs'⟩ := trimEnd_decomp (trimStart rhs)
      have hsolid : LastSolid (w ++ trimEnd (trimStart rhs)) := LastSolid.append (lastSolid_trimEnd _) hnil _
      have htrim : trimEnd rhs = w ++ trimEnd (trimStart rhs) := by
        conv_lhs => rw [hrhs, hrhs', ← List.append_assoc, trimEnd_append hw']
        exact trimEnd_eq_self.mpr hsolid
      rw [htrim, List.getLast?_append_of_ne_nil _ hnil]
  unfold StrayOpen at h
  rw [hvalue, braces_trimStart, ← hend] at h
  unfold valueOpens
  by_cases ho : (trimEnd rhs).getLast? = some '{'
  · have := braces_getLast (.inl rfl) ho
    rw [braces_trimEnd] at this
    rw [ho, this]
  · have hb : (braces rhs).getLast? ≠ some '{' := fun hb => h ⟨hb, ho⟩
    simp [ho, hb]

/-- A swapped value holds the new spec. -/
theorem swapped_text_ne {rhs lead : Str} (hc : Spec topo cpus) :
    valueText (trimEnd (lead ++ (cpus ++ swapTail (trimStart rhs)))) ≠ [] := by
  obtain ⟨c, r, hcpus⟩ := List.exists_cons_of_ne_nil hc.ne
  have hsolid : isWhitespace c = false := hc.head c (by rw [hcpus]; rfl)
  have hbrace : c ≠ '{' := fun h => hc.unmarked.braceFree.1 (by rw [hcpus, h]; simp)
  rw [trimEnd_behind_spec hc, valueText, Ne, trim_eq_nil]
  intro hblank
  have hmem : c ∈ lead ++ (cpus ++ trimEnd (swapTail (trimStart rhs))) := by simp [hcpus]
  split at hblank
  · next ho =>
    have hl : (lead ++ (cpus ++ trimEnd (swapTail (trimStart rhs)))).getLast? = some '{' := by
      simpa [valueOpens] using ho
    obtain ⟨u, hu⟩ := List.getLast?_eq_some_iff.mp hl
    rw [hu, List.dropLast_concat] at hblank
    rw [hu] at hmem
    have hin : c ∈ u := by simpa [hbrace] using hmem
    rw [hblank c hin] at hsolid
    cases hsolid
  · rw [hblank c hmem] at hsolid
    cases hsolid

/-- **Outside a block** the swapped line has the key it had, and opens a block if it did. -/
theorem parseOuter_swapped {c₀ : Str} (hraw : skipped (trim raw) = false)
    (hspec : (parseOuter (trim raw)).spec = some c₀) (hstray : ¬ StrayOpen raw) (hc : Spec topo cpus) :
    skipped (trim (specSwap raw cpus)) = false ∧
      ∃ c, parseOuter (trim (specSwap raw cpus)) = (parseOuter (trim raw)).withSpec c := by
  rw [parseOuter_core] at hspec
  have heq : '=' ∈ core raw := by
    obtain ⟨l, v, hc₀, _⟩ := parseCore_spec hspec
    simp [hc₀]
  obtain ⟨w, l, rhs, lead, h⟩ := specSwap_form hraw heq hc.unmarked
  have hswap : core (specSwap raw cpus) = l ++ '=' :: trimEnd (lead ++ (cpus ++ swapTail (trimStart rhs))) := by
    rw [h.new, core_written h.indent h.head (by simp) (commentFind_suffix h.plain) (commentTail_cases raw),
      trimEnd_append_cons (by decide)]
  have hV : '=' ∉ trimEnd rhs := not_mem_trimEnd h.value
  have hV' : '=' ∉ trimEnd (lead ++ (cpus ++ swapTail (trimStart rhs))) := swapped_value_free h.blanks hc.unmarked
  have hopens : valueOpens (trimEnd (lead ++ (cpus ++ swapTail (trimStart rhs)))) = valueOpens (trimEnd rhs) := by
    rw [swapped_opens hc, opens_of_not_stray (by rw [h.old, List.append_assoc]) h.value hstray]
  refine ⟨?_, valueText (trimEnd (lead ++ (cpus ++ swapTail (trimStart rhs)))), ?_⟩
  · rw [skipped_core, hswap, skipped_pair l _ (trimEnd rhs), ← h.oldCore, ← skipped_core]
    exact hraw
  · rw [h.oldCore, parseCore_pair hV] at hspec
    rw [parseOuter_core, parseOuter_core, h.oldCore, hswap, parseCore_pair hV, parseCore_pair hV']
    exact parsePair_withSpec hspec hopens rfl (swapped_text_ne hc)

/-- **Inside a block** the swapped line has the thread it had, and closes the block if it did. -/
theorem insideRole_swapped {k v : Str} {closed : Bool} (hraw : skipped (trim raw) = false)
    (h : insideRole (trim raw) = .thread k v closed) (hc : Spec topo cpus) :
    skipped (trim (specSwap raw cpus)) = false ∧
      ∃ c, insideRole (trim (specSwap raw cpus)) = .thread k c closed := by
  obtain ⟨hcl, hsplit⟩ := insideRole_thread.mp h
  obtain ⟨l, rhs, lead, hrhs, hlead, hcore, hswap⟩ := core_specSwap hraw (splitCore_eq hsplit) hc.unmarked
  have hV : '=' ∉ trimEnd rhs := not_mem_trimEnd hrhs
  have hV' : '=' ∉ trimEnd (lead ++ (cpus ++ swapTail (trimStart rhs))) := swapped_value_free hlead hc.unmarked
  have hkept := @braces_swapped cpus rhs lead hlead hc.unmarked
  generalize trimEnd (lead ++ (cpus ++ swapTail (trimStart rhs))) = v' at hswap hV' hkept
  rw [hcore] at hsplit
  have hshown : skipped (trim (specSwap raw cpus)) = false := by
    rw [skipped_core, hswap, skipped_pair l _ (trimEnd rhs), ← hcore, ← skipped_core]
    exact hraw
  have hopen : closeLike (core (specSwap raw cpus)) = false := by
    rw [hswap, closeLike_pair l, ← closeLike_pair l (trimEnd rhs), ← hcore]
    exact hcl
  refine ⟨hshown, ?_⟩
  cases hb : kvBeforeBrace [] l with
  | some r =>
    -- an earlier `}` ends the rule: the swap is behind it
    rw [splitCore_early hb] at hsplit
    refine ⟨v, insideRole_thread.mpr ⟨hopen, ?_⟩⟩
    rw [hswap, splitCore_early hb]
    exact hsplit
  | none =>
    rw [splitCore_pair hV hb] at hsplit
    by_cases hl : (trim l).isEmpty = true
    · rw [if_pos hl] at hsplit
      cases hsplit
    rw [if_neg hl] at hsplit
    simp only [Option.some.injEq, Prod.mk.injEq] at hsplit
    obtain ⟨rfl, -, rfl⟩ := hsplit
    have hclose : (splitFirst '}' v').isSome = (splitFirst '}' (trimEnd rhs)).isSome := by
      have hmem : ∀ s : Str, (splitFirst '}' s).isSome = decide ('}' ∈ braces s) := fun s => by
        cases hs : splitFirst '}' s with
        | none => simp [braces, splitFirst_eq_none.mp hs]
        | some p => simp [braces, (splitFirst_eq_some.mp hs).1]
      rw [hmem, hmem, hkept]
    refine ⟨trim (((splitFirst '}' v').map (·.1)).getD v'), insideRole_thread.mpr ⟨hopen, ?_⟩⟩
    rw [hswap, splitCore_pair hV' hb, if_neg hl, hclose]

/-- The swap of a line keeps what the line does to the blocks. -/
def SwapKeeps (line : Str) : Role → Prop
  | .outer _ => ¬ StrayOpen line
  | _ => True

instance (line : Str) : (r : Role) → Decidable (SwapKeeps line r)
  | .outer _ => instDecidableNot
  | .skip | .close | .thread .. | .idle => .isTrue trivial

/-- **The swapped line** reads as before, but for the spec. -/
theorem roleOf_swapped {c₀ : Str} (h : (roleOf place raw).spec = some c₀) (hk : SwapKeeps raw (roleOf place raw))
    (hc : Spec topo cpus) : ∃ c, roleOf place (specSwap raw cpus) = (roleOf place raw).withSpec c := by
  obtain ⟨hs, _⟩ := eq_of_spec h
  cases place with
  | outside w =>
    rw [roleOf_outside hs] at h hk ⊢
    obtain ⟨hs', c, hread⟩ := parseOuter_swapped hs h hk hc
    exact ⟨c, by rw [roleOf_outside hs', hread]; rfl⟩
  | inside o =>
    rw [roleOf_inside hs] at h ⊢
    cases hr : insideRole (trim raw) with
    | outer l => exact absurd hr (insideRole_ne_outer _ _)
    | skip => rw [hr] at h; cases h
    | close => rw [hr] at h; cases h
    | idle => rw [hr] at h; cases h
    | thread k v closed =>
      obtain ⟨hs', c, hread⟩ := insideRole_swapped hs hr hc
      exact ⟨c, by rw [roleOf_inside hs', hread]; rfl⟩

end AppOptR
