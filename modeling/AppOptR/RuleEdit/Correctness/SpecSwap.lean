import AppOptR.RuleEdit.Correctness.Changed

/-!
# `RuleEdit.Correctness.SpecSwap` — when `spec_swap` replaces the spec and nothing else

`spec_swap` looks for the value behind the last `=` and keeps of it the blanks and braces behind its first word. The
readers end a value elsewhere: at the brace of the block, or at the first `}` with a rule before it. The swap is
clean (`SwapClean`) when the old spec has no brace and no earlier `}` ends the rule, and, in a line with a comment,
when no blank of the old value is left before it. The key is that a swap keeps the braces of the value
(`braces_swapped`): what the reader cuts off is then the same in the old line and the new one.
-/

namespace AppOptR

open Text

variable {s v raw cpus c₀ : Str} {place : Place} {topo : CpuTopology}

/-- The spec of the rule a line states. -/
def Role.spec : Role → Option Str
  | .thread _ v _ => some v
  | .outer l => l.spec
  | _ => none

/-- The value of a line: what stands behind its last `=` and the blanks there, up to the comment. -/
def valueOf (raw : Str) : Str := trimStart (((splitLast '=' (stripComment raw)).map (·.2)).getD [])

/-- The swap gives the line the new spec, and leaves its other parts and its comment. -/
def Swapped (place : Place) (raw cpus : Str) : Prop :=
  roleOf place (specSwap raw cpus) = (roleOf place raw).withSpec cpus ∧
    commentTail (specSwap raw cpus) = commentTail raw

/-- The spec is where `spec_swap` looks for it, or is the new one already; and in a line with a comment no blank of
    the value stands behind its braces. -/
def SwapClean (place : Place) (raw cpus : Str) : Prop :=
  (SwapSafe raw (roleOf place raw) ∨ (roleOf place raw).spec = some cpus) ∧
    (commentAt raw = none ∨ LastSolid ((valueOf raw).filter valueEnd))

/-! ## The braces of a value -/

/-- The braces of a text. -/
def braces (s : Str) : Str := s.filter fun c => c = '{' || c = '}'

@[simp] theorem braces_append (s t : Str) : braces (s ++ t) = braces s ++ braces t := List.filter_append ..

theorem braceFree_iff : BraceFree s ↔ braces s = [] := by
  unfold BraceFree braces
  rw [List.filter_eq_nil_iff]
  constructor
  · intro h c hc
    simp only [Bool.or_eq_true, decide_eq_true_eq, not_or]
    constructor
    · rintro rfl
      exact h.1 hc
    · rintro rfl
      exact h.2 hc
  · intro h
    exact ⟨fun hm => h _ hm (by decide), fun hm => h _ hm (by decide)⟩

theorem braces_trimStart (s : Str) : braces (trimStart s) = braces s := by
  obtain ⟨w, hw, hs⟩ := trimStart_decomp s
  conv_rhs => rw [hs]
  rw [braces_append, braceFree_iff.mp (blank_braceFree hw), List.nil_append]

theorem braces_trimEnd (s : Str) : braces (trimEnd s) = braces s := by
  obtain ⟨w, hw, hs⟩ := trimEnd_decomp s
  conv_rhs => rw [hs]
  rw [braces_append, braceFree_iff.mp (blank_braceFree hw), List.append_nil]

theorem braces_trim (s : Str) : braces (trim s) = braces s := (braces_trimEnd _).trans (braces_trimStart s)

/-- What `spec_swap` keeps of a value: its blanks and braces. -/
theorem swapTail_eq (val : Str) : swapTail val = val.filter valueEnd := by
  unfold swapTail
  conv_rhs => rw [← List.takeWhile_append_dropWhile (p := fun c => !valueEnd c) (l := val)]
  have hword : (val.takeWhile fun c => !valueEnd c).filter valueEnd = [] := by
    rw [List.filter_eq_nil_iff]
    intro c hc
    simpa using List.mem_takeWhile_imp hc
  rw [List.filter_append, hword, List.nil_append]

theorem braces_swapTail (val : Str) : braces (swapTail val) = braces val := by
  rw [swapTail_eq]
  unfold braces
  rw [List.filter_filter]
  refine List.filter_congr fun c _ => ?_
  unfold valueEnd
  by_cases h₁ : c = '{' <;> by_cases h₂ : c = '}' <;> simp [h₁, h₂]

/-- **A swap keeps the braces of the value.** -/
theorem braces_swapped {rhs lead : Str} (hlead : Blank lead) (hc : Unmarked cpus) :
    braces (trimEnd (lead ++ (cpus ++ swapTail (trimStart rhs)))) = braces (trimEnd rhs) := by
  rw [braces_trimEnd, braces_trimEnd, braces_append, braces_append, braces_swapTail, braces_trimStart,
    braceFree_iff.mp (blank_braceFree hlead), braceFree_iff.mp hc.braceFree, List.nil_append, List.nil_append]

/-- Outside a block the value is cut at the brace that opens one. -/
theorem braces_valueText (v : Str) : braces v = braces (valueText v) ++ if valueOpens v then ['{'] else [] := by
  unfold valueText
  rw [braces_trim]
  by_cases ho : valueOpens v = true
  · have hl : v.getLast? = some '{' := by simpa [valueOpens] using ho
    obtain ⟨r, rfl⟩ := List.getLast?_eq_some_iff.mp hl
    rw [if_pos ho, if_pos ho, List.dropLast_concat, braces_append]
    rfl
  · rw [if_neg ho, if_neg ho, List.append_nil]

/-- Inside a block it is cut at the first `}`. -/
theorem braces_untilClose (v : Str) :
    braces (((splitFirst '}' v).map (·.1)).getD v) = (braces v).takeWhile fun c => c ≠ '}' := by
  have hall : ∀ {s : Str}, '}' ∉ s → ∀ c ∈ braces s, (fun c => decide (c ≠ '}')) c = true := by
    intro s hs c hc
    have hmem : c ∈ s := (List.mem_filter.mp hc).1
    have : c ≠ '}' := fun he => hs (he ▸ hmem)
    simpa using this
  cases hs : splitFirst '}' v with
  | none =>
    rw [Option.map_none, Option.getD_none, List.takeWhile_eq_self_iff.mpr (hall (splitFirst_eq_none.mp hs))]
  | some p =>
    obtain ⟨hv, hfree⟩ := splitFirst_eq_some.mp hs
    have hclose : braces ('}' :: p.2) = '}' :: braces p.2 := rfl
    rw [Option.map_some, Option.getD_some, hv, braces_append, hclose, List.takeWhile_append_of_pos (hall hfree),
      List.takeWhile_cons_of_neg (by simp), List.append_nil]

/-! ## A swap that reads back had a spec without braces -/

/-- A line that states a rule, by its pair. -/
theorem parsePair_rule_cases {l : Str} (h : (parsePair l v).spec = some c₀) :
    parsePair l v = .rule (trim l) c₀ (valueOpens v) ∨ ∃ pkg th, parsePair l v = .single pkg th c₀ (valueOpens v) := by
  obtain rfl := parsePair_spec h
  unfold parsePair at h ⊢
  cases hk : singleKey l with
  | some k => exact .inr ⟨k.1, k.2, rfl⟩
  | none =>
    rw [hk] at h
    dsimp only at h ⊢
    by_cases hj : (!valueOpens v && closeLike (l ++ ['='])) = true
    · rw [if_pos hj] at h
      cases h
    rw [if_neg hj] at h ⊢
    by_cases he : (valueText v).isEmpty = true
    · rw [if_pos he] at h
      split at h <;> cases h
    · rw [if_neg he]
      exact .inl rfl

theorem braceFree_of_outer (hraw : skipped (trim raw) = false) (hspec : (parseOuter (trim raw)).spec = some c₀)
    (hc : Unmarked cpus) (h : parseOuter (trim (specSwap raw cpus)) = (parseOuter (trim raw)).withSpec cpus) :
    BraceFree c₀ := by
  rw [parseOuter_core] at hspec
  have heq : '=' ∈ core raw := by
    obtain ⟨l, v, hc₀, _⟩ := parseCore_spec hspec
    simp [hc₀]
  obtain ⟨l, rhs, lead, hrhs, hlead, hcore, hswap⟩ := core_specSwap hraw heq hc
  have hV : '=' ∉ trimEnd rhs := not_mem_trimEnd hrhs
  have hV' : '=' ∉ trimEnd (lead ++ (cpus ++ swapTail (trimStart rhs))) := swapped_value_free hlead hc
  rw [parseOuter_core, parseOuter_core, hcore, hswap, parseCore_pair hV, parseCore_pair hV'] at h
  rw [hcore, parseCore_pair hV] at hspec
  have hkept := @braces_swapped cpus rhs lead hlead hc
  generalize trimEnd (lead ++ (cpus ++ swapTail (trimStart rhs))) = v' at h hkept
  generalize trimEnd rhs = v at h hkept hspec
  -- the brace that opens the block is cut off both values, or off none
  have hspec' : (parsePair l v').spec = some cpus := by
    rw [h]
    rcases parsePair_rule_cases hspec with hp | ⟨pkg, th, hp⟩ <;> rw [hp] <;> rfl
  have hopens : valueOpens v' = valueOpens v := by
    rcases parsePair_rule_cases hspec with hp | ⟨pkg, th, hp⟩ <;>
      rcases parsePair_rule_cases hspec' with hp' | ⟨pkg', th', hp'⟩ <;> rw [hp, hp'] at h <;>
      simp_all [OuterLine.withSpec]
  have hold := braces_valueText v
  have hnew := braces_valueText v'
  rw [← parsePair_spec hspec', hopens, braceFree_iff.mp hc.braceFree, hkept, hold] at hnew
  rw [← parsePair_spec hspec] at hnew
  exact braceFree_iff.mpr (List.append_cancel_right hnew)

/-! ## Inside a block -/

/-- A rule that an earlier `}` ends is read without the value. -/
theorem splitCore_early {l : Str} {r : Str × Str} (h : kvBeforeBrace [] l = some r) (v : Str) :
    splitCore (l ++ '=' :: v) = some (r.1, r.2, true) := by
  unfold splitCore
  rw [kvBeforeBrace_append, h]
  rfl

/-- The swapped line of a block, read again: the same rule when an earlier `}` ends it, else what the new value says. -/
theorem inside_swapped {k v : Str} {closed : Bool} (hraw : skipped (trim raw) = false)
    (h : insideRole (trim raw) = .thread k v closed) (hc : Unmarked cpus) :
    (ClosesEarly (core raw) ∧ insideRole (trim (specSwap raw cpus)) = .thread k v closed ∧
        skipped (trim (specSwap raw cpus)) = false) ∨
      ¬ ClosesEarly (core raw) ∧ ∀ closed', insideRole (trim (specSwap raw cpus)) = .thread k cpus closed' →
        '{' ∉ v := by
  obtain ⟨hcl, hsplit⟩ := insideRole_thread.mp h
  obtain ⟨l, rhs, lead, hrhs, hlead, hcore, hswap⟩ := core_specSwap hraw (splitCore_eq hsplit) hc
  have hV : '=' ∉ trimEnd rhs := not_mem_trimEnd hrhs
  have hV' : '=' ∉ trimEnd (lead ++ (cpus ++ swapTail (trimStart rhs))) := swapped_value_free hlead hc
  have hkept := @braces_swapped cpus rhs lead hlead hc
  generalize trimEnd (lead ++ (cpus ++ swapTail (trimStart rhs))) = v' at hswap hV' hkept
  rw [hcore] at hsplit
  rw [hcore, closesEarly_pair hV]
  cases hb : kvBeforeBrace [] l with
  | some r =>
    -- a `}` ends the rule before the last `=`, where the swap does not reach
    refine .inl ⟨by simp, ?_, ?_⟩
    · rw [splitCore_early hb] at hsplit
      rw [insideRole_thread, hswap, splitCore_early hb, closeLike_pair l, ← closeLike_pair l (trimEnd rhs), ← hcore]
      exact ⟨hcl, hsplit⟩
    · rw [skipped_core, hswap, skipped_pair l _ (trimEnd rhs), ← hcore, ← skipped_core]
      exact hraw
  | none =>
    refine .inr ⟨by simp, fun closed' h' => ?_⟩
    obtain ⟨_, hsplit'⟩ := insideRole_thread.mp h'
    rw [hswap, splitCore_pair hV' hb] at hsplit'
    rw [splitCore_pair hV hb] at hsplit
    by_cases hl : (trim l).isEmpty = true
    · rw [if_pos hl] at hsplit
      cases hsplit
    rw [if_neg hl] at hsplit hsplit'
    simp only [Option.some.injEq, Prod.mk.injEq] at hsplit hsplit'
    obtain ⟨-, rfl, -⟩ := hsplit
    obtain ⟨-, hcpus, -⟩ := hsplit'
    -- up to the first `}` the two values have the same braces, and the new one has none
    have hfree : braces (trim (((splitFirst '}' (trimEnd rhs)).map (·.1)).getD (trimEnd rhs))) = [] := by
      rw [braces_trim, braces_untilClose, ← hkept, ← braces_untilClose, ← braces_trim, hcpus]
      exact braceFree_iff.mp hc.braceFree
    exact (braceFree_iff.mpr hfree).1

/-! ## The comment -/

theorem commentAt_eq_none : commentAt raw = none ↔ commentTail raw = [] := by
  rcases stripComment_cases raw with ⟨_, ht, hnone⟩ | ⟨ht, _, _⟩
  · have : commentAt raw = none := by rw [commentAt, hnone]; rfl
    simp [this, ht]
  · constructor
    · intro h
      have : commentTail raw = [] := by rw [commentTail, h]; simp
      exact this
    · intro h
      obtain ⟨c, t, htail, _⟩ := ht.head
      rw [h] at htail
      cases htail

/-- **The comment of a swapped line**: what the old value leaves before it goes to it. -/
theorem commentTail_specSwap (hraw : skipped (trim raw) = false) (heq : '=' ∈ core raw) (hc : Spec topo cpus) :
    commentTail (specSwap raw cpus) = commentTail raw ↔
      commentAt raw = none ∨ LastSolid ((valueOf raw).filter valueEnd) := by
  obtain ⟨w, l, rhs, lead, h⟩ := specSwap_form hraw heq hc.unmarked
  have hvalue : valueOf raw = trimStart rhs := by
    have hsplit : splitLast '=' (stripComment raw) = some (w ++ l, rhs) := by
      rw [h.old]
      exact splitLast_eq_some.mpr ⟨by simp, h.value⟩
    rw [valueOf, hsplit]
    rfl
  rw [hvalue, ← swapTail_eq, commentAt_eq_none]
  have hnew : specSwap raw cpus
      = (w ++ (l ++ '=' :: (lead ++ (cpus ++ swapTail (trimStart rhs))))) ++ commentTail raw := by
    rw [h.new]
    simp
  have hstrip := stripComment_append h.plain (commentTail_cases raw)
  have hsplit := stripComment_append_commentTail (specSwap raw cpus)
  rw [hnew] at hsplit ⊢
  rw [hstrip] at hsplit
  by_cases ht : commentTail raw = []
  · rw [if_pos ht] at hsplit
    exact iff_of_true (List.append_cancel_left hsplit) (.inl ht)
  rw [if_neg ht] at hsplit
  -- what comes before the comment ends as the old tail does, or as the spec
  have hsolid : LastSolid (w ++ (l ++ '=' :: (lead ++ (cpus ++ swapTail (trimStart rhs)))))
      ↔ LastSolid (swapTail (trimStart rhs)) := by
    have hassoc : w ++ (l ++ '=' :: (lead ++ (cpus ++ swapTail (trimStart rhs))))
        = (w ++ (l ++ '=' :: lead) ++ cpus) ++ swapTail (trimStart rhs) := by simp
    rw [hassoc]
    by_cases hnil : swapTail (trimStart rhs) = []
    · rw [hnil, List.append_nil]
      exact iff_of_true (hc.last.append hc.ne _) (fun c hcl => by cases hcl)
    · exact ⟨fun hl => hl.of_append, fun hl => hl.append hnil _⟩
  rw [← hsolid, ← trimEnd_eq_self, or_iff_right ht]
  generalize w ++ (l ++ '=' :: (lead ++ (cpus ++ swapTail (trimStart rhs)))) = x at hsplit
  constructor
  · intro hsame
    rw [hsame] at hsplit
    exact List.append_cancel_right hsplit
  · intro hx
    rw [hx] at hsplit
    exact List.append_cancel_left hsplit

/-! ## The swap -/

/-- A line that states a rule has an `=`. -/
theorem eq_of_spec (h : (roleOf place raw).spec = some c₀) : skipped (trim raw) = false ∧ '=' ∈ core raw := by
  by_cases hs : skipped (trim raw) = true
  · rw [roleOf_skipped hs] at h
    cases h
  have hs' : skipped (trim raw) = false := by simpa using hs
  refine ⟨hs', ?_⟩
  cases place with
  | outside w =>
    rw [roleOf_outside hs'] at h
    have hspec : (parseCore (core raw)).spec = some c₀ := h
    obtain ⟨l, v, hl, _⟩ := parseCore_spec hspec
    rw [hl]
    simp
  | inside o =>
    rw [roleOf_inside hs'] at h
    cases hr : insideRole (trim raw) with
    | thread k v closed => exact splitCore_eq (insideRole_thread.mp hr).2
    | outer l => exact absurd hr (insideRole_ne_outer _ _)
    | skip => rw [hr] at h; cases h
    | close => rw [hr] at h; cases h
    | idle => rw [hr] at h; cases h

/-- **The swapped line reads as the old one with the new spec** exactly when the spec was where the swap looks for
    it, or was the new one already. -/
theorem roleOf_specSwap_iff (h : (roleOf place raw).spec = some c₀) (hc : Spec topo cpus) :
    roleOf place (specSwap raw cpus) = (roleOf place raw).withSpec cpus ↔
      SwapSafe raw (roleOf place raw) ∨ (roleOf place raw).spec = some cpus := by
  obtain ⟨hs, _⟩ := eq_of_spec h
  cases place with
  | outside w =>
    rw [roleOf_outside hs] at h ⊢
    have hfree : SwapSafe raw (.outer (parseOuter (trim raw))) ↔ BraceFree c₀ := by
      show BraceFree ((parseOuter (trim raw)).spec.getD []) ↔ _
      rw [show (parseOuter (trim raw)).spec = some c₀ from h, Option.getD_some]
    rw [hfree, h]
    constructor
    · intro hsame
      have hs' : skipped (trim (specSwap raw cpus)) = false := by
        by_contra hn
        rw [roleOf_skipped (by simpa using hn)] at hsame
        cases hsame
      rw [roleOf_outside hs'] at hsame
      exact .inl (braceFree_of_outer hs h hc.unmarked (Role.outer.inj hsame))
    · intro hold
      have hbf : BraceFree c₀ := by
        rcases hold with hold | hold
        · exact hold
        · rw [Option.some.inj hold]
          exact hc.unmarked.braceFree
      obtain ⟨hs', hread⟩ := parseOuter_specSwap hs h hbf hc
      rw [roleOf_outside hs', hread]
      rfl
  | inside o =>
    rw [roleOf_inside hs] at h ⊢
    cases hr : insideRole (trim raw) with
    | outer l => exact absurd hr (insideRole_ne_outer _ _)
    | skip => rw [hr] at h; cases h
    | close => rw [hr] at h; cases h
    | idle => rw [hr] at h; cases h
    | thread k v closed =>
      have hsafe : SwapSafe raw (.thread k v closed) ↔ '{' ∉ v ∧ ¬ ClosesEarly (core raw) := Iff.rfl
      have hspec : (Role.thread k v closed).spec = some cpus ↔ v = cpus := by simp [Role.spec]
      have hwith : (Role.thread k v closed).withSpec cpus = .thread k cpus closed := rfl
      rw [hsafe, hspec, hwith]
      -- either the spec was not where the swap looks, or only a brace in it can do harm
      rcases inside_swapped hs hr hc.unmarked with ⟨hearly, hread, hs'⟩ | ⟨hlate, hread⟩
      · rw [roleOf_inside hs', hread]
        simp only [Role.thread.injEq, true_and, and_true, hearly, not_true_eq_false, and_false, false_or]
      · constructor
        · intro hsame
          have hs' : skipped (trim (specSwap raw cpus)) = false := by
            by_contra hn
            rw [roleOf_skipped (by simpa using hn)] at hsame
            cases hsame
          rw [roleOf_inside hs'] at hsame
          exact .inl ⟨hread closed hsame, hlate⟩
        · intro hold
          have hfree : '{' ∉ v := by
            rcases hold with hold | rfl
            · exact hold.1
            · exact hc.unmarked.braceFree.1
          obtain ⟨hs', hread'⟩ := insideRole_specSwap hs hr hfree hlate hc
          rw [roleOf_inside hs', hread']

/-- **`spec_swap` replaces the spec and nothing else** exactly when the line swaps cleanly. -/
theorem spec_swap_exact (place : Place) (raw spec pkg thread cpus : Str) (body : Option Json.Value)
    (topo : CpuTopology) (h : (roleOf place raw).spec = some spec)
    (hargs : ruleApiArgs body (some topo) = .ok (pkg, thread, cpus)) :
    Swapped place raw cpus ↔ SwapClean place raw cpus := by
  have hc : Spec topo cpus := (ruleApiArgs_ok hargs).spec
  obtain ⟨hs, heq⟩ := eq_of_spec h
  exact and_congr (roleOf_specSwap_iff h hc) (commentTail_specSwap hs heq hc)

/-- A request for the first core. -/
def coreZero : Json.Value :=
  .object [("pkg".toList, .string "com.a".toList), ("thread".toList, .string "T".toList),
    ("cpus".toList, .string "0".toList)]

theorem coreZero_args :
    ruleApiArgs (some coreZero) (some quadTopology) = .ok ("com.a".toList, "T".toList, "0".toList) := by
  decide +kernel

/-- The last line of a block, with its brace and a comment. -/
theorem spec_swap_exact_closing :
    (Swapped (.inside "com.a".toList) "  T = 1-2 \x7d # keep".toList "0".toList ↔
      SwapClean (.inside "com.a".toList) "  T = 1-2 \x7d # keep".toList "0".toList) ∧
    SwapClean (.inside "com.a".toList) "  T = 1-2 \x7d # keep".toList "0".toList :=
  ⟨spec_swap_exact _ _ "1-2".toList _ _ _ _ _ (by decide) coreZero_args,
    .inl (by decide), .inr (trimEnd_eq_self.mp (by decide))⟩

/-- A `}` ends the rule before the last `=`: the spec of the rule stays. -/
theorem spec_swap_behind_close :
    roleOf (.inside "com.a".toList) "T=1 \x7d x=2".toList = .thread "T".toList "1".toList true ∧
      ruleApiArgs (some coreZero) (some quadTopology) = .ok ("com.a".toList, "T".toList, "0".toList) ∧
      specSwap "T=1 \x7d x=2".toList "0".toList = "T=1 \x7d x=0".toList ∧
      ¬ Swapped (.inside "com.a".toList) "T=1 \x7d x=2".toList "0".toList := by
  refine ⟨by decide, coreZero_args, by decide, fun h => ?_⟩
  exact absurd h.1 (by decide)

end AppOptR
