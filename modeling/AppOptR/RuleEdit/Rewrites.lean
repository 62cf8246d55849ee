import AppOptR.RuleEdit.LineCore

/-!
# `RuleEdit.Rewrites` — rewritten lines, as the line grammar reads them

What becomes of a line when the editor swaps its spec (`specSwap`), puts a brace behind a header, closes or
opens a block in its place (`withComment`), or writes a thread rule down as a line of a block. Each result
is stated as the role the new line takes.
-/

namespace AppOptR

open Text

variable {s t cpus pkg thread owner : Str} {waiting : Option Str}

/-! ## Swapping the spec of a line outside a block -/

/-- What `spec_swap` keeps of the old value: the blanks and braces behind its first word. -/
def swapTail (val : Str) : Str := (val.dropWhile fun c => !valueEnd c).filter valueEnd

/-- Neither `{` nor `}`. -/
def BraceFree (s : Str) : Prop := '{' ∉ s ∧ '}' ∉ s

instance (s : Str) : Decidable (BraceFree s) := inferInstanceAs (Decidable (_ ∧ _))

theorem BraceFree.of_subset (h : BraceFree s) (hs : t ⊆ s) : BraceFree t :=
  ⟨fun hm => h.1 (hs hm), fun hm => h.2 (hs hm)⟩

theorem BraceFree.append (hs : BraceFree s) (ht : BraceFree t) : BraceFree (s ++ t) := by
  constructor
  · intro hm
    exact (List.mem_append.mp hm).elim hs.1 ht.1
  · intro hm
    exact (List.mem_append.mp hm).elim hs.2 ht.2

theorem blank_braceFree (h : Blank s) : BraceFree s :=
  ⟨fun hm => absurd (h _ hm) (by decide), fun hm => absurd (h _ hm) (by decide)⟩

theorem Unmarked.braceFree (h : Unmarked s) : BraceFree s :=
  ⟨h.not_mem (by simp [marks]), h.not_mem (by simp [marks])⟩

theorem BraceFree.of_trim (h : BraceFree (trim s)) : BraceFree s := by
  obtain ⟨w, w', hw, hw', hs⟩ := trim_decomp s
  rw [hs]
  exact (blank_braceFree hw).append (h.append (blank_braceFree hw'))

theorem swapTail_braceFree (h : BraceFree s) : Blank (swapTail s) := by
  intro c hc
  obtain ⟨hmem, hend⟩ := List.mem_filter.mp hc
  have hsub : c ∈ s := (List.dropWhile_sublist _).subset hmem
  simp only [valueEnd, Bool.or_eq_true, decide_eq_true_eq] at hend
  rcases hend with (hw | rfl) | rfl
  · exact hw
  · exact absurd hsub h.1
  · exact absurd hsub h.2

theorem swapTail_brace {x : Char} (h : BraceFree s) (hx : x = '{' ∨ x = '}') (r : Str) :
    ∃ b, Blank b ∧ swapTail (s ++ x :: r) = b ++ x :: r.filter valueEnd := by
  have hend : valueEnd x = true := by rcases hx with rfl | rfl <;> decide
  refine ⟨swapTail s, swapTail_braceFree h, ?_⟩
  have hdrop : (s ++ x :: r).dropWhile (fun c => !valueEnd c)
      = s.dropWhile (fun c => !valueEnd c) ++ x :: r := by
    induction s with
    | nil => simp [hend]
    | cons c s ih =>
      have hs : BraceFree s := h.of_subset (by simp)
      rw [List.cons_append, List.dropWhile_cons, List.dropWhile_cons]
      split
      · exact ih hs
      · rfl
  rw [swapTail, hdrop, List.filter_append, List.filter_cons, if_pos hend]
  rfl

theorem filter_blank {w : Str} (hw : Blank w) : Blank (w.filter valueEnd) := fun c hc =>
  hw c (List.mem_filter.mp hc).1

/-- A swapped line: the text up to the last `=`, the blanks behind it and the comment are those of the old one. -/
structure SwapForm (raw cpus w l rhs lead : Str) : Prop where
  indent : Blank w
  value : '=' ∉ rhs
  blanks : Blank lead
  old : stripComment raw = w ++ (l ++ '=' :: rhs)
  oldCore : core raw = l ++ '=' :: trimEnd rhs
  new : specSwap raw cpus = w ++ ((l ++ '=' :: (lead ++ (cpus ++ swapTail (trimStart rhs)))) ++ commentTail raw)
  head : HeadSolid (l ++ '=' :: (lead ++ (cpus ++ swapTail (trimStart rhs))))
  plain : commentFind false (w ++ (l ++ '=' :: (lead ++ (cpus ++ swapTail (trimStart rhs))))) = none

theorem specSwap_form {raw : Str} (hraw : skipped (trim raw) = false) (heq : '=' ∈ core raw) (hc : Unmarked cpus) :
    ∃ w l rhs lead, SwapForm raw cpus w l rhs lead := by
  obtain ⟨w, x, hstrip, hw, hx, hne, hplain, hcore⟩ := core_decomp hraw
  have hmem : '=' ∈ x := by
    obtain ⟨v, _, hv⟩ := trimEnd_decomp x
    rw [hv, ← hcore]
    simp [heq]
  obtain ⟨l, rhs, rfl, hrhs⟩ := eq_pair hmem
  -- the blanks before the value are kept
  obtain ⟨lead, hlead, hval⟩ := trimStart_decomp rhs
  have htake : rhs.take (rhs.length - (trimStart rhs).length) = lead := by
    have hlen := congrArg List.length hval
    rw [List.length_append] at hlen
    have hcut : rhs.length - (trimStart rhs).length = lead.length := by omega
    rw [hcut]
    conv_lhs => rw [hval]
    exact List.take_left' rfl
  have hswap : specSwap raw cpus
      = w ++ ((l ++ '=' :: (lead ++ (cpus ++ swapTail (trimStart rhs)))) ++ commentTail raw) := by
    have hsplit : splitLast '=' (raw.take ((commentAt raw).getD raw.length)) = some (w ++ l, rhs) := by
      show splitLast '=' (stripComment raw) = _
      rw [hstrip]
      exact splitLast_eq_some.mpr ⟨by simp, hrhs⟩
    unfold specSwap
    dsimp only
    rw [hsplit]
    dsimp only
    rw [htake]
    simp [commentTail, swapTail]
  have hhead : HeadSolid (l ++ '=' :: (lead ++ (cpus ++ swapTail (trimStart rhs)))) := by
    cases l with
    | nil => simp [HeadSolid, isWhitespace]
    | cons c l =>
      intro d hd
      exact hx d hd
  -- nothing behind the `=` can begin a comment
  have hnew : commentFind false (lead ++ (cpus ++ swapTail (trimStart rhs))) = none := by
    refine commentFind_commentFree (commentFree_of_plain ?_) false
    intro c hcm
    rcases List.mem_append.mp hcm with h | h
    · exact blank_not_mark hlead c h
    · rcases List.mem_append.mp h with h | h
      · have := hc c h
        constructor <;> rintro rfl <;> simp [marks] at this
      · have hend := (List.mem_filter.mp h).2
        constructor <;> rintro rfl <;> revert hend <;> decide
  have hbefore : commentFind false (w ++ l) = none := by
    have := commentFind_stripComment raw
    rw [hstrip, ← List.append_assoc] at this
    exact commentFind_prefix this
  refine ⟨w, l, rhs, lead, hw, hrhs, hlead, hstrip, ?_, hswap, hhead, ?_⟩
  · rw [hcore, trimEnd_append_cons (by decide)]
  · rw [← List.append_assoc]
    exact commentFind_pair hbefore hnew (by decide) (by decide)

/-- **The core of a swapped line.** Only the value changes, behind the last `=`. -/
theorem core_specSwap {raw : Str} (hraw : skipped (trim raw) = false) (heq : '=' ∈ core raw)
    (hc : Unmarked cpus) :
    ∃ l rhs lead, '=' ∉ rhs ∧ Blank lead ∧ core raw = l ++ '=' :: trimEnd rhs ∧
      core (specSwap raw cpus) = l ++ '=' :: trimEnd (lead ++ (cpus ++ swapTail (trimStart rhs))) := by
  obtain ⟨w, l, rhs, lead, h⟩ := specSwap_form hraw heq hc
  refine ⟨l, rhs, lead, h.value, h.blanks, h.oldCore, ?_⟩
  rw [h.new, core_written h.indent h.head (by simp) (commentFind_suffix h.plain) (commentTail_cases raw),
    trimEnd_append_cons (by decide)]

/-- The line with another spec. -/
def OuterLine.withSpec (cpus : Str) : OuterLine → OuterLine
  | .rule pkg _ opens => .rule pkg cpus opens
  | .single pkg thread _ opens => .single pkg thread cpus opens
  | l => l

theorem parsePair_spec {l v c₀ : Str} (hspec : (parsePair l v).spec = some c₀) : c₀ = valueText v := by
  unfold parsePair at hspec
  split at hspec
  · exact (Option.some.inj hspec).symm
  · split at hspec
    · cases hspec
    · split at hspec
      · split at hspec <;> cases hspec
      · exact (Option.some.inj hspec).symm

theorem parsePair_withSpec {l v v' c₀ : Str} (hspec : (parsePair l v).spec = some c₀)
    (ho : valueOpens v' = valueOpens v) (ht : valueText v' = cpus) (hne : cpus ≠ []) :
    parsePair l v' = (parsePair l v).withSpec cpus := by
  unfold parsePair at hspec ⊢
  rw [ho, ht]
  cases hk : singleKey l with
  | some k => rfl
  | none =>
    rw [hk] at hspec
    dsimp only at hspec ⊢
    by_cases hj : (!valueOpens v && closeLike (l ++ ['='])) = true
    · rw [if_pos hj, if_pos hj]
      rfl
    · rw [if_neg hj] at hspec
      rw [if_neg hj, if_neg hj]
      by_cases hempty : (valueText v).isEmpty = true
      · rw [if_pos hempty] at hspec
        split at hspec <;> cases hspec
      · rw [if_neg hempty, if_neg (by simpa using hne)]
        rfl

/-- A solid text between blanks. -/
theorem trim_between {w w' : Str} (hw : Blank w) (hw' : Blank w') (hh : HeadSolid s) (hl : LastSolid s) :
    trim (w ++ (s ++ w')) = s := by
  rw [trim_blank_append hw, trim_append_blank hw', trim_of_solid hh hl]

/-- The value of a swapped line without braces. -/
theorem swap_braceFree {rhs lead : Str} {topo : CpuTopology} (h : BraceFree rhs) (hc : Spec topo cpus) :
    trimEnd (lead ++ (cpus ++ swapTail (trimStart rhs))) = lead ++ cpus := by
  have htail : Blank (swapTail (trimStart rhs)) :=
    swapTail_braceFree (h.of_subset (List.dropWhile_sublist _).subset)
  rw [← List.append_assoc, trimEnd_append htail, trimEnd_eq_self]
  exact hc.last.append hc.ne _

/-- The value of a swapped line with a brace. -/
theorem swap_brace {r t lead : Str} {x : Char} (h : BraceFree r) (hx : x = '{' ∨ x = '}') :
    ∃ b, Blank b ∧ trimEnd (lead ++ (cpus ++ swapTail (trimStart (r ++ x :: t))))
      = lead ++ (cpus ++ b) ++ x :: trimEnd (t.filter valueEnd) := by
  have hsolid : isWhitespace x = false := by rcases hx with rfl | rfl <;> decide
  have hr : BraceFree (trimStart r) := h.of_subset (List.dropWhile_sublist _).subset
  obtain ⟨b, hb, htail⟩ := swapTail_brace hr hx t
  refine ⟨b, hb, ?_⟩
  rw [trimStart_append_cons hsolid, htail, ← trimEnd_append_cons hsolid]
  simp

/-- The value of a swapped line: the brace that opens a block is the only one, and it stays. -/
theorem swapped_value {rhs lead : Str} {topo : CpuTopology} (hold : BraceFree (valueText (trimEnd rhs)))
    (hlead : Blank lead) (hc : Spec topo cpus) :
    valueOpens (trimEnd (lead ++ (cpus ++ swapTail (trimStart rhs)))) = valueOpens (trimEnd rhs) ∧
      valueText (trimEnd (lead ++ (cpus ++ swapTail (trimStart rhs)))) = cpus := by
  by_cases ho : valueOpens (trimEnd rhs) = true
  · have hl : (trimEnd rhs).getLast? = some '{' := by simpa [valueOpens] using ho
    obtain ⟨r, hr⟩ := List.getLast?_eq_some_iff.mp hl
    obtain ⟨w, hw, hrhs⟩ := trimEnd_decomp rhs
    rw [hr, List.append_assoc, List.singleton_append] at hrhs
    have hbr : BraceFree r := by
      rw [valueText, if_pos ho, hr, List.dropLast_concat] at hold
      exact hold.of_trim
    obtain ⟨b, hb, hv⟩ := @swap_brace cpus _ w lead _ hbr (.inl rfl)
    have hopens : valueOpens (lead ++ (cpus ++ b) ++ ['{']) = true := by simp [valueOpens]
    rw [← hrhs, trimEnd_eq_nil.mpr (filter_blank hw)] at hv
    rw [ho, hv, valueText, hopens, if_pos rfl, List.dropLast_concat]
    exact ⟨rfl, trim_between hlead hb hc.head hc.last⟩
  · have hbr : BraceFree rhs := by
      rw [valueText, if_neg ho, trim_trimEnd] at hold
      exact hold.of_trim
    have hopens : valueOpens (lead ++ cpus) = false := by
      rw [valueOpens, List.getLast?_append_of_ne_nil _ hc.ne, decide_eq_false_iff_not]
      exact fun hl => hc.unmarked.braceFree.1 (List.mem_of_getLast? hl)
    rw [swap_braceFree hbr hc, valueText, hopens, if_neg Bool.false_ne_true]
    refine ⟨(Bool.eq_false_iff.mpr ho).symm, ?_⟩
    rw [trim_blank_append hlead, trim_of_solid hc.head hc.last]

/-- No `=` comes with a new value. -/
theorem swapped_value_free {rhs lead : Str} (hlead : Blank lead) (hc : Unmarked cpus) :
    '=' ∉ trimEnd (lead ++ (cpus ++ swapTail (trimStart rhs))) := by
  refine not_mem_trimEnd fun hm => ?_
  rcases List.mem_append.mp hm with h | h
  · exact absurd (hlead _ h) (by decide)
  · rcases List.mem_append.mp h with h | h
    · exact hc.not_mem (by simp [marks]) h
    · exact absurd (List.mem_filter.mp h).2 (by decide)

/-- **The swapped line** outside a block: the same key and the same brace, with the new spec, where the old
    spec has no brace of its own. -/
theorem parseOuter_specSwap {raw c₀ : Str} {topo : CpuTopology} (hraw : skipped (trim raw) = false)
    (hspec : (parseOuter (trim raw)).spec = some c₀) (hold : BraceFree c₀) (hc : Spec topo cpus) :
    skipped (trim (specSwap raw cpus)) = false ∧
      parseOuter (trim (specSwap raw cpus)) = (parseOuter (trim raw)).withSpec cpus := by
  rw [parseOuter_core] at hspec
  have heq : '=' ∈ core raw := by
    obtain ⟨l, v, hc₀, _⟩ := parseCore_spec hspec
    simp [hc₀]
  obtain ⟨l, rhs, lead, hrhs, hlead, hcore, hswap⟩ := core_specSwap hraw heq hc.unmarked
  have hV : '=' ∉ trimEnd rhs := not_mem_trimEnd hrhs
  rw [hcore, parseCore_pair hV] at hspec
  obtain ⟨hopens, htext⟩ := swapped_value (parsePair_spec hspec ▸ hold) hlead hc
  have hV' : '=' ∉ trimEnd (lead ++ (cpus ++ swapTail (trimStart rhs))) :=
    swapped_value_free hlead hc.unmarked
  rw [parseOuter_core, parseOuter_core, hcore, hswap, parseCore_pair hV, parseCore_pair hV']
  refine ⟨?_, parsePair_withSpec hspec hopens htext hc.ne⟩
  rw [skipped_core, hswap, skipped_pair l _ (trimEnd rhs), ← hcore, ← skipped_core]
  exact hraw

/-- A rule of a block has an `=`. -/
theorem splitCore_eq {c : Str} {r : Str × Str × Bool} (h : splitCore c = some r) : '=' ∈ c := by
  by_contra hn
  have hkv : ∀ s, '=' ∉ s → kv s = none := fun s hs => by rw [kv, splitLast_eq_none.mpr hs]
  have hb : kvBeforeBrace [] c = none := kvBeforeBrace_eq_none.mpr fun a b hab =>
    hkv _ fun hm => hn (by rw [hab]; simpa using Or.inl (by simpa using hm))
  rw [splitCore, hb, hkv _ hn] at h
  cases h

/-- **The swapped line** inside a block: the same thread and the same closing brace, with the new spec. -/
theorem insideRole_specSwap {raw k v : Str} {closed : Bool} {topo : CpuTopology}
    (hraw : skipped (trim raw) = false) (h : insideRole (trim raw) = .thread k v closed) (hold : '{' ∉ v)
    (hearly : ¬ ClosesEarly (core raw)) (hc : Spec topo cpus) :
    skipped (trim (specSwap raw cpus)) = false ∧
      insideRole (trim (specSwap raw cpus)) = .thread k cpus closed := by
  rw [insideRole_thread] at h
  obtain ⟨hcl, hsplit⟩ := h
  have hkey : '=' ∈ core raw := splitCore_eq hsplit
  obtain ⟨l, rhs, lead, hrhs, hlead, hcore, hswap⟩ := core_specSwap hraw hkey hc.unmarked
  have hV : '=' ∉ trimEnd rhs := not_mem_trimEnd hrhs
  have hV' : '=' ∉ trimEnd (lead ++ (cpus ++ swapTail (trimStart rhs))) :=
    swapped_value_free hlead hc.unmarked
  have hb : kvBeforeBrace [] l = none := by
    rw [hcore, closesEarly_pair hV] at hearly
    simpa using hearly
  rw [hcore, splitCore_pair hV hb] at hsplit
  by_cases hl : (trim l).isEmpty = true
  · rw [if_pos hl] at hsplit
    cases hsplit
  rw [if_neg hl] at hsplit
  simp only [Option.some.injEq, Prod.mk.injEq] at hsplit
  obtain ⟨rfl, rfl, rfl⟩ := hsplit
  -- up to the closing brace, if there is one, the value has no other
  have hvalue : trim (((splitFirst '}' (trimEnd (lead ++ (cpus ++ swapTail (trimStart rhs))))).map
        (·.1)).getD (trimEnd (lead ++ (cpus ++ swapTail (trimStart rhs))))) = cpus ∧
      (splitFirst '}' (trimEnd (lead ++ (cpus ++ swapTail (trimStart rhs))))).isSome
        = (splitFirst '}' (trimEnd rhs)).isSome := by
    have hbf := hc.unmarked.braceFree
    cases hs : splitFirst '}' (trimEnd rhs) with
    | none =>
      rw [hs] at hold
      have hbr : BraceFree rhs :=
        BraceFree.of_trim ⟨trim_trimEnd rhs ▸ hold, fun hm => by
          have hm' : '}' ∈ trim (trimEnd rhs) := by rwa [trim_trimEnd]
          exact splitFirst_eq_none.mp hs (trim_subset _ hm')⟩
      rw [swap_braceFree hbr hc, splitFirst_eq_none.mpr ((blank_braceFree hlead).append hbf).2]
      exact ⟨by rw [Option.map_none, Option.getD_none, trim_blank_append hlead, trim_of_solid hc.head hc.last],
        rfl⟩
    | some p =>
      obtain ⟨r, t⟩ := p
      obtain ⟨hr, hrb⟩ := splitFirst_eq_some.mp hs
      obtain ⟨w, _, hrhs'⟩ := trimEnd_decomp rhs
      rw [hs] at hold
      have hbr : BraceFree r := BraceFree.of_trim ⟨hold, fun hm => hrb (trim_subset _ hm)⟩
      rw [hr, List.append_assoc, List.cons_append] at hrhs'
      obtain ⟨b, hbl, hv⟩ := @swap_brace cpus _ (t ++ w) lead _ hbr (.inr rfl)
      have hfree : '}' ∉ lead ++ (cpus ++ b) :=
        ((blank_braceFree hlead).append (hbf.append (blank_braceFree hbl))).2
      rw [hrhs', hv, splitFirst_eq_some.mpr ⟨rfl, hfree⟩]
      exact ⟨trim_between hlead hbl hc.head hc.last, rfl⟩
  rw [insideRole_thread, skipped_core, hswap, splitCore_pair hV' hb, if_neg hl, hvalue.1, hvalue.2,
    closeLike_pair l, ← closeLike_pair l (trimEnd rhs), ← hcore, skipped_pair l _ (trimEnd rhs), ← hcore,
    ← skipped_core]
  exact ⟨hraw, hcl, rfl⟩

/-! ## Written lines -/

variable {old : Str} {k : Str}

/-- A text with ` {` behind it. -/
theorem Solid.open (hs : Solid s) (hne : s ≠ []) : Solid (s ++ [' ', '{']) where
  head := hs.head.append hne _
  last := by
    intro c hc
    rw [List.getLast?_append_of_ne_nil _ (by simp)] at hc
    rw [← Option.some.inj hc]
    decide
  plain := commentFind_append_plain hs.plain (by simp)

theorem not_mem_open {x : Char} (h : x ∉ s) (hx : x ∉ [' ', '{']) : x ∉ s ++ [' ', '{'] := fun hm =>
  (List.mem_append.mp hm).elim h hx

theorem blank_space : Blank [' '] := by
  intro c hc
  rw [List.mem_singleton.mp hc]
  decide

theorem dropLast_open (v : Str) : (v ++ [' ', '{']).dropLast = v ++ [' '] := by
  rw [show v ++ [' ', '{'] = (v ++ [' ']) ++ ['{'] by simp, List.dropLast_concat]

theorem valueOpens_open (v : Str) : valueOpens (v ++ [' ', '{']) = true := by simp [valueOpens]

theorem valueText_open (v : Str) : valueText (v ++ [' ', '{']) = trim v := by
  rw [valueText, valueOpens_open, if_pos rfl, dropLast_open, trim_append_blank blank_space]

/-- A header pair: the key, `=`, a value that does not read as a single-line rule. -/
theorem parsePair_rule {v : Str} (hk : Solid k) (hb : '{' ∉ k)
    (hcl : valueOpens v = true ∨ closeLike (k ++ ['=']) = false) (ht : valueText v ≠ []) :
    parsePair k v = .rule k (valueText v) (valueOpens v) := by
  have hj : (!valueOpens v && closeLike (k ++ ['='])) = false := by
    rcases hcl with h | h <;> simp [h]
  unfold parsePair
  rw [singleKey_none hb]
  dsimp only
  rw [hj, if_neg Bool.false_ne_true, if_neg (by simpa using ht), trim_of_solid hk.head hk.last]

/-- **The opening line** `key {`, or `key= {`, with the comment of the old line. -/
theorem roleOf_bareOpenLine (hk : Key k) (hb : '{' ∉ k) :
    roleOf (.outside waiting) (withComment (bareOpenLine k) old) = .outer (.bareOpen k) := by
  have hsolid : Solid (bareOpenLine k) := by
    unfold bareOpenLine
    split
    · have hpair : Solid (k ++ ['=']) := (hk.pair (v := []) ⟨by simp [HeadSolid], by simp [LastSolid], rfl⟩).1
      have := hpair.open (by simp)
      rwa [List.append_assoc] at this
    · exact hk.toSolid.open hk.ne
  have hne : bareOpenLine k ≠ [] := by
    unfold bareOpenLine
    split <;> simp
  have hs : skipped (bareOpenLine k) = false := by
    unfold bareOpenLine
    split
    · rw [skipped_append hk.ne (by decide), hk.shown]
    · rw [skipped_append hk.ne (by decide), hk.shown]
  have hparse : parseCore (bareOpenLine k) = .bareOpen k := by
    unfold bareOpenLine
    split
    · have hv : '=' ∉ [' ', '{'] := by decide
      have hread : k ++ ['=', ' ', '{'] = k ++ '=' :: [' ', '{'] := rfl
      have htext : valueText [' ', '{'] = [] := valueText_open []
      have hopens : valueOpens [' ', '{'] = true := valueOpens_open []
      rw [hread, parseCore_pair hv, parsePair, singleKey_none hb, htext, hopens]
      simp [trim_of_solid hk.head hk.last]
    · next hn =>
      have hc : '=' ∉ k ++ [' ', '{'] := not_mem_open hn (by decide)
      rw [parseCore_plain hc, valueOpens_open, if_pos rfl, dropLast_open, trimEnd_append blank_space,
        trimEnd_eq_self.mpr hk.last]
  rw [withComment_eq]
  have hcore := hsolid.core hne blank_nil (commentTail_cases old)
  rw [List.nil_append] at hcore
  rw [roleOf_outside_core hcore hs, hparse]

/-- **The header** `key=cpus {` with the comment of the old line. -/
theorem roleOf_openLine (hk : Key k) (hb : '{' ∉ k) (hc : Solid cpus) (hne : cpus ≠ []) (heq : '=' ∉ cpus) :
    roleOf (.outside waiting) (withComment (k ++ '=' :: cpus ++ [' ', '{']) old)
      = .outer (.rule k cpus true) := by
  have hpair := hk.pair hc
  have hsolid : Solid (k ++ '=' :: cpus ++ [' ', '{']) := hpair.1.open (by simp)
  have hs : skipped (k ++ '=' :: cpus ++ [' ', '{']) = false := by
    rw [skipped_append (by simp) (by decide), hpair.2]
  have hv : '=' ∉ cpus ++ [' ', '{'] := not_mem_open heq (by decide)
  have hparse : parseCore (k ++ '=' :: cpus ++ [' ', '{']) = .rule k cpus true := by
    have htext : valueText (cpus ++ [' ', '{']) = cpus := by
      rw [valueText_open, trim_of_solid hc.head hc.last]
    rw [List.append_assoc, List.cons_append, parseCore_pair hv,
      parsePair_rule hk.toSolid hb (.inl (valueOpens_open cpus)) (by rwa [htext]), htext, valueOpens_open]
  rw [withComment_eq]
  have hcore := hsolid.core (by simp) blank_nil (commentTail_cases old)
  rw [List.nil_append] at hcore
  rw [roleOf_outside_core hcore hs, hparse]

/-- **The package line** `key=cpus`. -/
theorem roleOf_packageLine (hk : Key k) (hb : '{' ∉ k) (hcl : closeLike (k ++ ['=']) = false)
    (hc : Solid cpus) (hne : cpus ≠ []) (heq : '=' ∉ cpus) (hopen : valueOpens cpus = false) :
    roleOf (.outside waiting) (k ++ '=' :: cpus) = .outer (.rule k cpus false) := by
  have hpair := hk.pair hc
  have htext : valueText cpus = cpus := by
    rw [valueText, hopen, if_neg Bool.false_ne_true, trim_of_solid hc.head hc.last]
  have hcore := hpair.1.core (t := []) (by simp) blank_nil (.inl rfl)
  rw [List.nil_append, List.append_nil] at hcore
  rw [roleOf_outside_core hcore hpair.2, parseCore_pair heq,
    parsePair_rule hk.toSolid hb (.inr hcl) (by rwa [htext]), htext, hopen]

/-- **A closing line** with the comment of the old one. -/
theorem roleOf_closeLine : roleOf (.inside owner) (withComment ['}'] old) = .close := by
  rw [withComment_eq]
  have hsolid : Solid ['}'] := ⟨by simp [HeadSolid, isWhitespace], by simp [LastSolid, isWhitespace], by decide⟩
  have hcore := hsolid.core (by simp) blank_nil (commentTail_cases old)
  rw [List.nil_append] at hcore
  exact roleOf_inside_close hcore (by decide) (by decide)

/-- A thread name that a line of a block can begin with: the line is neither a comment nor a close, and no
    rule ends inside the name. -/
def BlockName (s : Str) : Prop :=
  skipped s = false ∧ closeLike (s ++ ['=']) = false ∧ kvBeforeBrace [] s = none

instance (s : Str) : Decidable (BlockName s) := inferInstanceAs (Decidable (_ ∧ _ ∧ _))

theorem kvBeforeBrace_eq_some {pre : Str} {r : Str × Str} (h : kvBeforeBrace pre s = some r) :
    ∃ a b, s = a ++ '}' :: b ∧ kv (pre ++ a) = some r ∧ kvBeforeBrace pre a = none := by
  induction s generalizing pre with
  | nil => cases h
  | cons c s ih =>
    unfold kvBeforeBrace at h
    split at h
    · next hc =>
      subst hc
      split at h
      · next hk => exact ⟨[], s, rfl, by rw [List.append_nil, hk, h], rfl⟩
      · next hk =>
        obtain ⟨a, b, rfl, hkv, hnone⟩ := ih h
        refine ⟨'}' :: a, b, rfl, by simpa using hkv, ?_⟩
        rw [kvBeforeBrace, if_pos rfl, hk]
        exact hnone
    · next hc =>
      obtain ⟨a, b, rfl, hkv, hnone⟩ := ih h
      refine ⟨c :: a, b, rfl, by simpa using hkv, ?_⟩
      rw [kvBeforeBrace, if_neg hc]
      exact hnone

/-- The part of a line of a block that states its rule: up to the first `}` that ends one, or all of it. -/
theorem splitCore_part {c k v : Str} {closed : Bool} (h : splitCore c = some (k, v, closed)) :
    ∃ x rest, c = x ++ rest ∧ kv x = some (k, v) ∧ kvBeforeBrace [] x = none := by
  unfold splitCore at h
  cases hb : kvBeforeBrace [] c with
  | none =>
    rw [hb] at h
    obtain ⟨⟨k', v'⟩, hkv, he⟩ := Option.map_eq_some_iff.mp h
    simp only [Prod.mk.injEq] at he
    obtain ⟨rfl, rfl, _⟩ := he
    exact ⟨c, [], by simp, hkv, hb⟩
  | some p =>
    rw [hb] at h
    obtain ⟨rfl, rfl, _⟩ : p.1 = k ∧ p.2 = v ∧ true = closed := by simpa using h
    obtain ⟨a, b, rfl, hkv, hnone⟩ := kvBeforeBrace_eq_some hb
    exact ⟨a, '}' :: b, rfl, hkv, hnone⟩

/-- A stray close keeps one when an `=` follows it. -/
theorem closeLike_eq {s : Str} (hne : s ≠ []) (h : closeLike s = false) : closeLike (s ++ ['=']) = false := by
  match s with
  | [] => exact absurd rfl hne
  | [c] =>
    have hc : c ≠ '}' := by
      rintro rfl
      cases h
    simp [closeLike, hc]
  | [c, d] =>
    by_cases hc : c = '}'
    · subst hc
      simpa [closeLike, List.isPrefixOf] using h
    · simp [closeLike, hc]
  | c :: d :: e :: s =>
    by_cases hc : c = '}'
    · subst hc
      simpa [closeLike, List.isPrefixOf] using h
    · simp [closeLike, hc]

/-- A thread rule that is read as one, by its core. -/
theorem thread_core {place : Place} {l k v : Str} {closed : Bool} (h : roleOf place l = .thread k v closed) :
    skipped (core l) = false ∧ closeLike (core l) = false ∧ splitCore (core l) = some (k, v, closed) := by
  by_cases hs : skipped (trim l) = true
  · rw [roleOf_skipped hs] at h
    cases h
  have hs' : skipped (trim l) = false := by simpa using hs
  cases place with
  | outside w =>
    rw [roleOf_outside hs'] at h
    cases h
  | inside o =>
    rw [roleOf_inside hs'] at h
    exact ⟨skipped_core l ▸ hs', insideRole_thread.mp h⟩

/-- What can be written down of a rule of a block. -/
structure ThreadParts (thread cpus : Str) : Prop where
  name : Solid thread
  named : thread ≠ []
  block : BlockName thread
  value : Solid cpus
  noEq : '=' ∉ cpus
  noClose : '}' ∉ cpus

theorem thread_parts {place : Place} {l k v : Str} {closed : Bool} (h : roleOf place l = .thread k v closed) :
    ThreadParts k v := by
  obtain ⟨hs, hcl, hsplit⟩ := thread_core h
  have hplain := commentFind_core l
  have hhead := headSolid_core l
  obtain ⟨x, rest, hc, hkv, hnone⟩ := splitCore_part hsplit
  have heq : '=' ∈ x := by
    by_contra heq
    rw [kv, splitLast_eq_none.mpr heq] at hkv
    cases hkv
  obtain ⟨l', r, rfl, hr⟩ := eq_pair heq
  rw [kv_pair hr] at hkv
  split at hkv
  · cases hkv
  next hnamed =>
  obtain ⟨rfl, rfl⟩ := Prod.mk.inj (Option.some.inj hkv)
  have hne : trim l' ≠ [] := by simpa using hnamed
  have hstart : core l = l' ++ '=' :: (r ++ rest) := by simp [hc]
  rw [hstart] at hs hplain hhead
  have hkey : Key (trim l') := Key.of_start hhead hplain hs (by decide) hne
  obtain ⟨w, hw, hl⟩ := trimEnd_decomp l'
  have htrim : trim l' = trimEnd l' := HeadSolid.trim_eq hhead.of_append
  rw [← htrim] at hl
  refine ⟨hkey.toSolid, hne, ⟨hkey.shown, ?_, ?_⟩, ?_, not_mem_trim hr, not_mem_trim fun hm => ?_⟩
  · -- whether a line closes is decided before the `=`
    rw [hstart, hl, List.append_assoc] at hcl
    cases w with
    | nil => rwa [List.nil_append, closeLike_pair] at hcl
    | cons c w => exact closeLike_eq hne (by rwa [List.cons_append, closeLike_append hne (hw c (by simp))] at hcl)
  · refine kvBeforeBrace_eq_none.mpr fun a b hab => ?_
    refine kvBeforeBrace_eq_none.mp hnone a (b ++ (w ++ '=' :: r)) ?_
    rw [hl, hab]
    simp
  · refine Solid.trim_part (a := l' ++ ['=']) (b := rest) ?_
    simpa using hplain
  · -- a `}` in the value would have ended the rule before it
    obtain ⟨r₁, r₂, rfl⟩ := List.append_of_mem hm
    have hkv := kvBeforeBrace_eq_none.mp hnone (l' ++ '=' :: r₁) r₂ (by simp)
    have hr₁ : '=' ∉ r₁ := fun hm => hr (List.mem_append_left _ hm)
    rw [List.nil_append, kv_pair hr₁, if_neg hnamed] at hkv
    cases hkv

/-- **The thread line** `name=cpus` behind a tab, with a comment. -/
theorem roleOf_threadLine (hn : Solid thread) (hne : thread ≠ []) (hblock : BlockName thread) (hc : Solid cpus)
    (heq : '=' ∉ cpus) (hb : '}' ∉ cpus) {t : Str} (ht : t = [] ∨ CommentTail t) :
    roleOf (.inside owner) ('\t' :: thread ++ '=' :: cpus ++ t) = .thread thread cpus false := by
  obtain ⟨hs, hcl, hkv⟩ := hblock
  have hpair := Key.pair ⟨hn, hne, hs⟩ hc
  have htab : Blank ['\t'] := by
    intro c hc
    rw [List.mem_singleton.mp hc]
    decide
  have hcore := hpair.1.core (by simp) htab ht
  have hline : '\t' :: thread ++ '=' :: cpus ++ t = ['\t'] ++ (thread ++ '=' :: cpus ++ t) := by simp
  rw [← hline] at hcore
  refine roleOf_inside_thread hcore hpair.2 (by rwa [closeLike_pair]) ?_
  rw [splitCore_pair heq hkv, trim_of_solid hn.head hn.last, if_neg (by simpa using hne),
    splitFirst_eq_none.mpr hb, Option.map_none, Option.getD_none, trim_of_solid hc.head hc.last]
  rfl

/-- **A header made to open a block**: a rule that stands alone, without a comment, and ` {`. -/
theorem roleOf_headerOpen {l : Str} (h : roleOf (.outside waiting) l = .outer (.rule k cpus false))
    (hl : commentAt l = none) {waiting' : Option Str} :
    roleOf (.outside waiting') (trimEnd l ++ [' ', '{']) = .outer (.rule k cpus true) := by
  obtain ⟨hs, hp⟩ := outer_core h
  obtain ⟨w, x, hstrip, hw, hx, hne, hplain, hcore⟩ := core_decomp (skipped_core l ▸ hs)
  have hstrip' : stripComment l = l := by
    rw [stripComment, hl]
    exact List.take_length
  rw [hstrip'] at hstrip
  -- without a comment the core is the line less its blanks
  have hend : trimEnd l = w ++ core l := by
    obtain ⟨y, x', rfl⟩ := List.exists_cons_of_ne_nil hne
    have hy := hx y rfl
    have h1 := trimEnd_append_cons hy w x'
    have h2 := trimEnd_append_cons hy [] x'
    rw [List.nil_append, List.nil_append] at h2
    rw [hcore, hstrip, h1, h2]
  have hcne : core l ≠ [] := by
    intro hn
    rw [hn] at hs
    cases hs
  have hsolid : Solid (core l) := ⟨headSolid_core l, lastSolid_core l, commentFind_core l⟩
  have hnew : core (trimEnd l ++ [' ', '{']) = core l ++ [' ', '{'] := by
    have := (hsolid.open hcne).core (t := []) (by simp) hw (.inl rfl)
    rw [hend]
    simpa using this
  have hs' : skipped (core l ++ [' ', '{']) = false := by rw [skipped_append hcne (by decide), hs]
  rw [roleOf_outside_core hnew hs']
  -- the header is a pair, and the brace goes behind its value
  obtain ⟨key, v, hkv, hv, hpair⟩ := @parseCore_spec (core l) cpus (by rw [hp]; rfl)
  have hv' : '=' ∉ v ++ [' ', '{'] := not_mem_open hv (by decide)
  rw [hpair] at hp
  rw [hkv, List.append_assoc, List.cons_append, parseCore_pair hv', Role.outer.injEq]
  unfold parsePair at hp ⊢
  rw [valueText_open, valueOpens_open]
  cases hk : singleKey key with
  | some p =>
    rw [hk] at hp
    cases hp
  | none =>
    rw [hk] at hp
    dsimp only at hp ⊢
    split at hp
    · cases hp
    · split at hp
      · split at hp <;> cases hp
      · next hne =>
        simp only [OuterLine.rule.injEq] at hp
        obtain ⟨rfl, rfl, ho⟩ := hp
        have htext : valueText v = trim v := by rw [valueText, ho, if_neg Bool.false_ne_true]
        rw [htext] at hne ⊢
        simp [hne]

/-- A comment goes on to the end of the line. -/
theorem CommentTail.append (h : CommentTail t) (s : Str) : CommentTail (t ++ s) := by
  obtain ⟨w, m, rfl, hne, hw, r, hm⟩ := h
  refine ⟨w, m ++ s, List.append_assoc _ _ _, hne, hw, r ++ s, ?_⟩
  rcases hm with rfl | rfl
  · exact .inl rfl
  · exact .inr rfl

/-- **Behind a comment** the brace is part of it: the line reads as before. -/
theorem roleOf_headerSwallowed {l : Str} {r : OuterLine} (h : roleOf (.outside waiting) l = .outer r)
    (hl : commentAt l ≠ none) {waiting' : Option Str} :
    roleOf (.outside waiting') (trimEnd l ++ [' ', '{']) = .outer r := by
  obtain ⟨hs, hp⟩ := outer_core h
  obtain ⟨w, x, hstrip, hw, hx, hne, hplain, hcore⟩ := core_decomp (skipped_core l ▸ hs)
  have htail : CommentTail (commentTail l) := by
    rcases stripComment_cases l with ⟨_, _, hnone⟩ | ⟨ht, _, _⟩
    · exact absurd (by rw [commentAt, hnone]; rfl) hl
    · exact ht
  have hend : trimEnd l ++ [' ', '{'] = w ++ (x ++ (trimEnd (commentTail l) ++ [' ', '{'])) := by
    have hsplit := stripComment_append_commentTail l
    conv_lhs => rw [← hsplit, hstrip, htail.trimEnd.2]
    simp
  have hsame : core (trimEnd l ++ [' ', '{']) = core l := by
    rw [hend, hcore]
    exact core_written hw hx hne hplain (.inr (htail.trimEnd.1.append _))
  rw [roleOf_outside_core hsame hs, hp]

/-- A header that stands alone, with ` {` put behind it, is a rule of the package either way. -/
theorem roleOf_headerEither {l : Str} (h : roleOf (.outside waiting) l = .outer (.rule k cpus false))
    {waiting' : Option Str} :
    ∃ opens, roleOf (.outside waiting') (trimEnd l ++ [' ', '{']) = .outer (.rule k cpus opens) := by
  by_cases hl : commentAt l = none
  · exact ⟨true, roleOf_headerOpen h hl⟩
  · exact ⟨false, roleOf_headerSwallowed h hl⟩

end AppOptR
