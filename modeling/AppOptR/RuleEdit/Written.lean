import AppOptR.RuleEdit.Ops

/-!
# `RuleEdit.Written` — the lines the editor writes, as the line grammar reads them

The editor writes three kinds of line from a name and a spec: `pkg=cpus`, the opening line
`bareOpenLine pkg`, and `thread=cpus` behind a tab. Names and specs come checked (`Name`, `Spec`); what the
grammar makes of such a line is decided by a few shapes a name can still have (`StartsClose`,
`BraceAfterKey`, `SinglePair`), which are spelled out here.
-/

namespace AppOptR

open Text

variable {s t pkg thread cpus : Str}

/-! ## Text without comment marks -/

/-- Neither `#` nor `//`. -/
def CommentFree (s : Str) : Prop := '#' ∉ s ∧ ¬ ['/', '/'] <:+: s

theorem commentFree_of_plain (h : ∀ c ∈ s, c ≠ '#' ∧ c ≠ '/') : CommentFree s := by
  refine ⟨fun hc => (h _ hc).1 rfl, fun hi => ?_⟩
  exact (h '/' (hi.subset (by simp))).2 rfl

/-- Texts without a comment stay so around a character that starts none. -/
theorem CommentFree.append_cons (hs : CommentFree s) (ht : CommentFree t) {x : Char} (hx : x ≠ '#')
    (hx' : x ≠ '/') : CommentFree (s ++ x :: t) := by
  constructor
  · intro h
    rcases List.mem_append.mp h with h | h
    · exact hs.1 h
    · rcases List.mem_cons.mp h with h | h
      · exact hx h.symm
      · exact ht.1 h
  · rw [infix_pair_append_cons hx'.symm hx'.symm]
    exact not_or.mpr ⟨hs.2, ht.2⟩

/-- A text without a comment has none to find. -/
theorem commentFind_commentFree (h : CommentFree s) (prevWs : Bool) : commentFind prevWs s = none := by
  induction s generalizing prevWs with
  | nil => rfl
  | cons c s ih =>
    have hc : c ≠ '#' := fun hc => h.1 (by simp [hc])
    have hslash : ¬ (c = '/' ∧ s.head? = some '/') := by
      rintro ⟨rfl, hs⟩
      obtain ⟨s', rfl⟩ : ∃ s', s = '/' :: s' := by
        cases s with
        | nil => cases hs
        | cons d s' => exact ⟨s', by rw [Option.some.inj hs]⟩
      exact h.2 ⟨[], s', rfl⟩
    have hs : CommentFree s := ⟨fun hm => h.1 (by simp [hm]), fun hi => h.2 (List.infix_cons hi)⟩
    have hcond : (prevWs && (c == '#' || (c == '/' && s.head? == some '/'))) = false := by
      rw [Bool.eq_false_iff]
      intro hb
      simp only [Bool.and_eq_true, Bool.or_eq_true, beq_iff_eq, hc, false_or] at hb
      exact hslash hb.2
    unfold commentFind
    rw [hcond, ih hs]
    rfl

theorem CommentFree.commentAt (h : CommentFree s) : commentAt s = none := by
  rw [AppOptR.commentAt, commentFind_commentFree h]
  rfl

theorem CommentFree.stripComment (h : CommentFree s) : stripComment s = s := by
  rw [AppOptR.stripComment, h.commentAt]
  exact List.take_length

theorem CommentFree.not_skipped (h : CommentFree s) (hne : s ≠ []) : skipped s = false := by
  cases s with
  | nil => exact absurd rfl hne
  | cons c s =>
    have hc : c ≠ '#' := fun hc => h.1 (by simp [hc])
    have hslash : ['/', '/'].isPrefixOf (c :: s) = false := by
      rw [Bool.eq_false_iff]
      intro hp
      exact h.2 (List.isPrefixOf_iff_prefix.mp hp).isInfix
    simp [skipped, hc, hslash]

/-! ## Checked names and specs -/

/-- A name as the web API admits it: trimmed, not empty, short, without control characters and comment
    marks. -/
structure Name (max : Nat) (s : Str) : Prop where
  ne : s ≠ []
  head : HeadSolid s
  last : LastSolid s
  short : byteLen s < max
  clean : ∀ c ∈ s, isControl c = false
  commentFree : CommentFree s

/-- A CPU spec as the web API admits it. -/
structure Spec (topo : CpuTopology) (s : Str) : Prop where
  ne : s ≠ []
  head : HeadSolid s
  last : LastSolid s
  like : specLike s = true
  count : (parseCpuSpec s topo).count ≠ 0

theorem Name.no_newline {max : Nat} (h : Name max s) : '\n' ∉ s := fun hm =>
  absurd (h.clean _ hm) (by decide)

/-- The characters that mean something to the line grammar. -/
def marks : Str := ['=', '{', '}', '#', '/']

/-- No character of the text means anything to the line grammar. -/
def Unmarked (s : Str) : Prop := ∀ c ∈ s, c ∉ marks

instance (s : Str) : Decidable (Unmarked s) := List.decidableBAll _ s

theorem Unmarked.of_subset (h : Unmarked s) (hs : t ⊆ s) : Unmarked t := fun c hc => h c (hs hc)

theorem Unmarked.commentFree (h : Unmarked s) : CommentFree s :=
  commentFree_of_plain fun c hc => by
    have := h c hc
    constructor <;> rintro rfl <;> simp [marks] at this

theorem Unmarked.not_mem (h : Unmarked s) {c : Char} (hc : c ∈ marks) : c ∉ s := fun hm => h c hm hc

theorem isDigit_unmarked {c : Char} (h : c.isDigit = true) : c ∉ marks := by
  intro hm
  simp only [marks, List.mem_cons, List.not_mem_nil, or_false] at hm
  rcases hm with rfl | rfl | rfl | rfl | rfl <;> revert h <;> decide

theorem isWhitespace_unmarked {c : Char} (h : isWhitespace c = true) : c ∉ marks := by
  intro hm
  simp only [marks, List.mem_cons, List.not_mem_nil, or_false] at hm
  rcases hm with rfl | rfl | rfl | rfl | rfl <;> revert h <;> decide

theorem allDigits_unmarked (h : allDigits s = true) : Unmarked s := fun c hc =>
  isDigit_unmarked (List.all_eq_true.mp h c hc)

theorem specPartLike_unmarked (h : specPartLike s = true) : Unmarked s := by
  simp only [specPartLike, Bool.or_eq_true, decide_eq_true_eq] at h
  rcases h with ((((rfl | rfl) | rfl) | rfl) | h) | h
  · decide
  · decide
  · decide
  · decide
  · exact allDigits_unmarked h
  · cases hs : splitFirst '-' s with
    | none => rw [hs] at h; cases h
    | some p =>
      rw [hs] at h
      simp only [Option.any_some, Bool.and_eq_true] at h
      obtain ⟨⟨_, ha⟩, hb⟩ := h
      rw [(splitFirst_eq_some.mp hs).1]
      intro c hc
      rcases List.mem_append.mp hc with hc | hc
      · exact allDigits_unmarked ha c hc
      · rcases List.mem_cons.mp hc with rfl | hc
        · decide
        · exact allDigits_unmarked hb c hc

/-- **A spec is unmarked**: nothing in it can end a value, open or close a block, or start a comment. -/
theorem specLike_unmarked (h : specLike s = true) : Unmarked s := by
  have hparts : ∀ p ∈ s.splitOn ',', Unmarked p := by
    intro p hp c hc
    by_cases hw : isWhitespace c = true
    · exact isWhitespace_unmarked hw
    have hmem : c ∈ trim p := by
      obtain ⟨w, w', hw1, hw2, he⟩ := trim_decomp p
      rw [he] at hc
      rcases List.mem_append.mp hc with hc | hc
      · exact absurd (hw1 c hc) hw
      · exact (List.mem_append.mp hc).resolve_right fun hc => hw (hw2 c hc)
    simp only [specLike, Bool.and_eq_true, List.all_eq_true] at h
    have hne : trim p ≠ [] := List.ne_nil_of_mem hmem
    exact specPartLike_unmarked (h.1 (trim p) (List.mem_filter.mpr
      ⟨List.mem_map.mpr ⟨p, hp, rfl⟩, by simpa using hne⟩)) c hmem
  intro c hc
  rcases mem_splitOn (x := ',') hc with rfl | ⟨p, hp, hcp⟩
  · decide
  · exact hparts p hp c hcp

theorem Spec.unmarked {topo : CpuTopology} (h : Spec topo cpus) : Unmarked cpus :=
  specLike_unmarked h.like

/-! ## A rule line: key, `=`, spec -/

theorem solid_pair (hs : HeadSolid s) (hne : s ≠ []) (ht : LastSolid t) (hne' : t ≠ []) (x : Char) :
    trim (s ++ x :: t) = s ++ x :: t := by
  refine trim_of_solid (hs.append hne _) ?_
  have := ht.append hne' (s ++ [x])
  rwa [List.append_assoc] at this

/-- The name begins with a closing brace that stands alone. -/
def StartsClose (s : Str) : Prop := ∃ c r, s = '}' :: c :: r ∧ isWhitespace c = true

theorem closeLike_key (h : CommentFree s) : closeLike (s ++ '=' :: t) = true ↔ StartsClose s := by
  match s with
  | [] => simp [closeLike, StartsClose]
  | [c] =>
    by_cases hc : c = '}'
    · subst hc
      simp [closeLike, StartsClose, isWhitespace]
    · simp [closeLike, StartsClose, hc]
  | c :: d :: s =>
    by_cases hc : c = '}'
    · subst hc
      have hd : d ≠ '#' := fun hd => h.1 (by simp [hd])
      have hslash : ['/', '/'].isPrefixOf (d :: (s ++ '=' :: t)) = false := by
        rw [Bool.eq_false_iff]
        intro hp
        have hp' : ['/', '/'] <+: d :: (s ++ '=' :: t) := List.isPrefixOf_iff_prefix.mp hp
        rw [List.cons_prefix_cons] at hp'
        obtain ⟨hd, hp'⟩ := hp'
        cases s with
        | nil => simp at hp'
        | cons e s =>
          rw [List.cons_append, List.cons_prefix_cons] at hp'
          exact h.2 ⟨['}'], s, by rw [← hd, ← hp'.1]; rfl⟩
      simp [closeLike, StartsClose, hd, hslash]
    · simp [closeLike, StartsClose, hc]

theorem ruleLine_commentFree {max : Nat} {topo : CpuTopology} (hs : Name max s) (hc : Spec topo cpus) :
    CommentFree (s ++ '=' :: cpus) :=
  hs.commentFree.append_cons hc.unmarked.commentFree (by decide) (by decide)

theorem ruleLine_trim {max : Nat} {topo : CpuTopology} (hs : Name max s) (hc : Spec topo cpus) :
    trim (s ++ '=' :: cpus) = s ++ '=' :: cpus := solid_pair hs.head hs.ne hc.last hc.ne _

theorem ruleLine_splitLast {topo : CpuTopology} (hc : Spec topo cpus) :
    splitLast '=' (s ++ '=' :: cpus) = some (s, cpus) :=
  splitLast_eq_some.mpr ⟨rfl, hc.unmarked.not_mem (by simp [marks])⟩

/-- No brace pair in a package name that passes `pkg_shape_ok`. -/
theorem splitSingleLine_package {topo : CpuTopology} (hs : LastSolid s) (hc : Spec topo cpus)
    (hshape : ¬ ('{' ∈ s ∧ s.getLast? = some '}')) : splitSingleLine (s ++ '=' :: cpus) = none := by
  unfold splitSingleLine
  rw [ruleLine_splitLast hc]
  dsimp only
  rw [trimEnd_eq_self.mpr hs]
  cases hsuf : stripSuffix '}' s with
  | none => rfl
  | some left =>
    have hleft : s = left ++ ['}'] := stripSuffix_eq_some.mp hsuf
    have hbrace : '{' ∉ trimEnd left := by
      intro hm
      refine hshape ⟨?_, by rw [hleft, List.getLast?_concat]⟩
      obtain ⟨w, _, he⟩ := trimEnd_decomp left
      rw [hleft, he]
      simp [hm]
    dsimp only
    rw [splitFirst_eq_none.mpr hbrace]

/-- **The line `pkg=cpus`** outside a block: the package's rule, unless the name begins as a close. -/
theorem parseOuter_ruleLine {max : Nat} {topo : CpuTopology} (hp : Name max pkg) (hc : Spec topo cpus)
    (hshape : ¬ ('{' ∈ pkg ∧ pkg.getLast? = some '}')) :
    (StartsClose pkg → parseOuter (pkg ++ '=' :: cpus) = .junk) ∧
    (¬ StartsClose pkg → parseOuter (pkg ++ '=' :: cpus) = .rule pkg cpus false) := by
  have hlast : (pkg ++ '=' :: cpus).getLast? ≠ some '{' := by
    intro hl
    rw [List.getLast?_append_of_ne_nil _ (by simp), List.getLast?_cons_of_ne_nil hc.ne] at hl
    exact hc.unmarked.not_mem (by simp [marks]) (List.mem_of_getLast? hl)
  have hbody : outerBody (pkg ++ '=' :: cpus) = (false, pkg ++ '=' :: cpus) := by
    rw [outerBody, (ruleLine_commentFree hp hc).stripComment, stripSuffix_eq_none.mpr hlast]
  unfold parseOuter
  rw [hbody]
  dsimp only
  rw [splitSingleLine_package hp.last hc hshape]
  dsimp only
  constructor
  · intro h
    rw [(closeLike_key hp.commentFree).mpr h]
    rfl
  · intro h
    have hcl : closeLike (pkg ++ '=' :: cpus) = false := by
      rw [Bool.eq_false_iff, Ne, closeLike_key hp.commentFree]
      exact h
    rw [hcl]
    simp only [Bool.not_false, Bool.and_false, Bool.false_eq_true, if_false, parseHeader,
      ruleLine_splitLast hc, trim_of_solid hp.head hp.last, trim_of_solid hc.head hc.last,
      List.isEmpty_iff, hc.ne]

/-! ## The opening line -/

/-- The name reads as `pkg{thread}` when an `=` follows. -/
def SinglePair (s : Str) : Prop :=
  ∃ a b, s = a ++ '{' :: b ++ ['}'] ∧ '{' ∉ a ∧ a ≠ [] ∧ ¬ Blank b

theorem splitSingleLine_header (hh : HeadSolid s) (hl : LastSolid s) :
    (SinglePair s → ∃ a b, splitSingleLine (s ++ ['=']) = some (a, b, [])) ∧
    (¬ SinglePair s → splitSingleLine (s ++ ['=']) = none) := by
  have hsplit : splitLast '=' (s ++ ['=']) = some (s, []) := splitLast_eq_some.mpr ⟨rfl, by simp⟩
  unfold splitSingleLine
  rw [hsplit]
  dsimp only
  rw [trimEnd_eq_self.mpr hl]
  constructor
  · -- neither part is blank, so both tests of the source pass
    rintro ⟨a, b, rfl, ha, hne, hb⟩
    have hsuf : stripSuffix '}' (a ++ '{' :: b ++ ['}']) = some (a ++ '{' :: b) :=
      stripSuffix_eq_some.mpr rfl
    have hfirst : splitFirst '{' (trimEnd (a ++ '{' :: b)) = some (a, trimEnd b) :=
      splitFirst_eq_some.mpr ⟨trimEnd_append_cons (by decide) _ _, ha⟩
    have ha' : trim a ≠ [] := by
      rw [Ne, trim_eq_nil]
      intro hblank
      obtain ⟨c, a', rfl⟩ := List.exists_cons_of_ne_nil hne
      have hw := hblank c (by simp)
      rw [hh c rfl] at hw
      cases hw
    have hb' : trim (trimEnd b) ≠ [] := by rwa [trim_trimEnd, Ne, trim_eq_nil]
    rw [hsuf]
    dsimp only
    rw [hfirst]
    simp [ha', hb']
  · intro hpair
    cases hsuf : stripSuffix '}' s with
    | none => rfl
    | some left =>
      have hs : s = left ++ ['}'] := stripSuffix_eq_some.mp hsuf
      cases hfirst : splitFirst '{' (trimEnd left) with
      | none => simp [hfirst]
      | some p =>
        obtain ⟨a, b⟩ := p
        obtain ⟨he, ha⟩ := splitFirst_eq_some.mp hfirst
        obtain ⟨w, hw, hleft⟩ := trimEnd_decomp left
        rw [he, List.append_assoc, List.cons_append] at hleft
        have hblank : (trim a).isEmpty || (trim b).isEmpty := by
          by_contra hn
          simp only [Bool.or_eq_true, List.isEmpty_iff, not_or] at hn
          refine hpair ⟨a, b ++ w, by rw [hs, hleft], ha, ?_, ?_⟩
          · rintro rfl
            exact hn.1 rfl
          · intro hb
            exact hn.2 (trim_eq_nil.mpr fun c hc => hb c (by simp [hc]))
        simp only [hfirst, hblank, if_true]

theorem bareOpenLine_commentFree {max : Nat} (hp : Name max pkg) : CommentFree (bareOpenLine pkg) := by
  unfold bareOpenLine
  split
  · exact hp.commentFree.append_cons (commentFree_of_plain (by simp)) (by decide) (by decide)
  · exact hp.commentFree.append_cons (commentFree_of_plain (by simp)) (by decide) (by decide)

theorem bareOpenLine_trim {max : Nat} (hp : Name max pkg) : trim (bareOpenLine pkg) = bareOpenLine pkg := by
  have hl : LastSolid ['{'] := by simp [LastSolid, isWhitespace]
  unfold bareOpenLine
  split
  · have := hl.append (by simp) (pkg ++ ['=', ' '])
    exact trim_of_solid (hp.head.append hp.ne _) (by simpa using this)
  · have := hl.append (by simp) (pkg ++ [' '])
    exact trim_of_solid (hp.head.append hp.ne _) (by simpa using this)

/-- A bare header is read as one. -/
theorem outerBody_bareOpenLine {max : Nat} (hp : Name max pkg) :
    outerBody (bareOpenLine pkg) = (true, if '=' ∈ pkg then pkg ++ ['='] else pkg) := by
  have hblank : Blank [' '] := by
    intro c hc
    rw [List.mem_singleton.mp hc]
    decide
  rw [outerBody, (bareOpenLine_commentFree hp).stripComment]
  by_cases he : '=' ∈ pkg
  · have hline : bareOpenLine pkg = pkg ++ ['='] ++ [' '] ++ ['{'] := by simp [bareOpenLine, he]
    rw [stripSuffix_eq_some.mpr hline, if_pos he]
    dsimp only
    rw [trimEnd_append hblank, trimEnd_append_cons (by decide)]
    rfl
  · have hline : bareOpenLine pkg = pkg ++ [' '] ++ ['{'] := by simp [bareOpenLine, he]
    rw [stripSuffix_eq_some.mpr hline, if_neg he]
    dsimp only
    rw [trimEnd_append hblank, trimEnd_eq_self.mpr hp.last]

/-- **The opening line** outside a block opens the package's block, unless the name reads as a package and
    a thread when the escaping `=` follows. -/
theorem parseOuter_bareOpenLine {max : Nat} (hp : Name max pkg) :
    ('=' ∈ pkg ∧ SinglePair pkg → ∃ a b, parseOuter (bareOpenLine pkg) = .single a b [] true) ∧
    (¬ ('=' ∈ pkg ∧ SinglePair pkg) → parseOuter (bareOpenLine pkg) = .bareOpen pkg) := by
  unfold parseOuter
  rw [outerBody_bareOpenLine hp]
  dsimp only
  constructor
  · rintro ⟨he, hpair⟩
    obtain ⟨a, b, hab⟩ := (splitSingleLine_header hp.head hp.last).1 hpair
    rw [if_pos he, hab]
    exact ⟨a, b, rfl⟩
  · intro hn
    by_cases he : '=' ∈ pkg
    · have hpair : ¬ SinglePair pkg := fun h => hn ⟨he, h⟩
      have hsplit : splitLast '=' (pkg ++ ['=']) = some (pkg, []) :=
        splitLast_eq_some.mpr ⟨rfl, by simp⟩
      rw [if_pos he, (splitSingleLine_header hp.head hp.last).2 hpair]
      simp [parseHeader, hsplit, trim_of_solid hp.head hp.last]
    · have hsplit : splitLast '=' pkg = none := splitLast_eq_none.mpr he
      have hsingle : splitSingleLine pkg = none := by rw [splitSingleLine, hsplit]
      rw [if_neg he, hsingle]
      simp [parseHeader, hsplit]

/-! ## The rule line inside a block -/

/-- A text is no rule if nothing but blanks stands before its last `=`. -/
theorem kv_eq_none : kv s = none ↔ ∀ a b, s = a ++ '=' :: b → '=' ∉ b → Blank a := by
  unfold kv
  cases h : splitLast '=' s with
  | none =>
    simp only [true_iff]
    intro a b hs _
    exact absurd (by rw [hs]; simp) (splitLast_eq_none.mp h)
  | some p =>
    obtain ⟨k, v⟩ := p
    obtain ⟨hs, hv⟩ := splitLast_eq_some.mp h
    dsimp only
    constructor
    · intro hk a b hab hb
      have := h.symm.trans (splitLast_eq_some.mpr ⟨hab, hb⟩)
      simp only [Option.some.injEq, Prod.mk.injEq] at this
      rw [← this.1]
      refine trim_eq_nil.mp ?_
      by_contra hne
      simp [hne] at hk
    · intro hall
      have hk : trim k = [] := trim_eq_nil.mpr (hall k v hs hv)
      simp [hk]

theorem kvBeforeBrace_eq_none {pre : Str} :
    kvBeforeBrace pre s = none ↔ ∀ a b, s = a ++ '}' :: b → kv (pre ++ a) = none := by
  induction s generalizing pre with
  | nil => simp [kvBeforeBrace]
  | cons c s ih =>
    have hrest : kvBeforeBrace (pre ++ [c]) s = none ↔
        ∀ a b, s = a ++ '}' :: b → kv (pre ++ c :: a) = none := by
      rw [ih]
      simp
    unfold kvBeforeBrace
    constructor
    · intro h a b hs
      cases a with
      | nil =>
        rw [List.nil_append, List.cons.injEq] at hs
        rw [if_pos hs.1] at h
        rw [List.append_nil]
        cases hk : kv pre with
        | none => rfl
        | some r => rw [hk] at h; cases h
      | cons d a =>
        rw [List.cons_append, List.cons.injEq] at hs
        rw [← hs.1]
        refine hrest.mp ?_ a b hs.2
        split at h
        · split at h
          · cases h
          · exact h
        · exact h
    · intro h
      have htail : kvBeforeBrace (pre ++ [c]) s = none :=
        hrest.mpr fun a b hs => h (c :: a) b (by rw [hs]; rfl)
      split
      · next hc =>
        have hk : kv pre = none := by simpa using h [] s (by rw [hc]; rfl)
        rw [hk]
        exact htail
      · exact htail

/-- A closing brace of the name stands behind a key and an `=`. -/
def BraceAfterKey (s : Str) : Prop := ∃ a b, s = a ++ '=' :: b ∧ a ≠ [] ∧ '}' ∈ b

theorem kvBeforeBrace_ruleLine (hs : HeadSolid s) (ht : Unmarked t) :
    kvBeforeBrace [] (s ++ '=' :: t) = none ↔ ¬ BraceAfterKey s := by
  rw [kvBeforeBrace_eq_none]
  simp only [List.nil_append, kv_eq_none]
  constructor
  · rintro h ⟨a, b, rfl, ha, hb⟩
    obtain ⟨b₁, b₂, rfl⟩ := List.append_of_mem hb
    obtain ⟨k, v, hkv, hv⟩ : ∃ k v, a ++ '=' :: b₁ = k ++ '=' :: v ∧ '=' ∉ v := by
      cases hsp : splitLast '=' (a ++ '=' :: b₁) with
      | none => exact absurd (by simp) (splitLast_eq_none.mp hsp)
      | some p => exact ⟨p.1, p.2, splitLast_eq_some.mp hsp⟩
    have hblank : Blank k :=
      h (a ++ '=' :: b₁) (b₂ ++ '=' :: t) (by simp) k v hkv hv
    obtain ⟨c, a', rfl⟩ := List.exists_cons_of_ne_nil ha
    have hc : isWhitespace c = false := hs c rfl
    cases k with
    | nil =>
      have hmem : '=' ∈ v := by
        rw [List.cons_append, List.nil_append, List.cons.injEq] at hkv
        rw [← hkv.2]
        simp
      exact hv hmem
    | cons d k =>
      have hd : isWhitespace d = true := hblank d (by simp)
      rw [List.cons_append, List.cons_append, List.cons.injEq] at hkv
      rw [← hkv.1, hc] at hd
      cases hd
  · intro hn a b hab k v hk _
    by_contra hne
    have hkne : k ≠ [] := by
      rintro rfl
      exact hne blank_nil
    obtain ⟨b', hsb⟩ : ∃ b', s = a ++ '}' :: b' := by
      rcases List.append_eq_append_iff.mp hab with ⟨c, hc, hcb⟩ | ⟨c, hc, hcb⟩
      · exfalso
        cases c with
        | nil => simp at hcb
        | cons x c =>
          rw [List.cons_append, List.cons.injEq] at hcb
          exact ht.not_mem (c := '}') (by simp [marks]) (by rw [hcb.2]; simp)
      · cases c with
        | nil => simp at hcb
        | cons x c =>
          rw [List.cons_append, List.cons.injEq] at hcb
          exact ⟨c, by rw [hc, hcb.1]⟩
    exact hn ⟨k, v ++ '}' :: b', by rw [hsb, hk]; simp, hkne, by simp⟩

/-- **The line `thread=cpus`** inside a block: the thread's rule, unless the name begins as a close, or
    holds a brace that ends a shorter rule. -/
theorem insideRole_ruleLine {max : Nat} {topo : CpuTopology} (hs : Name max thread) (hc : Spec topo cpus) :
    (StartsClose thread → insideRole (thread ++ '=' :: cpus) = .close) ∧
    (¬ StartsClose thread → BraceAfterKey thread →
      ∃ k v, insideRole (thread ++ '=' :: cpus) = .thread k v true) ∧
    (¬ StartsClose thread → ¬ BraceAfterKey thread →
      insideRole (thread ++ '=' :: cpus) = .thread thread cpus false) := by
  unfold insideRole splitRuleLine
  rw [(ruleLine_commentFree hs hc).stripComment]
  dsimp only
  have hclose : ¬ StartsClose thread → closeLike (thread ++ '=' :: cpus) = false := fun h => by
    rw [Bool.eq_false_iff, Ne, closeLike_key hs.commentFree]
    exact h
  have hnone := kvBeforeBrace_ruleLine hs.head hc.unmarked
  refine ⟨fun h => by rw [(closeLike_key hs.commentFree).mpr h]; rfl, fun h hb => ?_, fun h hb => ?_⟩
  · rw [hclose h]
    cases hk : kvBeforeBrace [] (thread ++ '=' :: cpus) with
    | none => exact absurd hb (hnone.mp hk)
    | some r => exact ⟨r.1, r.2, by simp⟩
  · have hkv : kv (thread ++ '=' :: cpus) = some (thread, cpus) := by
      simp [kv, ruleLine_splitLast hc, trim_of_solid hs.head hs.last, trim_of_solid hc.head hc.last, hs.ne]
    rw [hclose h, hnone.mpr hb]
    simp [hkv]

end AppOptR
