import AppOptR.RuleEdit.Written

/-!
# `RuleEdit.LineCore` — the line grammar, by the core of a line

`Written` is about lines made from checked names. The editor also rewrites lines it found in the file, with
whatever blanks and comments they have. What the grammar makes of a line is decided by its *core*, the line
without the blanks around it and without its comment (`core_written`, `core_decomp`). A core with an `=` is
a pair of key and value, read by `parsePair` outside a block and by `splitCore` inside; a core without one
is a header or an opening line.
-/

namespace AppOptR

open Text

variable {s t cpus pkg : Str}

/-! ## Comments -/

/-- A comment mark: `#` or `//`. -/
def Mark (m : Str) : Prop := ∃ r, m = '#' :: r ∨ m = '/' :: '/' :: r

/-- A trailing comment with the blanks before it. -/
def CommentTail (t : Str) : Prop := ∃ w m, t = w ++ m ∧ w ≠ [] ∧ Blank w ∧ Mark m

/-- What the comment cut takes off a line. -/
def commentTail (s : Str) : Str := s.drop ((commentAt s).getD s.length)

theorem stripComment_append_commentTail (s : Str) : stripComment s ++ commentTail s = s :=
  List.take_append_drop _ _

theorem withComment_eq (new old : Str) : withComment new old = new ++ commentTail old := by
  unfold withComment commentTail
  cases commentAt old with
  | none => simp
  | some i => rfl

/-- Where the cut finds a mark: at the mark at hand, or further on. -/
theorem commentFind_cons (b : Bool) (c : Char) (s : Str) :
    commentFind b (c :: s)
      = if b && (c == '#' || (c == '/' && s.head? == some '/')) then some 0
        else (commentFind (isWhitespace c) s).map (· + 1) := rfl

/-- No mark in a text, none in its beginning. -/
theorem commentFind_prefix {b : Bool} (h : commentFind b (s ++ t) = none) : commentFind b s = none := by
  induction s generalizing b with
  | nil => rfl
  | cons c s ih =>
    rw [List.cons_append, commentFind_cons] at h
    rw [commentFind_cons]
    split at h
    · cases h
    · next hcond =>
      have hrest : commentFind (isWhitespace c) (s ++ t) = none := by simpa using h
      rw [if_neg, ih hrest]
      · rfl
      · intro hm
        refine hcond ?_
        rw [Bool.and_eq_true] at hm ⊢
        refine ⟨hm.1, ?_⟩
        cases s with
        | nil =>
          have hc : c = '#' := by simpa using hm.2
          simp [hc]
        | cons d s => exact hm.2

/-- Text without mark characters adds no mark. -/
theorem commentFind_append_plain {b : Bool} (h : commentFind b s = none)
    (ht : ∀ c ∈ t, c ≠ '#' ∧ c ≠ '/') : commentFind b (s ++ t) = none := by
  induction s generalizing b with
  | nil => exact commentFind_commentFree (commentFree_of_plain ht) b
  | cons c s ih =>
    rw [commentFind_cons] at h
    rw [List.cons_append, commentFind_cons]
    split at h
    · cases h
    · next hcond =>
      have hrest : commentFind (isWhitespace c) s = none := by simpa using h
      rw [if_neg, ih hrest]
      · rfl
      · intro hm
        refine hcond ?_
        rw [Bool.and_eq_true] at hm ⊢
        refine ⟨hm.1, ?_⟩
        cases s with
        | nil =>
          have hslash : t.head? ≠ some '/' := fun ht' => (ht _ (List.mem_of_head? ht')).2 rfl
          simpa [hslash] using hm.2
        | cons d s => exact hm.2

theorem blank_not_mark {w : Str} (hw : Blank w) : ∀ c ∈ w, c ≠ '#' ∧ c ≠ '/' := by
  intro c hc
  have := hw c hc
  constructor <;> rintro rfl <;> revert this <;> decide

/-- The mark of a comment that follows a text without one. -/
theorem commentFind_comment {b : Bool} {w m : Str} (h : commentFind b s = none) (hne : w ≠ []) (hw : Blank w)
    (hm : Mark m) : commentFind b (s ++ (w ++ m)) = some (s.length + w.length) := by
  induction s generalizing b with
  | nil =>
    -- the blanks: the mark comes right behind the last one
    have hblank : ∀ (w : Str) (b : Bool), Blank w → (w = [] → b = true) →
        commentFind b (w ++ m) = some w.length := by
      intro w
      induction w with
      | nil =>
        intro b _ hb
        obtain ⟨r, rfl | rfl⟩ := hm <;> simp [commentFind, hb rfl]
      | cons c w ih =>
        intro b hw _
        have hc : isWhitespace c = true := hw c (by simp)
        have hmark := blank_not_mark hw c (by simp)
        rw [List.cons_append, commentFind_cons, if_neg (by simp [hmark.1, hmark.2]), hc,
          ih true (fun d hd => hw d (by simp [hd])) fun _ => rfl]
        rfl
    rw [List.nil_append, hblank w b hw fun hn => absurd hn hne]
    simp
  | cons c s ih =>
    rw [commentFind_cons] at h
    rw [List.cons_append, commentFind_cons]
    split at h
    · cases h
    · next hcond =>
      have hrest : commentFind (isWhitespace c) s = none := by simpa using h
      rw [if_neg, ih hrest, List.length_cons, Option.map_some, Nat.add_right_comm]
      intro hm'
      refine hcond ?_
      rw [Bool.and_eq_true] at hm' ⊢
      refine ⟨hm'.1, ?_⟩
      cases s with
      | nil =>
        obtain ⟨x, w', rfl⟩ := List.exists_cons_of_ne_nil hne
        have hx := (blank_not_mark hw x (by simp)).2
        simpa [hx] using hm'.2
      | cons d s => exact hm'.2

/-- The text before the mark, and the mark. -/
theorem commentFind_eq_some {b : Bool} {i : Nat} (h : commentFind b s = some i) :
    ∃ pre m, s = pre ++ m ∧ pre.length = i ∧ Mark m ∧ commentFind b pre = none ∧
      (pre = [] → b = true) ∧ ∀ c, pre.getLast? = some c → isWhitespace c = true := by
  induction s generalizing b i with
  | nil => cases h
  | cons c s ih =>
    rw [commentFind_cons] at h
    split at h
    · next hcond =>
      rw [Option.some.injEq] at h
      refine ⟨[], c :: s, rfl, h, ?_, rfl, fun _ => (Bool.and_eq_true _ _ ▸ hcond).1, by simp⟩
      simp only [Bool.and_eq_true, Bool.or_eq_true, beq_iff_eq] at hcond
      rcases hcond.2 with rfl | ⟨rfl, hs⟩
      · exact ⟨s, .inl rfl⟩
      · obtain ⟨s', rfl⟩ := List.head?_eq_some_iff.mp hs
        exact ⟨s', .inr rfl⟩
    · next hcond =>
      obtain ⟨j, hj, rfl⟩ := Option.map_eq_some_iff.mp h
      obtain ⟨pre, m, rfl, rfl, hm, hnone, hempty, hlast⟩ := ih hj
      refine ⟨c :: pre, m, rfl, rfl, hm, ?_, by simp, ?_⟩
      · -- one character more before the mark makes no earlier mark
        rw [commentFind_cons, if_neg, hnone]
        · rfl
        · intro hm'
          refine hcond ?_
          rw [Bool.and_eq_true] at hm' ⊢
          refine ⟨hm'.1, ?_⟩
          cases pre with
          | nil =>
            have hc : c = '#' := by simpa using hm'.2
            simp [hc]
          | cons d pre => exact hm'.2
      · intro d hd
        cases pre with
        | nil =>
          rw [List.getLast?_singleton, Option.some.injEq] at hd
          rw [← hd]
          exact hempty rfl
        | cons e pre => exact hlast d (by rwa [List.getLast?_cons_cons] at hd)

/-- **The comment cut.** Either there is no comment, or the line is a text that does not end in a blank and
    a comment tail; the text has no comment of its own. -/
theorem stripComment_cases (s : Str) :
    (stripComment s = s ∧ commentTail s = [] ∧ commentFind false s = none) ∨
      (CommentTail (commentTail s) ∧ LastSolid (stripComment s) ∧
        commentFind false (stripComment s) = none) := by
  cases h : commentFind false s with
  | none =>
    left
    have hat : commentAt s = none := by rw [commentAt, h]; rfl
    refine ⟨?_, ?_, rfl⟩
    · rw [stripComment, hat]
      exact List.take_length
    · rw [commentTail, hat]
      exact List.drop_length
  | some i =>
    right
    obtain ⟨pre, m, rfl, rfl, hm, hnone, hempty, hlast⟩ := commentFind_eq_some h
    obtain ⟨w, hw, hpre⟩ := trimEnd_decomp pre
    have hat : commentAt (pre ++ m) = some (trimEnd pre).length := by
      rw [commentAt, h, Option.map_some, List.take_left' rfl]
    have hsplit : pre ++ m = trimEnd pre ++ (w ++ m) := by
      rw [← List.append_assoc, ← hpre]
    have hstrip : stripComment (pre ++ m) = trimEnd pre := by
      rw [stripComment, hat, Option.getD_some, hsplit, List.take_left' rfl]
    have htail : commentTail (pre ++ m) = w ++ m := by
      rw [commentTail, hat, Option.getD_some, hsplit, List.drop_left' rfl]
    rw [hstrip, htail]
    refine ⟨⟨w, m, rfl, ?_, hw, hm⟩, lastSolid_trimEnd pre, ?_⟩
    · -- a mark counts only behind a blank
      rintro rfl
      rw [List.append_nil] at hpre
      cases hl : pre.getLast? with
      | none => exact absurd (hempty (List.getLast?_eq_none_iff.mp hl)) (by simp)
      | some c =>
        have hc := hlast c hl
        rw [hpre] at hl
        rw [lastSolid_trimEnd pre c hl] at hc
        cases hc
    · rw [hpre] at hnone
      exact commentFind_prefix hnone

theorem commentFind_stripComment (s : Str) : commentFind false (stripComment s) = none := by
  rcases stripComment_cases s with ⟨hs, _, hn⟩ | ⟨_, _, hn⟩
  · rwa [hs]
  · exact hn

theorem commentTail_cases (s : Str) : commentTail s = [] ∨ CommentTail (commentTail s) := by
  rcases stripComment_cases s with ⟨_, h, _⟩ | ⟨h, _, _⟩
  · exact .inl h
  · exact .inr h

/-- A text without a comment, with a comment behind it. -/
theorem stripComment_append (hs : commentFind false s = none) (ht : t = [] ∨ CommentTail t) :
    stripComment (s ++ t) = if t = [] then s else trimEnd s := by
  rcases ht with rfl | ⟨w, m, rfl, hne, hw, hm⟩
  · have hat : commentAt s = none := by rw [commentAt, hs]; rfl
    rw [if_pos rfl, List.append_nil, stripComment, hat]
    exact List.take_length
  · have hat : commentAt (s ++ (w ++ m)) = some (trimEnd s).length := by
      rw [commentAt, commentFind_comment hs hne hw hm, Option.map_some, ← List.append_assoc,
        List.take_left' (by simp), trimEnd_append hw]
    obtain ⟨v, _, hv⟩ := trimEnd_decomp s
    have hsplit : s ++ (w ++ m) = trimEnd s ++ (v ++ (w ++ m)) := by
      rw [← List.append_assoc (trimEnd s), ← hv]
    rw [if_neg (by simp [hne]), stripComment, hat, Option.getD_some, hsplit, List.take_left' rfl]

/-- A part of a text without a comment has none. -/
theorem commentFind_suffix {b : Bool} {w : Str} (h : commentFind b (w ++ s) = none) :
    commentFind false s = none := by
  induction w generalizing b with
  | nil =>
    cases b with
    | false => exact h
    | true =>
      cases s with
      | nil => rfl
      | cons c s =>
        rw [List.nil_append, commentFind_cons] at h
        split at h
        · cases h
        · rw [commentFind_cons]
          simpa using h
  | cons c w ih =>
    rw [List.cons_append, commentFind_cons] at h
    split at h
    · cases h
    · exact ih (b := isWhitespace c) (by simpa using h)

theorem commentFind_trimEnd {b : Bool} (h : commentFind b s = none) : commentFind b (trimEnd s) = none := by
  obtain ⟨w, _, hs⟩ := trimEnd_decomp s
  rw [hs] at h
  exact commentFind_prefix h

/-- Two texts without comments, joined by a sign that is neither blank nor a mark. -/
theorem commentFind_pair {b : Bool} {x : Char} (hs : commentFind b s = none) (ht : commentFind false t = none)
    (hx : isWhitespace x = false) (hmark : x ≠ '#' ∧ x ≠ '/') : commentFind b (s ++ x :: t) = none := by
  induction s generalizing b with
  | nil =>
    rw [List.nil_append, commentFind_cons, if_neg (by simp [hmark.1, hmark.2]), hx, ht]
    rfl
  | cons c s ih =>
    rw [commentFind_cons] at hs
    rw [List.cons_append, commentFind_cons]
    split at hs
    · cases hs
    · next hcond =>
      have hrest : commentFind (isWhitespace c) s = none := by simpa using hs
      rw [if_neg, ih hrest]
      · rfl
      · intro hm
        refine hcond ?_
        rw [Bool.and_eq_true] at hm ⊢
        refine ⟨hm.1, ?_⟩
        cases s with
        | nil =>
          have hc : c = '#' := by simpa [hmark.2] using hm.2
          simp [hc]
        | cons d s => exact hm.2

/-! ## The core of a line -/

/-- What the grammar reads of a line: no blanks around it, no comment. -/
def core (l : Str) : Str := stripComment (trim l)

theorem CommentTail.head {t : Str} (h : CommentTail t) : ∃ x r, t = x :: r ∧ isWhitespace x = true := by
  obtain ⟨w, m, rfl, hne, hw, _⟩ := h
  obtain ⟨x, w, rfl⟩ := List.exists_cons_of_ne_nil hne
  exact ⟨x, w ++ m, rfl, hw x (by simp)⟩

/-- A comment tail, its last blanks aside, is one. -/
theorem CommentTail.trimEnd {t : Str} (h : CommentTail t) :
    CommentTail (trimEnd t) ∧ ∀ s, trimEnd (s ++ t) = s ++ trimEnd t := by
  obtain ⟨w, m, rfl, hne, hw, r, hm⟩ := h
  -- the sign after which only blanks can go
  obtain ⟨p, x, r', hmr, hx, hmark⟩ : ∃ p x r', m = p ++ x :: r' ∧ isWhitespace x = false ∧
      ∀ r'', Mark (p ++ x :: r'') := by
    rcases hm with rfl | rfl
    · exact ⟨[], '#', r, rfl, by decide, fun r'' => ⟨r'', .inl rfl⟩⟩
    · exact ⟨['/'], '/', r, rfl, by decide, fun r'' => ⟨r'', .inr rfl⟩⟩
  subst hmr
  have hend : ∀ s, Text.trimEnd (s ++ (w ++ (p ++ x :: r'))) = s ++ (w ++ (p ++ x :: Text.trimEnd r')) := by
    intro s
    have := trimEnd_append_cons hx (s ++ (w ++ p)) r'
    simpa using this
  have hnil := hend []
  rw [List.nil_append, List.nil_append] at hnil
  rw [hnil]
  exact ⟨⟨w, _, rfl, hne, hw, hmark _⟩, hend⟩

theorem skipped_append (hne : s ≠ []) {x : Char} {r : Str} (hx : x ≠ '/') :
    skipped (s ++ x :: r) = skipped s := by
  match s with
  | [] => exact absurd rfl hne
  | [c] => simp [skipped, List.isPrefixOf, hx.symm]
  | c :: d :: s => simp [skipped, List.isPrefixOf]

theorem closeLike_append (hne : s ≠ []) {x : Char} {r : Str} (hx : isWhitespace x = true) :
    closeLike (s ++ x :: r) = closeLike s := by
  have hslash : x ≠ '/' := fun h => by rw [h] at hx; revert hx; decide
  match s with
  | [] => exact absurd rfl hne
  | [c] =>
    by_cases hc : c = '}'
    · subst hc
      simp [closeLike, hx]
    · simp [closeLike, hc]
  | [c, d] =>
    by_cases hc : c = '}'
    · subst hc
      simp [closeLike, List.isPrefixOf, hslash.symm]
    · simp [closeLike, hc]
  | c :: d :: e :: s =>
    by_cases hc : c = '}'
    · subst hc
      simp [closeLike, List.isPrefixOf]
    · simp [closeLike, hc]

theorem blank_append_mark {w : Str} (hw : Blank w) {t : Str} (ht : t = [] ∨ CommentTail t) :
    skipped (trim (w ++ t)) = true := by
  rw [trim_blank_append hw]
  rcases ht with rfl | ⟨v, m, rfl, _, hv, r, hm⟩
  · rfl
  · rw [trim_blank_append hv]
    rcases hm with rfl | rfl
    · rw [HeadSolid.trim_eq (by simp [HeadSolid, isWhitespace])]
      have := trimEnd_append_cons (x := '#') (by decide) [] r
      rw [List.nil_append, List.nil_append] at this
      rw [this]
      rfl
    · rw [HeadSolid.trim_eq (by simp [HeadSolid, isWhitespace])]
      have := trimEnd_append_cons (x := '/') (by decide) ['/'] r
      rw [List.cons_append, List.nil_append, List.cons_append, List.nil_append] at this
      rw [this]
      simp [skipped]

/-- **The core of a written line**: blanks, a text without a comment, a comment. -/
theorem core_written {w x t : Str} (hw : Blank w) (hx : HeadSolid x) (hne : x ≠ [])
    (hc : commentFind false x = none) (ht : t = [] ∨ CommentTail t) : core (w ++ (x ++ t)) = trimEnd x := by
  rw [core, trim_blank_append hw, (hx.append hne t).trim_eq]
  rcases ht with rfl | ht
  · rw [List.append_nil]
    have := stripComment_append (commentFind_trimEnd hc) (t := []) (.inl rfl)
    rwa [List.append_nil, if_pos rfl] at this
  · have htail := ht.trimEnd
    have hnil : trimEnd t ≠ [] := by
      obtain ⟨y, r, hy, _⟩ := htail.1.head
      rw [hy]
      simp
    rw [htail.2, stripComment_append hc (.inr htail.1), if_neg hnil]

/-- **The parts of a line** that is neither blank nor a comment: blanks, the text the core is of, and the
    comment. -/
theorem core_decomp {l : Str} (h : skipped (trim l) = false) :
    ∃ w x, stripComment l = w ++ x ∧ Blank w ∧ HeadSolid x ∧ x ≠ [] ∧ commentFind false x = none ∧
      core l = trimEnd x := by
  obtain ⟨w, hw, hs⟩ := trimStart_decomp (stripComment l)
  have htail := commentTail_cases l
  have hl : l = w ++ (trimStart (stripComment l) ++ commentTail l) := by
    rw [← List.append_assoc, ← hs, stripComment_append_commentTail]
  have hne : trimStart (stripComment l) ≠ [] := by
    intro hnil
    rw [hl, hnil, List.nil_append, blank_append_mark hw htail] at h
    cases h
  have hx : commentFind false (trimStart (stripComment l)) = none := by
    have := commentFind_stripComment l
    rw [hs] at this
    exact commentFind_suffix this
  have hsolid := headSolid_trimStart (stripComment l)
  refine ⟨w, _, hs, hw, hsolid, hne, hx, ?_⟩
  have := core_written hw hsolid hne hx htail
  rwa [← hl] at this

theorem core_ne_nil {l : Str} (hne : trim l ≠ []) : core l ≠ [] := by
  intro hn
  have hsplit := stripComment_append_commentTail (trim l)
  rw [core] at hn
  rw [hn, List.nil_append] at hsplit
  rcases commentTail_cases (trim l) with ht | ht
  · exact hne (hsplit ▸ ht)
  · obtain ⟨x, r, hx, hw⟩ := ht.head
    rw [hx] at hsplit
    have := headSolid_trim l x (by rw [← hsplit]; rfl)
    rw [hw] at this
    cases this

/-- The line, its blanks aside, is its core and a comment. -/
theorem trim_eq_core (l : Str) : ∃ t, (t = [] ∨ CommentTail t) ∧ trim l = core l ++ t :=
  ⟨_, commentTail_cases _, (stripComment_append_commentTail (trim l)).symm⟩

theorem headSolid_core (l : Str) : HeadSolid (core l) := by
  obtain ⟨t, _, ht⟩ := trim_eq_core l
  exact HeadSolid.of_append (b := t) (ht ▸ headSolid_trim l)

theorem lastSolid_core (l : Str) : LastSolid (core l) := by
  rcases stripComment_cases (trim l) with ⟨hs, _, _⟩ | ⟨_, hs, _⟩
  · rw [core, hs]
    exact lastSolid_trim l
  · exact hs

theorem commentFind_core (l : Str) : commentFind false (core l) = none := commentFind_stripComment _

/-- Blank and comment lines are known by their core. -/
theorem skipped_core (l : Str) : skipped (trim l) = skipped (core l) := by
  by_cases hne : trim l = []
  · rw [core, hne]
    rfl
  · obtain ⟨t, ht, htrim⟩ := trim_eq_core l
    rw [htrim]
    rcases ht with rfl | ht
    · rw [List.append_nil]
    · obtain ⟨x, r, rfl, hw⟩ := ht.head
      exact skipped_append (core_ne_nil hne) fun hx => by rw [hx] at hw; revert hw; decide

theorem closeLike_core (l : Str) : closeLike (trim l) = closeLike (core l) := by
  by_cases hne : trim l = []
  · rw [core, hne]
    rfl
  · obtain ⟨t, ht, htrim⟩ := trim_eq_core l
    rw [htrim]
    rcases ht with rfl | ht
    · rw [List.append_nil]
    · obtain ⟨x, r, rfl, hw⟩ := ht.head
      exact closeLike_append (core_ne_nil hne) hw

/-! ## Reading a core outside a block -/

/-- The key part of `split_single_line`. -/
def singleKey (l : Str) : Option (Str × Str) :=
  (stripSuffix '}' (trimEnd l)).bind fun left =>
    (splitFirst '{' (trimEnd left)).bind fun k =>
      if (trim k.1).isEmpty || (trim k.2).isEmpty then none else some (trim k.1, trim k.2)

theorem splitSingleLine_eq (body : Str) :
    splitSingleLine body = (splitLast '=' body).bind fun lr =>
      (singleKey lr.1).map fun k => (k.1, k.2, trim lr.2) := by
  unfold splitSingleLine singleKey
  cases splitLast '=' body with
  | none => rfl
  | some lr =>
    dsimp only [Option.bind_some]
    cases stripSuffix '}' (trimEnd lr.1) with
    | none => rfl
    | some left =>
      dsimp only [Option.bind_some]
      cases splitFirst '{' (trimEnd left) with
      | none => rfl
      | some k =>
        dsimp only [Option.bind_some]
        split <;> rfl

/-- `parse_outer` behind the comment cut. -/
def parseCore (c : Str) : OuterLine :=
  let (opens, body) := match stripSuffix '{' c with
    | some b => (true, trimEnd b)
    | none => (false, c)
  match splitSingleLine body with
  | some (pkg, thread, cpus) => .single pkg thread cpus opens
  | none => if !opens && closeLike body then .junk else parseHeader opens body

theorem parseOuter_core (l : Str) : parseOuter (trim l) = parseCore (core l) := rfl

/-- The value ends in the brace that opens a block. -/
def valueOpens (v : Str) : Bool := v.getLast? = some '{'

/-- The value without that brace. -/
def valueText (v : Str) : Str := trim (if valueOpens v then v.dropLast else v)

/-- What `parse_outer` makes of a line `l=v`. -/
def parsePair (l v : Str) : OuterLine :=
  match singleKey l with
  | some k => .single k.1 k.2 (valueText v) (valueOpens v)
  | none =>
    if !valueOpens v && closeLike (l ++ ['=']) then .junk
    else if (valueText v).isEmpty then
      if valueOpens v then .bareOpen (trim l) else .pending (trim l)
    else .rule (trim l) (valueText v) (valueOpens v)

theorem closeLike_pair (l v : Str) : closeLike (l ++ '=' :: v) = closeLike (l ++ ['=']) := by
  match l with
  | [] => simp [closeLike]
  | [c] =>
    by_cases hc : c = '}'
    · subst hc
      simp [closeLike, isWhitespace, List.isPrefixOf]
    · simp [closeLike, hc]
  | [c, d] =>
    by_cases hc : c = '}'
    · subst hc
      simp [closeLike, List.isPrefixOf]
    · simp [closeLike, hc]
  | c :: d :: e :: l =>
    by_cases hc : c = '}'
    · subst hc
      simp [closeLike, List.isPrefixOf]
    · simp [closeLike, hc]

theorem skipped_pair (l v v' : Str) : skipped (l ++ '=' :: v) = skipped (l ++ '=' :: v') := by
  by_cases hl : l = []
  · subst hl
    simp [skipped, List.isPrefixOf]
  · rw [skipped_append hl (by decide), skipped_append hl (by decide)]

theorem stripSuffix_pair {l v : Str} :
    stripSuffix '{' (l ++ '=' :: v)
      = if valueOpens v then some (l ++ '=' :: v.dropLast) else none := by
  by_cases h : valueOpens v = true
  · have hv : v.getLast? = some '{' := by simpa [valueOpens] using h
    rw [if_pos h, stripSuffix_eq_some]
    obtain ⟨r, rfl⟩ := List.getLast?_eq_some_iff.mp hv
    simp
  · have hv : v.getLast? ≠ some '{' := by simpa [valueOpens] using h
    rw [if_neg h, stripSuffix_eq_none, List.getLast?_append_of_ne_nil _ (by simp)]
    cases v with
    | nil => simp
    | cons c v => rwa [List.getLast?_cons_cons]

/-- **A core with an `=`.** -/
theorem parseCore_pair {l v : Str} (hv : '=' ∉ v) :
    parseCore (l ++ '=' :: v) = parsePair l v := by
  -- the body is `l=` and the value up to the opening brace
  have hbody : ∀ v', '=' ∉ v' → splitLast '=' (l ++ '=' :: v') = some (l, v') := fun v' hv' =>
    splitLast_eq_some.mpr ⟨rfl, hv'⟩
  unfold parseCore parsePair valueText
  rw [stripSuffix_pair]
  by_cases ho : valueOpens v = true
  · have hdrop : '=' ∉ trimEnd v.dropLast := fun hm => by
      obtain ⟨w, _, hw⟩ := trimEnd_decomp v.dropLast
      exact hv (List.dropLast_subset v (by rw [hw]; simp [hm]))
    simp only [ho, if_true, trimEnd_append_cons (x := '=') (by decide), splitSingleLine_eq, hbody _ hdrop,
      Option.bind_some]
    cases hk : singleKey l with
    | some k => simp only [Option.map_some, trim_trimEnd]
    | none =>
      simp only [Option.map_none, parseHeader, hbody _ hdrop, trim_trimEnd, Bool.not_true, Bool.false_and,
        Bool.false_eq_true, if_false, if_true]
  · simp only [ho, Bool.false_eq_true, if_false, splitSingleLine_eq, hbody _ hv, Option.bind_some]
    cases hk : singleKey l with
    | some k => simp only [Option.map_some]
    | none =>
      simp only [Option.map_none, parseHeader, hbody _ hv, closeLike_pair l v, Bool.false_eq_true, if_false]

/-- **A core without an `=`.** -/
theorem parseCore_plain {c : Str} (hc : '=' ∉ c) :
    parseCore c = if valueOpens c then .bareOpen (trimEnd c.dropLast)
      else if closeLike c then .junk else .pending c := by
  unfold parseCore
  by_cases ho : valueOpens c = true
  · have hl : c.getLast? = some '{' := by simpa [valueOpens] using ho
    obtain ⟨r, rfl⟩ := List.getLast?_eq_some_iff.mp hl
    have hr : '=' ∉ trimEnd r := fun hm => by
      obtain ⟨w, _, hw⟩ := trimEnd_decomp r
      exact hc (by rw [hw]; simp [hm])
    have hsplit : splitLast '=' (trimEnd r) = none := splitLast_eq_none.mpr hr
    rw [stripSuffix_eq_some.mpr rfl]
    simp only [splitSingleLine_eq, hsplit, Option.bind_none, Bool.not_true, Bool.false_and,
      Bool.false_eq_true, if_false, parseHeader, if_true, ho, List.dropLast_concat]
  · have hl : c.getLast? ≠ some '{' := by simpa [valueOpens] using ho
    have hsplit : splitLast '=' c = none := splitLast_eq_none.mpr hc
    rw [stripSuffix_eq_none.mpr hl]
    simp only [splitSingleLine_eq, hsplit, Option.bind_none, Bool.not_false, Bool.true_and, parseHeader,
      Bool.false_eq_true, if_false, ho]

/-- The spec of a rule line. -/
def OuterLine.spec : OuterLine → Option Str
  | .rule _ cpus _ | .single _ _ cpus _ => some cpus
  | _ => none

/-- A text with an `=`, cut at the last one. -/
theorem eq_pair {c : Str} (h : '=' ∈ c) : ∃ l v, c = l ++ '=' :: v ∧ '=' ∉ v := by
  cases hs : splitLast '=' c with
  | none => exact absurd h (splitLast_eq_none.mp hs)
  | some p => exact ⟨p.1, p.2, splitLast_eq_some.mp hs⟩

/-- **A core that states a rule** is a pair. -/
theorem parseCore_spec {c c₀ : Str} (h : (parseCore c).spec = some c₀) :
    ∃ l v, c = l ++ '=' :: v ∧ '=' ∉ v ∧ parseCore c = parsePair l v := by
  have heq : '=' ∈ c := by
    by_contra hn
    rw [parseCore_plain hn] at h
    split at h
    · cases h
    · split at h <;> cases h
  obtain ⟨l, v, rfl, hv⟩ := eq_pair heq
  exact ⟨l, v, rfl, hv, parseCore_pair hv⟩

theorem not_mem_trimEnd {x : Char} (h : x ∉ s) : x ∉ trimEnd s := fun hm => by
  obtain ⟨w, _, hw⟩ := trimEnd_decomp s
  exact h (by rw [hw]; simp [hm])

theorem trim_subset (s : Str) : trim s ⊆ s := by
  obtain ⟨w, w', _, _, hs⟩ := trim_decomp s
  intro c hc
  rw [hs]
  simp [hc]

/-! ## Inside a block -/

/-- `split_rule_line` behind the comment cut. -/
def splitCore (c : Str) : Option (Str × Str × Bool) :=
  match kvBeforeBrace [] c with
  | some (k, v) => some (k, v, true)
  | none => (kv c).map fun (k, v) => (k, v, false)

theorem splitRuleLine_core (l : Str) : splitRuleLine (trim l) = splitCore (core l) := rfl

theorem insideRole_thread {l k v : Str} {closed : Bool} :
    insideRole (trim l) = .thread k v closed
      ↔ closeLike (core l) = false ∧ splitCore (core l) = some (k, v, closed) := by
  unfold insideRole
  rw [closeLike_core, splitRuleLine_core]
  by_cases hcl : closeLike (core l) = true
  · simp [hcl]
  · rw [if_neg hcl]
    cases hs : splitCore (core l) with
    | none =>
      dsimp only
      split <;> simp
    | some r =>
      obtain ⟨k', v', c'⟩ := r
      simp only [Role.thread.injEq, Bool.eq_false_iff.mpr hcl, Option.some.injEq, Prod.mk.injEq, true_and]

theorem kv_pair {l v : Str} (hv : '=' ∉ v) :
    kv (l ++ '=' :: v) = if (trim l).isEmpty then none else some (trim l, trim v) := by
  unfold kv
  rw [splitLast_eq_some.mpr ⟨rfl, hv⟩]

theorem kvBeforeBrace_append (pre s t : Str) :
    kvBeforeBrace pre (s ++ t) = (kvBeforeBrace pre s).or (kvBeforeBrace (pre ++ s) t) := by
  induction s generalizing pre with
  | nil => simp [kvBeforeBrace]
  | cons c s ih =>
    rw [List.cons_append, kvBeforeBrace, kvBeforeBrace, ih, List.append_assoc, List.singleton_append]
    split
    · split <;> rfl
    · rfl

/-- The value of a pair ends at its first `}`. -/
theorem kvBeforeBrace_value {l u v : Str} (hu : '=' ∉ u) (hv : '=' ∉ v) :
    kvBeforeBrace (l ++ '=' :: u) v = if (trim l).isEmpty then none
      else (splitFirst '}' v).map fun p => (trim l, trim (u ++ p.1)) := by
  induction v generalizing u with
  | nil => simp [kvBeforeBrace, splitFirst]
  | cons c v ih =>
    have hv' : '=' ∉ v := fun hm => hv (by simp [hm])
    have hc : c ≠ '=' := fun hc => hv (by simp [hc])
    have hu' : '=' ∉ u ++ [c] := by simp [hu, hc.symm]
    have hrest := ih hu' hv'
    unfold kvBeforeBrace splitFirst
    rw [List.append_assoc, List.cons_append, hrest, kv_pair hu]
    by_cases hb : c = '}'
    · rw [if_pos hb, if_pos hb]
      by_cases hl : (trim l).isEmpty = true
      · simp [hl]
      · simp [hl]
    · rw [if_neg hb, if_neg hb]
      cases splitFirst '}' v with
      | none => rfl
      | some p => simp

/-- **A core with an `=`** inside a block, where no rule ends before the `=`. -/
theorem splitCore_pair {l v : Str} (hv : '=' ∉ v) (hb : kvBeforeBrace [] l = none) :
    splitCore (l ++ '=' :: v) = if (trim l).isEmpty then none
      else some (trim l, trim (((splitFirst '}' v).map (·.1)).getD v), (splitFirst '}' v).isSome) := by
  have hfind : kvBeforeBrace [] (l ++ '=' :: v) = if (trim l).isEmpty then none
      else (splitFirst '}' v).map fun p => (trim l, trim p.1) := by
    have := kvBeforeBrace_value (l := l) (u := []) (by simp) hv
    rw [kvBeforeBrace_append, hb, Option.none_or, List.nil_append, kvBeforeBrace, if_neg (by decide)]
    simpa using this
  unfold splitCore
  rw [hfind, kv_pair hv]
  by_cases hl : (trim l).isEmpty = true
  · simp [hl]
  · simp only [hl, Bool.false_eq_true, if_false]
    cases splitFirst '}' v with
    | none => rfl
    | some p => rfl

/-- A `}` that ends a rule stands before the last `=` of the text. -/
def ClosesEarly (c : Str) : Prop :=
  match splitLast '=' c with
  | some (l, _) => kvBeforeBrace [] l ≠ none
  | none => False

instance (c : Str) : Decidable (ClosesEarly c) := by
  unfold ClosesEarly
  split <;> infer_instance

theorem closesEarly_pair {l v : Str} (hv : '=' ∉ v) :
    ClosesEarly (l ++ '=' :: v) ↔ kvBeforeBrace [] l ≠ none := by
  unfold ClosesEarly
  rw [splitLast_eq_some.mpr ⟨rfl, hv⟩]

/-! ## Roles by the core -/

variable {waiting : Option Str} {owner thread : Str}

theorem roleOf_outside_core {l x : Str} (h : core l = x) (hs : skipped x = false) :
    roleOf (.outside waiting) l = .outer (parseCore x) := by
  rw [roleOf_outside (by rw [skipped_core, h, hs]), parseOuter_core, h]

theorem roleOf_inside_thread {l x k v : Str} {closed : Bool} (h : core l = x) (hs : skipped x = false)
    (hcl : closeLike x = false) (hsplit : splitCore x = some (k, v, closed)) :
    roleOf (.inside owner) l = .thread k v closed := by
  rw [roleOf_inside (by rw [skipped_core, h, hs]), insideRole_thread, h]
  exact ⟨hcl, hsplit⟩

theorem roleOf_inside_close {l x : Str} (h : core l = x) (hs : skipped x = false)
    (hcl : closeLike x = true) : roleOf (.inside owner) l = .close := by
  rw [roleOf_inside (by rw [skipped_core, h, hs]), insideRole, closeLike_core, h, if_pos hcl]

/-- An outer line that is read as something, by its core. -/
theorem outer_core {place : Place} {l : Str} {r : OuterLine} (h : roleOf place l = .outer r) :
    skipped (core l) = false ∧ parseCore (core l) = r := by
  by_cases hs : skipped (trim l) = true
  · rw [roleOf_skipped hs] at h
    cases h
  have hs' : skipped (trim l) = false := by simpa using hs
  cases place with
  | inside o =>
    rw [roleOf_inside hs'] at h
    exact absurd h (insideRole_ne_outer _ _)
  | outside w =>
    rw [roleOf_outside hs', Role.outer.injEq] at h
    exact ⟨skipped_core l ▸ hs', h⟩

/-! ## Keys and values as they stand in a line -/

/-- A text that the comment cut and the trims leave alone. -/
structure Solid (s : Str) : Prop where
  head : HeadSolid s
  last : LastSolid s
  plain : commentFind false s = none

/-- A package or thread name as it stands at the start of a line. -/
structure Key (s : Str) : Prop extends Solid s where
  ne : s ≠ []
  shown : skipped s = false

theorem Name.key {max : Nat} (h : Name max s) : Key s where
  head := h.head
  last := h.last
  plain := commentFind_commentFree h.commentFree _
  ne := h.ne
  shown := h.commentFree.not_skipped h.ne

theorem Spec.solid {topo : CpuTopology} (h : Spec topo cpus) : Solid cpus where
  head := h.head
  last := h.last
  plain := commentFind_commentFree h.unmarked.commentFree _

theorem Solid.trim_part {a b : Str} (h : commentFind false (a ++ (s ++ b)) = none) : Solid (trim s) where
  head := headSolid_trim s
  last := lastSolid_trim s
  plain := by
    have hs : commentFind false s = none := commentFind_prefix (commentFind_suffix h)
    obtain ⟨w, w', _, _, he⟩ := trim_decomp s
    rw [he] at hs
    exact commentFind_prefix (commentFind_suffix hs)

/-- A key and a value, joined by an `=`. -/
theorem Key.pair {v : Str} (hk : Key s) (hv : Solid v) :
    Solid (s ++ '=' :: v) ∧ skipped (s ++ '=' :: v) = false := by
  refine ⟨⟨hk.head.append hk.ne _, ?_, commentFind_pair hk.plain hv.plain (by decide) (by decide)⟩, ?_⟩
  · cases v with
    | nil =>
      intro c hc
      rw [List.getLast?_concat] at hc
      rw [← Option.some.inj hc]
      decide
    | cons c v =>
      have := hv.last.append (by simp) (s ++ ['='])
      rwa [List.append_assoc, List.singleton_append] at this
  · rw [skipped_append hk.ne (by decide), hk.shown]

/-- The core of a line written from a solid text. -/
theorem Solid.core {w t : Str} (hs : Solid s) (hne : s ≠ []) (hw : Blank w) (ht : t = [] ∨ CommentTail t) :
    core (w ++ (s ++ t)) = s := by
  rw [core_written hw hs.head hne hs.plain ht, trimEnd_eq_self.mpr hs.last]

theorem singleKey_none {l : Str} (h : '{' ∉ l) : singleKey l = none := by
  unfold singleKey
  cases hs : stripSuffix '}' (trimEnd l) with
  | none => rfl
  | some left =>
    have hl : trimEnd l = left ++ ['}'] := stripSuffix_eq_some.mp hs
    have hleft : '{' ∉ left := fun hm => not_mem_trimEnd h (by rw [hl]; simp [hm])
    rw [Option.bind_some, splitFirst_eq_none.mpr (not_mem_trimEnd hleft)]
    rfl

/-- What the key of a single-line rule is made of. -/
theorem singleKey_eq_some {l pkg th : Str} (h : singleKey l = some (pkg, th)) :
    ∃ a b w w', l = a ++ '{' :: (b ++ (w ++ '}' :: w')) ∧ '{' ∉ a ∧ Blank w ∧ Blank w' ∧
      trim a = pkg ∧ trim b = th ∧ pkg ≠ [] ∧ th ≠ [] := by
  unfold singleKey at h
  obtain ⟨left, hleft, h⟩ := Option.bind_eq_some_iff.mp h
  obtain ⟨⟨a, b⟩, hab, h⟩ := Option.bind_eq_some_iff.mp h
  dsimp only at h
  split at h
  · cases h
  · next hne =>
    simp only [Option.some.injEq, Prod.mk.injEq] at h
    simp only [Bool.or_eq_true, List.isEmpty_iff, not_or] at hne
    obtain ⟨hleft', ha⟩ := splitFirst_eq_some.mp hab
    obtain ⟨w, hw, hwl⟩ := trimEnd_decomp left
    obtain ⟨w', hw', hwl'⟩ := trimEnd_decomp l
    rw [stripSuffix_eq_some.mp hleft] at hwl'
    rw [hleft'] at hwl
    refine ⟨a, b, w, w', ?_, ha, hw, hw', h.1, h.2, h.1 ▸ hne.1, h.2 ▸ hne.2⟩
    rw [hwl', hwl]
    simp

/-- **A key at the start of a line**, up to the character that ends it. -/
theorem Key.of_start {a r : Str} {x : Char} (hhead : HeadSolid (a ++ x :: r))
    (hplain : commentFind false (a ++ x :: r) = none) (hs : skipped (a ++ x :: r) = false) (hx : x ≠ '/')
    (hne : trim a ≠ []) : Key (trim a) := by
  have hane : a ≠ [] := by
    rintro rfl
    exact hne rfl
  have htrim : trim a = trimEnd a := HeadSolid.trim_eq hhead.of_append
  refine ⟨Solid.trim_part (a := []) (b := x :: r) (by simpa using hplain), hne, ?_⟩
  -- what follows the key is a blank or the character that ends it
  obtain ⟨u, hu, hau⟩ := trimEnd_decomp a
  rw [← htrim] at hau
  cases u with
  | nil =>
    rw [List.append_nil] at hau
    rw [hau, skipped_append hne hx] at hs
    exact hs
  | cons y u =>
    have hy : y ≠ '/' := by
      rintro rfl
      exact absurd (hu '/' (by simp)) (by decide)
    rw [hau, List.append_assoc, List.cons_append, skipped_append hne hy] at hs
    exact hs

/-- The parts of a single-line rule. -/
structure SingleParts (pkg thread cpus : Str) : Prop where
  key : Key pkg
  noBrace : '{' ∉ pkg
  name : Solid thread
  named : thread ≠ []
  value : Solid cpus
  noEq : '=' ∉ cpus

theorem not_mem_dropLast {x : Char} (h : x ∉ s) : x ∉ s.dropLast := fun hm => h (List.dropLast_subset s hm)

theorem not_mem_trim {x : Char} (h : x ∉ s) : x ∉ trim s := fun hm => h (trim_subset s hm)

/-- The text of a value is one that the trims and the comment cut leave alone. -/
theorem valueText_solid {k v : Str} (hplain : commentFind false (k ++ '=' :: v) = none) (hv : '=' ∉ v) :
    Solid (valueText v) ∧ '=' ∉ valueText v := by
  unfold valueText
  by_cases ho : valueOpens v = true
  · rw [if_pos ho]
    refine ⟨Solid.trim_part (a := k ++ ['=']) (b := ['{']) ?_, not_mem_trim (not_mem_dropLast hv)⟩
    have hv' : v.getLast? = some '{' := by simpa [valueOpens] using ho
    obtain ⟨r, rfl⟩ := List.getLast?_eq_some_iff.mp hv'
    simpa using hplain
  · rw [if_neg ho]
    refine ⟨Solid.trim_part (a := k ++ ['=']) (b := []) ?_, not_mem_trim hv⟩
    simpa using hplain

theorem single_parts {place : Place} {l pkg th cpus : Str} {opens : Bool}
    (h : roleOf place l = .outer (.single pkg th cpus opens)) : SingleParts pkg th cpus := by
  obtain ⟨hs, hp⟩ := outer_core h
  have hplain := commentFind_core l
  have hhead := headSolid_core l
  generalize core l = c at hs hp hplain hhead
  obtain ⟨k, v, rfl, hv, hpair⟩ := @parseCore_spec c cpus (by rw [hp]; rfl)
  rw [hpair] at hp
  unfold parsePair at hp
  cases hk : singleKey k with
  | none =>
    rw [hk] at hp
    dsimp only at hp
    split at hp
    · cases hp
    · split at hp
      · split at hp <;> cases hp
      · cases hp
  | some key =>
    rw [hk] at hp
    simp only [OuterLine.single.injEq] at hp
    obtain ⟨rfl, rfl, rfl, rfl⟩ := hp
    obtain ⟨a, b, w, w', hkk, ha, hw, hw', hpkg, hth, hpne, htne⟩ := singleKey_eq_some hk
    -- the key stands at the very start of the line
    have hkey : Key key.1 := by
      have hstart : k ++ '=' :: v = a ++ '{' :: (b ++ (w ++ '}' :: w') ++ '=' :: v) := by simp [hkk]
      rw [hstart] at hhead hplain hs
      rw [← hpkg] at hpne ⊢
      exact Key.of_start hhead hplain hs (by decide) hpne
    refine ⟨hkey, ?_, ?_, htne, ?_, ?_⟩
    · rw [← hpkg]
      exact not_mem_trim ha
    · rw [← hth]
      refine Solid.trim_part (a := a ++ ['{']) (b := w ++ '}' :: w' ++ '=' :: v) ?_
      rw [hkk] at hplain
      simpa using hplain
    · exact (valueText_solid hplain hv).1
    · exact (valueText_solid hplain hv).2

/-- The package a line outside a block names. -/
def OuterLine.key : OuterLine → Str
  | .rule pkg _ _ | .bareOpen pkg | .pending pkg | .single pkg _ _ _ => pkg
  | .junk => []

/-- **The key of a line** is one the editor can write. -/
theorem outer_key {place : Place} {l : Str} {r : OuterLine} (h : roleOf place l = .outer r) (hne : r.key ≠ []) :
    Key r.key := by
  obtain ⟨hs, hp⟩ := outer_core h
  have hplain := commentFind_core l
  have hhead := headSolid_core l
  have hlast := lastSolid_core l
  by_cases heq : '=' ∈ core l
  · obtain ⟨k, v, hkv, hv⟩ := eq_pair heq
    have hpair := parseCore_pair (l := k) hv
    rw [← hkv, hp] at hpair
    rw [hkv] at hhead hplain hs
    have hstart : trim k ≠ [] → Key (trim k) := Key.of_start hhead hplain hs (by decide)
    unfold parsePair at hpair
    cases hk : singleKey k with
    | some key =>
      rw [hk] at hpair
      have hsingle : roleOf place l = .outer (.single key.1 key.2 (valueText v) (valueOpens v)) := by
        rw [h, hpair]
      rw [hpair]
      exact (single_parts hsingle).key
    | none =>
      rw [hk] at hpair
      dsimp only at hpair
      split at hpair
      · rw [hpair] at hne
        exact absurd rfl hne
      · split at hpair
        · split at hpair <;> (rw [hpair] at hne ⊢; exact hstart hne)
        · rw [hpair] at hne ⊢
          exact hstart hne
  · -- without an `=` the key is the line, or what stands before the brace
    rw [parseCore_plain heq] at hp
    split at hp
    · next ho =>
      have hopen : (core l).getLast? = some '{' := by simpa [valueOpens] using ho
      obtain ⟨d, hd⟩ := List.getLast?_eq_some_iff.mp hopen
      rw [hd, List.dropLast_concat] at hp
      rw [hd] at hhead hplain hs
      subst hp
      have htrim : trim d = trimEnd d := HeadSolid.trim_eq hhead.of_append
      show Key (trimEnd d)
      rw [← htrim]
      refine Key.of_start hhead hplain hs (by decide) ?_
      rw [htrim]
      exact hne
    · split at hp
      · subst hp
        exact absurd rfl hne
      · subst hp
        exact ⟨⟨hhead, hlast, hplain⟩, hne, hs⟩

/-- The parts of a package rule. -/
structure RuleParts (cpus : Str) (opens : Bool) : Prop where
  value : Solid cpus
  stated : cpus ≠ []
  noEq : '=' ∉ cpus
  closed : opens = false → valueOpens cpus = false

theorem rule_parts {place : Place} {l pkg cpus : Str} {opens : Bool}
    (h : roleOf place l = .outer (.rule pkg cpus opens)) : RuleParts cpus opens := by
  obtain ⟨_, hp⟩ := outer_core h
  have hplain := commentFind_core l
  have hlast := lastSolid_core l
  generalize core l = c at hp hplain hlast
  obtain ⟨k, v, rfl, hv, hpair⟩ := @parseCore_spec c cpus (by rw [hp]; rfl)
  rw [hpair] at hp
  unfold parsePair at hp
  split at hp
  · cases hp
  · split at hp
    · cases hp
    · split at hp
      · split at hp <;> cases hp
      · next hstated =>
        obtain ⟨_, rfl, rfl⟩ := OuterLine.rule.inj hp
        refine ⟨(valueText_solid hplain hv).1, by simpa using hstated, (valueText_solid hplain hv).2, fun ho => ?_⟩
        -- the value runs to the end of the line: a brace that ends its text ends it
        have hend : trimEnd v = v := trimEnd_eq_self.mpr (LastSolid.of_append (a := ['=']) hlast.of_append)
        rw [valueText, ho, if_neg Bool.false_ne_true]
        by_contra hopen
        obtain ⟨d, hd⟩ := List.getLast?_eq_some_iff.mp
          (show (trim v).getLast? = some '{' by simpa [valueOpens] using hopen)
        obtain ⟨w, w', _, hw', he⟩ := trim_decomp v
        rw [hd, show w ++ (d ++ ['{'] ++ w') = (w ++ d) ++ '{' :: w' by simp] at he
        rw [he, trimEnd_append_cons (by decide), trimEnd_eq_nil.mpr hw', ← he] at hend
        rw [← hend, valueOpens, List.getLast?_concat] at ho
        simp at ho

end AppOptR
