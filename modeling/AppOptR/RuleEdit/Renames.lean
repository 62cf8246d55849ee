import AppOptR.RuleEdit.Rewrites

/-!
# `RuleEdit.Renames` — what a renamed line reads as

`rule_rename` cuts the old key off the front of a line and puts the new one there, with a special tail when the
new key has an `=` and nothing else follows. What stands behind the key of a line is one of four shapes
(`KeyRest`); `core_rename` says what stands behind the new one. Since the new key may hold an `=`, a `{` or a
`}` itself, the line need not read as it did: `RenameSafe` lists the cases in which it does
(`roleOf_rename`).
-/

namespace AppOptR

open Text

variable {s t k old new l v w : Str} {r : OuterLine} {place : Place} {waiting : Option Str}

/-! ## Behind the key -/

/-- A header with the value `v` behind its `=`. -/
def headOf (k v : Str) : OuterLine :=
  if (valueText v).isEmpty then (if valueOpens v then .bareOpen k else .pending k)
  else .rule k (valueText v) (valueOpens v)

/-- What follows the key `k` in a line that reads as `r`. -/
inductive KeyRest (k : Str) : OuterLine → Str → Prop
  | pair {w v : Str} (hw : Blank w) (hv : '=' ∉ v) : KeyRest k (headOf k v) (w ++ '=' :: v)
  | brace {w : Str} (hw : Blank w) (hk : '=' ∉ k) : KeyRest k (.bareOpen k) (w ++ ['{'])
  | plain (hk : '=' ∉ k) : KeyRest k (.pending k) []
  | single {w b w₁ w₂ v : Str} (hw : Blank w) (hw₁ : Blank w₁) (hw₂ : Blank w₂) (hb : trim b ≠ [])
      (hv : '=' ∉ v) :
      KeyRest k (.single k (trim b) (valueText v) (valueOpens v))
        (w ++ '{' :: (b ++ (w₁ ++ '}' :: w₂)) ++ '=' :: v)

theorem parsePair_head {k' : Str} (hs : singleKey k' = none)
    (hcl : valueOpens v = true ∨ closeLike (k' ++ ['=']) = false) (ht : trim k' = k) :
    parsePair k' v = headOf k v := by
  have hjunk : (!valueOpens v && closeLike (k' ++ ['='])) = false := by
    rcases hcl with h | h <;> simp [h]
  unfold parsePair headOf
  rw [hs, ht]
  dsimp only
  rw [hjunk]
  rfl

/-- A key at the start, with the blanks behind it. -/
theorem key_blanks {a x : Str} (hhead : HeadSolid (a ++ x)) : ∃ w, a = trim a ++ w ∧ Blank w := by
  obtain ⟨w, hw, ha⟩ := trimEnd_decomp a
  have htrim : trim a = trimEnd a := HeadSolid.trim_eq hhead.of_append
  exact ⟨w, by rw [htrim, ← ha], hw⟩

/-- **What follows the key of a line.** -/
theorem key_rest (hp : parseCore (core l) = r) (hne : r.key ≠ []) :
    ∃ u, core l = r.key ++ u ∧ KeyRest r.key r u := by
  have hhead := headSolid_core l
  by_cases heq : '=' ∈ core l
  · obtain ⟨k', v, hkv, hv⟩ := eq_pair heq
    have hpair := parseCore_pair (l := k') hv
    rw [← hkv, hp] at hpair
    rw [hkv] at hhead ⊢
    cases hs : singleKey k' with
    | some key =>
      -- the form `pkg{thread}=spec`: the brace ends the key
      obtain ⟨a, b, w₁, w₂, rfl, _, hw₁, hw₂, ha, hb, _, hbne⟩ := singleKey_eq_some hs
      have hr : r = .single key.1 key.2 (valueText v) (valueOpens v) := by
        rw [hpair, parsePair, hs]
      obtain ⟨w, haw, hw⟩ := key_blanks (a := a) (x := '{' :: (b ++ (w₁ ++ '}' :: w₂)) ++ '=' :: v)
        (by simpa using hhead)
      rw [ha] at haw
      subst hr
      refine ⟨w ++ '{' :: (b ++ (w₁ ++ '}' :: w₂)) ++ '=' :: v, ?_, ?_⟩
      · show a ++ '{' :: (b ++ (w₁ ++ '}' :: w₂)) ++ '=' :: v = key.1 ++ _
        rw [haw]
        simp
      · show KeyRest key.1 (.single key.1 key.2 _ _) _
        rw [← hb] at hbne ⊢
        exact .single hw hw₁ hw₂ hbne hv
    | none =>
      obtain ⟨w, hkw, hw⟩ := key_blanks hhead
      have hr : r = headOf (trim k') v := by
        rw [hpair]
        refine parsePair_head hs ?_ rfl
        by_contra hcl
        obtain ⟨ho, hc⟩ := not_or.mp hcl
        rw [parsePair, hs] at hpair
        dsimp only at hpair
        rw [if_pos (by simp [ho, hc])] at hpair
        rw [hpair] at hne
        exact hne rfl
      have hkey : (headOf (trim k') v).key = trim k' := by
        unfold headOf
        split
        · split <;> rfl
        · rfl
      rw [hr, hkey]
      refine ⟨w ++ '=' :: v, ?_, .pair hw hv⟩
      conv_lhs => rw [hkw]
      simp
  · -- no `=`: a brace behind the key, or the key alone
    rw [parseCore_plain heq] at hp
    split at hp
    · next ho =>
      obtain ⟨d, hd⟩ := List.getLast?_eq_some_iff.mp (show (core l).getLast? = some '{' by simpa [valueOpens] using ho)
      rw [hd, List.dropLast_concat] at hp
      subst hp
      rw [hd] at hhead ⊢
      obtain ⟨w, hdw, hw⟩ := key_blanks hhead
      have htrim : trim d = trimEnd d := HeadSolid.trim_eq hhead.of_append
      rw [htrim] at hdw
      have hkey : '=' ∉ trimEnd d := not_mem_trimEnd fun hm => heq (by rw [hd]; exact List.mem_append_left _ hm)
      refine ⟨w ++ ['{'], ?_, .brace hw hkey⟩
      show d ++ ['{'] = trimEnd d ++ _
      conv_lhs => rw [hdw]
      simp
    · split at hp
      · rw [← hp] at hne
        exact absurd rfl hne
      · subst hp
        exact ⟨[], by simp [OuterLine.key], .plain heq⟩

/-! ## The renamed line -/

/-- What `rule_rename` puts behind the new key. -/
def renameTail (new rest : Str) : Str :=
  if '=' ∈ new then
    if trim rest = [] ∨ trim rest = ['='] then ['=']
    else if trim rest = ['{'] then ['=', ' ', '{']
    else rest
  else rest

theorem renameLine_eq {rest : Str} (h : trim l = old ++ rest) : renameLine old new l = new ++ renameTail new rest := by
  have hstrip : stripPrefix old (trim l) = some rest := by
    unfold stripPrefix
    rw [h, if_pos (by simp), List.drop_left]
  unfold renameLine
  rw [hstrip]
  rfl

/-- The character behind a key is not a slash. -/
theorem KeyRest.head {u : Str} (h : KeyRest k r u) : ∀ x y, u = x :: y → x ≠ '/' := by
  have hblank : ∀ {w : Str} {c : Char} {z : Str}, Blank w → c ≠ '/' → ∀ x y, w ++ c :: z = x :: y → x ≠ '/' := by
    intro w c z hw hc x y hxy
    cases w with
    | nil =>
      obtain ⟨rfl, _⟩ := List.cons.inj hxy
      exact hc
    | cons a w =>
      obtain ⟨rfl, _⟩ := List.cons.inj hxy
      rintro rfl
      exact absurd (hw '/' (by simp)) (by decide)
  cases h with
  | pair hw hv => exact hblank hw (by decide)
  | brace hw => exact hblank hw (by decide)
  | plain => exact fun x y h => (by cases h)
  | single hw hw₁ hw₂ hb hv =>
    intro x y hxy
    rw [List.append_assoc, List.cons_append] at hxy
    exact hblank hw (by decide) x y hxy

/-- A comment is looked for behind a solid text as if nothing stood before it. -/
theorem commentFind_after {b : Bool} (hs : LastSolid s) (hne : s ≠ []) (ht : ∀ x y, t = x :: y → x ≠ '/') :
    commentFind b (s ++ t) = none ↔ commentFind b s = none ∧ commentFind false t = none := by
  induction s generalizing b with
  | nil => exact absurd rfl hne
  | cons c s ih =>
    cases s with
    | nil =>
      have hc : isWhitespace c = false := hs c rfl
      have hslash : (t.head? == some '/') = false := by
        cases t with
        | nil => rfl
        | cons x y => simpa using ht x y rfl
      have h₁ : commentFind b ([c] ++ t) =
          if b && (c == '#' || (c == '/' && t.head? == some '/')) then some 0
          else (commentFind (isWhitespace c) t).map (· + 1) := rfl
      have h₂ : commentFind b [c] =
          if b && (c == '#' || (c == '/' && false)) then some 0 else (none : Option Nat) := by
        cases b <;> rfl
      rw [h₁, h₂, hslash, hc]
      split
      · exact ⟨fun h => (by cases h), fun h => (by cases h.1)⟩
      · rw [Option.map_eq_none_iff]
        exact ⟨fun h => ⟨rfl, h⟩, fun h => h.2⟩
    | cons d s =>
      have hrest : LastSolid (d :: s) := fun x hx => hs x (by rwa [List.getLast?_cons_cons])
      have h₁ : commentFind b ((c :: d :: s) ++ t) =
          if b && (c == '#' || (c == '/' && some d == some '/')) then some 0
          else (commentFind (isWhitespace c) ((d :: s) ++ t)).map (· + 1) := rfl
      have h₂ : commentFind b (c :: d :: s) =
          if b && (c == '#' || (c == '/' && some d == some '/')) then some 0
          else (commentFind (isWhitespace c) (d :: s)).map (· + 1) := rfl
      rw [h₁, h₂]
      split
      · exact ⟨fun h => (by cases h), fun h => (by cases h.1)⟩
      · rw [Option.map_eq_none_iff, Option.map_eq_none_iff]
        exact ih hrest (by simp)

/-- What is not white space survives the trimming. -/
theorem mem_trim_of_mem {c : Char} (hc : c ∈ s) (hw : isWhitespace c = false) : c ∈ trim s := by
  obtain ⟨w, w', hb, hb', he⟩ := trim_decomp s
  rw [he, List.mem_append, List.mem_append] at hc
  rcases hc with h | h | h
  · rw [hb c h] at hw
    cases hw
  · exact h
  · rw [hb' c h] at hw
    cases hw

/-- A trailing comment keeps the tail from being one of the special ones. -/
theorem renameTail_comment {u : Str} (ht : CommentTail t) : renameTail new (u ++ t) = u ++ t := by
  obtain ⟨w, m, rfl, _, _, x, hm⟩ := ht
  obtain ⟨c, hc, hmem⟩ : ∃ c, (c = '#' ∨ c = '/') ∧ c ∈ u ++ (w ++ m) := by
    rcases hm with rfl | rfl
    · exact ⟨'#', .inl rfl, by simp⟩
    · exact ⟨'/', .inr rfl, by simp⟩
  have hin : c ∈ trim (u ++ (w ++ m)) := mem_trim_of_mem hmem (by rcases hc with rfl | rfl <;> decide)
  have hnot : ∀ z : Str, c ∉ z → trim (u ++ (w ++ m)) ≠ z := fun z hz he => hz (he ▸ hin)
  have h₁ := hnot [] (by simp)
  have h₂ := hnot ['='] (by rcases hc with rfl | rfl <;> decide)
  have h₃ := hnot ['{'] (by rcases hc with rfl | rfl <;> decide)
  unfold renameTail
  split
  · rw [if_neg (not_or.mpr ⟨h₁, h₂⟩)]
  · rfl

/-- What stands behind the new key: the special tails need the line to have no comment. -/
def renamedRest (new u t : Str) : Str := if t = [] then renameTail new u else u

theorem renamedRest_cases (new u t : Str) :
    renamedRest new u t = u ∨
      '=' ∈ new ∧ t = [] ∧ ((trim u = [] ∨ trim u = ['=']) ∧ renamedRest new u t = ['='] ∨
        trim u = ['{'] ∧ renamedRest new u t = ['=', ' ', '{']) := by
  unfold renamedRest renameTail
  split
  · next ht =>
    split
    · next heq =>
      split
      · next h => exact .inr ⟨heq, ht, .inl ⟨h, rfl⟩⟩
      · split
        · next h => exact .inr ⟨heq, ht, .inr ⟨h, rfl⟩⟩
        · exact .inl rfl
    · exact .inl rfl
  · exact .inl rfl

/-- **The renamed line**, without its comment. -/
theorem core_rename (hold : Key old) (hnew : Key new) {u : Str}
    (hu : core l = old ++ u) (hrest : KeyRest old r u) :
    core (renameLine old new l) = new ++ renamedRest new u (commentTail (trim l)) := by
  have hslash := hrest.head
  have hplain := commentFind_core l
  rw [hu, commentFind_after hold.last hold.ne hslash] at hplain
  have hlast : LastSolid (new ++ u) := by
    cases u with
    | nil =>
      rw [List.append_nil]
      exact hnew.last
    | cons x y =>
      have hcore := lastSolid_core l
      rw [hu] at hcore
      exact (LastSolid.of_append hcore).append (by simp) _
  have hsolid : Solid (new ++ u) :=
    ⟨hnew.head.append hnew.ne _, hlast, (commentFind_after hnew.last hnew.ne hslash).mpr ⟨hnew.plain, hplain.2⟩⟩
  have hne : new ++ u ≠ [] := by simp [hnew.ne]
  have htrim : trim l = old ++ (u ++ commentTail (trim l)) := by
    rw [← List.append_assoc, ← hu]
    exact (stripComment_append_commentTail (trim l)).symm
  rw [renameLine_eq htrim]
  rcases commentTail_cases (trim l) with ht | ht
  · rw [ht, List.append_nil, renamedRest, if_pos rfl]
    -- the three tails that are put in for a name with an `=`
    have hspecial : ∀ z : Str, LastSolid z → z ≠ [] → (∀ c ∈ z, c ≠ '#' ∧ c ≠ '/') → core (new ++ z) = new ++ z := by
      intro z hz hzne hmark
      have hs : Solid (new ++ z) :=
        ⟨hnew.head.append hnew.ne _, hz.append hzne _, commentFind_append_plain hnew.plain hmark⟩
      simpa using hs.core (w := []) (t := []) (by simp [hnew.ne]) blank_nil (.inl rfl)
    unfold renameTail
    split
    · split
      · exact hspecial _ (by intro c hc; cases hc; decide) (by simp) (by simp)
      · split
        · exact hspecial _ (by intro c hc; cases hc; decide) (by simp) (by simp)
        · simpa using hsolid.core (w := []) (t := []) hne blank_nil (.inl rfl)
    · simpa using hsolid.core (w := []) (t := []) hne blank_nil (.inl rfl)
  · have hne' : commentTail (trim l) ≠ [] := by
      obtain ⟨x, y, hxy, _⟩ := ht.head
      rw [hxy]
      simp
    rw [renameTail_comment ht, renamedRest, if_neg hne', ← List.append_assoc]
    have := hsolid.core (w := []) hne blank_nil (.inr ht)
    rwa [List.nil_append] at this

/-! ## Whether the renamed line still is one of the package -/

/-- A single-line rule. -/
def OuterLine.isSingle : OuterLine → Bool
  | .single _ _ _ _ => true
  | _ => false

/-- Outside every block the line is one of `k`: a single-line rule, or else a header. -/
def ReadsOf (single : Bool) (k l : Str) : Prop :=
  (parseOuter (trim l)).key = k ∧ (parseOuter (trim l)).isSingle = single

instance (single : Bool) (k l : Str) : Decidable (ReadsOf single k l) := inferInstanceAs (Decidable (_ ∧ _))

/-- What stands before the first `{` of the new name is the old one. -/
def Nests (old new : Str) : Prop := (splitFirst '{' new).any (fun p => trim p.1 = old) = true

instance (old new : Str) : Decidable (Nests old new) := inferInstanceAs (Decidable (_ = true))

theorem nests_of_brace {p x a b : Str} (hnew : '{' ∈ new) (h : new ++ x = a ++ '{' :: b) (ha : '{' ∉ a)
    (hp : trim a = p) : Nests p new := by
  obtain ⟨a', b', hsplit⟩ : ∃ a' b', splitFirst '{' new = some (a', b') := by
    cases hs : splitFirst '{' new with
    | none => exact absurd hnew (splitFirst_eq_none.mp hs)
    | some ab => exact ⟨ab.1, ab.2, rfl⟩
  obtain ⟨hsame, ha'⟩ := splitFirst_eq_some.mp hsplit
  have hfirst : splitFirst '{' (new ++ x) = some (a', b' ++ x) := splitFirst_eq_some.mpr ⟨by rw [hsame]; simp, ha'⟩
  rw [h, splitFirst_eq_some.mpr ⟨rfl, ha⟩] at hfirst
  obtain ⟨rfl, _⟩ := Prod.mk.inj (Option.some.inj hfirst)
  simp [Nests, hsplit, hp]

theorem reads_core {single : Bool} :
    ReadsOf single k l ↔ (parseCore (core l)).key = k ∧ (parseCore (core l)).isSingle = single := Iff.rfl

theorem isSingle_iff : r.isSingle = true ↔ ∃ th c o, r = .single r.key th c o := by
  cases r <;> simp [OuterLine.isSingle, OuterLine.key]

/-- The one-line form, behind a name without an opening brace. -/
theorem singleKey_of_shape {a b w : Str} (ha : '{' ∉ a) (hw : Blank w) (hane : trim a ≠ []) (hb : trim b ≠ []) :
    singleKey (a ++ '{' :: (b ++ '}' :: w)) = some (trim a, trim b) := by
  have hend : trimEnd (a ++ '{' :: (b ++ '}' :: w)) = (a ++ '{' :: b) ++ ['}'] := by
    rw [show a ++ '{' :: (b ++ '}' :: w) = (a ++ '{' :: b) ++ '}' :: w by simp,
      trimEnd_append_cons (by decide), trimEnd_eq_nil.mpr hw]
  have hname : trimEnd (a ++ '{' :: b) = a ++ '{' :: trimEnd b := trimEnd_append_cons (by decide) a b
  unfold singleKey
  rw [hend, stripSuffix_eq_some.mpr rfl, Option.bind_some, hname, splitFirst_eq_some.mpr ⟨rfl, ha⟩,
    Option.bind_some, trim_trimEnd, if_neg (by simp [hane, hb])]

/-- The shape of a single-line rule. -/
theorem parseCore_single {c th cp : Str} {o : Bool} (h : parseCore c = .single k th cp o) :
    ∃ k' a b v, c = k' ++ '=' :: v ∧ '=' ∉ v ∧ k' = a ++ '{' :: b ∧ '{' ∉ a ∧ trim a = k := by
  obtain ⟨k', v, hc, hv, hp⟩ := @parseCore_spec _ cp (by rw [h]; rfl)
  rw [h] at hp
  cases hs : singleKey k' with
  | some key =>
    obtain ⟨a, b, w, w', hk', ha, _, _, hka, _⟩ := singleKey_eq_some hs
    rw [parsePair, hs] at hp
    obtain ⟨rfl, _⟩ := OuterLine.single.inj hp
    exact ⟨k', a, _, v, hc, hv, hk', ha, hka⟩
  | none =>
    rw [parsePair, hs] at hp
    dsimp only at hp
    split at hp
    · cases hp
    · split at hp
      · split at hp <;> cases hp
      · cases hp

/-- A header with an `=` is keyed by what stands before it. -/
theorem parsePair_key (h : (parsePair l v).isSingle = false) :
    (parsePair l v).key = [] ∨ (parsePair l v).key = trim l := by
  unfold parsePair at h ⊢
  split
  · next hs =>
    rw [hs] at h
    cases h
  · split
    · exact .inl rfl
    · split
      · split <;> exact .inr rfl
      · exact .inr rfl

/-- What a line of the old package becomes, without its comment. -/
theorem ReadsOf.renamed {single : Bool} (hold : Key old) (hnew : Key new) (h : ReadsOf single old l) :
    ∃ u, core l = old ++ u ∧ KeyRest old (parseCore (core l)) u ∧
      core (renameLine old new l) = new ++ renamedRest new u (commentTail (trim l)) := by
  obtain ⟨hkey, _⟩ := reads_core.mp h
  obtain ⟨u, hu, hrest⟩ := key_rest (l := l) rfl (by rw [hkey]; exact hold.ne)
  rw [hkey] at hu hrest
  exact ⟨u, hu, hrest, core_rename hold hnew hu hrest⟩

/-- The special tails stand only behind a header. -/
theorem renamedRest_single {w b x v : Str} (hb : '}' ∈ x) :
    renamedRest new (w ++ '{' :: (b ++ x) ++ '=' :: v) t = w ++ '{' :: (b ++ x) ++ '=' :: v := by
  have hin : '}' ∈ trim (w ++ '{' :: (b ++ x) ++ '=' :: v) := mem_trim_of_mem (by simp [hb]) (by decide)
  have hnot : ∀ z : Str, '}' ∉ z → trim (w ++ '{' :: (b ++ x) ++ '=' :: v) ≠ z := fun z hz he => hz (he ▸ hin)
  rcases renamedRest_cases new (w ++ '{' :: (b ++ x) ++ '=' :: v) t with h | ⟨_, _, ⟨h | h, _⟩ | ⟨h, _⟩⟩
  · exact h
  · exact absurd h (hnot _ (by simp))
  · exact absurd h (hnot _ (by decide))
  · exact absurd h (hnot _ (by decide))

theorem isSingle_headOf (k v : Str) : (headOf k v).isSingle = false := by
  unfold headOf
  split
  · split <;> rfl
  · rfl

theorem KeyRest.of_single {u : Str} (h : KeyRest k r u) (hs : r.isSingle = true) :
    ∃ w b w₁ w₂ v, u = w ++ '{' :: (b ++ (w₁ ++ '}' :: w₂)) ++ '=' :: v ∧ Blank w ∧ Blank w₁ ∧ Blank w₂ ∧
      trim b ≠ [] ∧ '=' ∉ v ∧ r = .single k (trim b) (valueText v) (valueOpens v) := by
  cases h with
  | pair hw hv =>
    rw [isSingle_headOf] at hs
    cases hs
  | brace hw hk => cases hs
  | plain hk => cases hs
  | single hw hw₁ hw₂ hb hv => exact ⟨_, _, _, _, _, rfl, hw, hw₁, hw₂, hb, hv, rfl⟩

theorem KeyRest.of_header {u : Str} (h : KeyRest k r u) (hs : r.isSingle = false) :
    (∃ w v, u = w ++ '=' :: v ∧ Blank w ∧ '=' ∉ v) ∨ '=' ∉ k ∧ ((∃ w, u = w ++ ['{'] ∧ Blank w) ∨ u = []) := by
  cases h with
  | pair hw hv => exact .inl ⟨_, _, rfl, hw, hv⟩
  | brace hw hk => exact .inr ⟨hk, .inl ⟨_, rfl, hw⟩⟩
  | plain hk => exact .inr ⟨hk, .inr rfl⟩
  | single hw hw₁ hw₂ hb hv => cases hs

/-- **A renamed single-line rule** is one of the old package only if the new name nests the old one. -/
theorem rename_single (hold : Key old) (hnew : Key new) (hne : old ≠ new) (hnest : ¬ Nests old new)
    (h : ReadsOf true old l) {single : Bool} : ¬ ReadsOf single old (renameLine old new l) := by
  intro h'
  obtain ⟨u, hu, hrest, hcore⟩ := h.renamed hold hnew
  obtain ⟨hkey, hsingle⟩ := reads_core.mp h
  obtain ⟨hkey', hsingle'⟩ := reads_core.mp h'
  obtain ⟨th, cp, o, hread⟩ := isSingle_iff.mp hsingle
  rw [hkey] at hread
  obtain ⟨_, a₀, _, _, _, _, _, ha₀, hold₀⟩ := parseCore_single hread
  have hbrace : '{' ∉ old := hold₀ ▸ not_mem_trim ha₀
  obtain ⟨w, b, w₁, w₂, v, rfl, hw, _, _, _, hv, _⟩ := hrest.of_single hsingle
  rw [renamedRest_single (by simp)] at hcore
  cases single with
  | true =>
    -- the part before the first brace is that of the new name, or all of it
    obtain ⟨th', cp', o', hread'⟩ := isSingle_iff.mp hsingle'
    rw [hkey', hcore] at hread'
    obtain ⟨k', a, b', v', hc, _, rfl, ha, hkey₂⟩ := parseCore_single hread'
    by_cases hb : '{' ∈ new
    · exact hnest (nests_of_brace hb (b := b' ++ '=' :: v') (by rw [hc]; simp) ha hkey₂)
    · have hsplit := splitFirst_eq_some.mpr ⟨hc.trans (by simp : _ = a ++ '{' :: (b' ++ '=' :: v')), ha⟩
      have hfree : '{' ∉ new ++ w := fun hm => (List.mem_append.mp hm).elim hb fun hm =>
        absurd (hw _ hm) (by decide)
      have hfirst : splitFirst '{' (new ++ (w ++ '{' :: (b ++ (w₁ ++ '}' :: w₂)) ++ '=' :: v))
          = some (new ++ w, b ++ (w₁ ++ '}' :: w₂) ++ '=' :: v) := splitFirst_eq_some.mpr ⟨by simp, hfree⟩
      rw [hfirst] at hsplit
      obtain ⟨rfl, _⟩ := Prod.mk.inj (Option.some.inj hsplit)
      rw [trim_append_blank hw, trim_of_solid hnew.head hnew.last] at hkey₂
      exact hne hkey₂.symm
  | false =>
    -- a key of more than the name would hold the brace
    rw [hcore, show new ++ (w ++ '{' :: (b ++ (w₁ ++ '}' :: w₂)) ++ '=' :: v)
      = (new ++ (w ++ '{' :: (b ++ (w₁ ++ '}' :: w₂)))) ++ '=' :: v by simp, parseCore_pair hv] at hkey' hsingle'
    rcases parsePair_key hsingle' with hk | hk
    · exact hold.ne (hkey'.symm.trans hk)
    · refine hbrace ?_
      rw [← hkey', hk]
      exact mem_trim_of_mem (by simp) (by decide)

/-- The line read anew, with its trailing comment. -/
theorem renamed_shown (hnew : Key new) {u x : Str} (hu : KeyRest k r u) (hx : x = u ∨ x.head? = some '=') :
    skipped (new ++ x) = false := by
  cases x with
  | nil =>
    rw [List.append_nil]
    exact hnew.shown
  | cons c y =>
    rw [skipped_append hnew.ne, hnew.shown]
    rcases hx with hx | hx
    · exact hu.head c y hx.symm
    · obtain rfl : c = '=' := by simpa using hx
      decide

/-- **Under a nesting name** a renamed single-line rule is one of the old package again. -/
theorem rename_nested (hold : Key old) (hnew : Key new) (hnest : Nests old new) {th cp : Str} {o : Bool}
    (h : parseOuter (trim l) = .single old th cp o) :
    skipped (trim (renameLine old new l)) = false ∧
      ∃ th', parseOuter (trim (renameLine old new l)) = .single old th' cp o := by
  have hreads : ReadsOf true old l := by
    rw [ReadsOf, h]
    exact ⟨rfl, rfl⟩
  obtain ⟨u, _, hrest, hcore⟩ := hreads.renamed hold hnew
  have hsplit : ∃ p s, new = p ++ '{' :: s ∧ '{' ∉ p ∧ trim p = old := by
    unfold Nests at hnest
    cases hs : splitFirst '{' new with
    | none =>
      rw [hs] at hnest
      cases hnest
    | some ps =>
      rw [hs] at hnest
      obtain ⟨he, hp⟩ := splitFirst_eq_some.mp hs
      exact ⟨ps.1, ps.2, he, hp, by simpa using hnest⟩
  obtain ⟨p, s, he, hp, hpold⟩ := hsplit
  have hshown : skipped (core (renameLine old new l)) = false := by
    rw [hcore]
    refine renamed_shown hnew hrest ?_
    rcases renamedRest_cases new u (commentTail (trim l)) with hr | ⟨_, _, ⟨_, hr⟩ | ⟨_, hr⟩⟩
    · exact .inl hr
    · exact .inr (by rw [hr]; rfl)
    · exact .inr (by rw [hr]; rfl)
  obtain ⟨w, b, w₁, w₂, v, rfl, _, _, hw₂, _, hv, hr⟩ := hrest.of_single (reads_core.mp hreads).2
  rw [renamedRest_single (by simp)] at hcore
  refine ⟨by rw [skipped_core, hshown], trim (s ++ (w ++ '{' :: (b ++ w₁))), ?_⟩
  -- the first `{` of the line is now the one in the new name
  have hkey : singleKey (new ++ (w ++ '{' :: (b ++ (w₁ ++ '}' :: w₂)))) =
      some (old, trim (s ++ (w ++ '{' :: (b ++ w₁)))) := by
    rw [he, show p ++ '{' :: s ++ (w ++ '{' :: (b ++ (w₁ ++ '}' :: w₂)))
      = p ++ '{' :: ((s ++ (w ++ '{' :: (b ++ w₁))) ++ '}' :: w₂) by simp, ← hpold]
    refine singleKey_of_shape hp hw₂ (by rw [hpold]; exact hold.ne) fun hnil => ?_
    have hin : '{' ∈ trim (s ++ (w ++ '{' :: (b ++ w₁))) := mem_trim_of_mem (by simp) (by decide)
    rw [hnil] at hin
    cases hin
  rw [parseOuter_core] at h
  rw [h] at hr
  obtain ⟨_, _, rfl, rfl⟩ := OuterLine.single.inj hr
  rw [parseOuter_core, hcore, show new ++ (w ++ '{' :: (b ++ (w₁ ++ '}' :: w₂)) ++ '=' :: v)
    = (new ++ (w ++ '{' :: (b ++ (w₁ ++ '}' :: w₂)))) ++ '=' :: v by simp, parseCore_pair hv, parsePair, hkey]

/-- **A renamed header** is a single-line rule of the old package only if the new name nests the old one. -/
theorem rename_header_single (hold : Key old) (hnew : Key new) (hnest : ¬ Nests old new)
    (h : ReadsOf false old l) : ¬ ReadsOf true old (renameLine old new l) := by
  intro h'
  obtain ⟨u, hu, hrest, hcore⟩ := h.renamed hold hnew
  obtain ⟨_, hsingle⟩ := reads_core.mp h
  obtain ⟨hkey', hsingle'⟩ := reads_core.mp h'
  obtain ⟨th', cp', o', hread'⟩ := isSingle_iff.mp hsingle'
  rw [hkey', hcore] at hread'
  obtain ⟨k', a, b', v', hc, hv', hk', ha, hkey₂⟩ := parseCore_single hread'
  have hin : '{' ∈ k' := by simp [hk']
  by_cases hb : '{' ∈ new
  · exact hnest (nests_of_brace hb (b := b' ++ '=' :: v') (by rw [hc, hk']; simp) ha hkey₂)
  -- the brace would stand behind the new name, before the last `=`
  have hlast : '{' ∈ (new ++ renamedRest new u (commentTail (trim l))).dropLast := by
    rw [hc, List.dropLast_append_of_ne_nil (by simp)]
    exact List.mem_append_left _ hin
  have hno : ∀ {x : Str} {c : Char}, '{' ∉ x → '{' ∉ (new ++ (x ++ [c])).dropLast := by
    intro x c hx
    rw [← List.append_assoc, List.dropLast_concat]
    exact fun hm => (List.mem_append.mp hm).elim hb hx
  have hblank : ∀ {w : Str}, Blank w → '{' ∉ w := fun hw hm => absurd (hw _ hm) (by decide)
  rcases renamedRest_cases new u (commentTail (trim l)) with hr | ⟨_, _, ⟨_, hr⟩ | ⟨_, hr⟩⟩
  · rw [hr] at hlast hc
    rcases hrest.of_header hsingle with ⟨w, v, rfl, hw, hv⟩ | ⟨_, ⟨w, rfl, hw⟩ | rfl⟩
    · have hsplit := splitLast_eq_some.mpr ⟨hc, hv'⟩
      rw [splitLast_eq_some.mpr ⟨(List.append_assoc new w ('=' :: v)).symm, hv⟩] at hsplit
      obtain ⟨rfl, _⟩ := Prod.mk.inj (Option.some.inj hsplit)
      exact (List.mem_append.mp hin).elim hb (hblank hw)
    · exact hno (hblank hw) hlast
    · rw [List.append_nil] at hlast
      exact hb (List.dropLast_subset _ hlast)
  · rw [hr] at hlast
    exact hno (x := []) (by simp) hlast
  · rw [hr] at hlast
    exact hno (x := ['=', ' ']) (by simp) hlast

/-- A header with an `=` is no header of the old package once it is renamed. -/
theorem rename_header_eq (hold : Key old) (hnew : Key new) (hne : old ≠ new) (h : ReadsOf false old l)
    (heq : '=' ∈ core l) : ¬ ReadsOf false old (renameLine old new l) := by
  intro h'
  obtain ⟨u, hu, hrest, hcore⟩ := h.renamed hold hnew
  obtain ⟨_, hsingle⟩ := reads_core.mp h
  obtain ⟨hkey', hsingle'⟩ := reads_core.mp h'
  obtain ⟨w, v, hc, hw, hv⟩ : ∃ w v, core (renameLine old new l) = (new ++ w) ++ '=' :: v ∧ Blank w ∧ '=' ∉ v := by
    rcases hrest.of_header hsingle with ⟨w, v, rfl, hw, hv⟩ | ⟨hk, ⟨w, rfl, hw⟩ | rfl⟩
    · rcases renamedRest_cases new (w ++ '=' :: v) (commentTail (trim l)) with hr | ⟨_, _, ⟨_, hr⟩ | ⟨hr', _⟩⟩
      · exact ⟨w, v, by rw [hcore, hr]; simp, hw, hv⟩
      · exact ⟨[], [], by rw [hcore, hr]; simp, blank_nil, by simp⟩
      · have hin : '=' ∈ trim (w ++ '=' :: v) := mem_trim_of_mem (by simp) (by decide)
        rw [hr'] at hin
        simp at hin
    · rw [hu] at heq
      rcases List.mem_append.mp heq with hm | hm
      · exact absurd hm hk
      · rcases List.mem_append.mp hm with hm | hm
        · exact absurd (hw _ hm) (by decide)
        · simp at hm
    · rw [hu, List.append_nil] at heq
      exact absurd heq hk
  rw [hc, parseCore_pair hv] at hkey' hsingle'
  rcases parsePair_key hsingle' with hk | hk
  · exact hold.ne (hkey'.symm.trans hk)
  · rw [hkey', trim_append_blank hw, trim_of_solid hnew.head hnew.last] at hk
    exact hne hk

/-- A header without an `=` before or after is a header twice only as a bare name, once. -/
theorem rename_header_plain (hold : Key old) (hnew : Key new) (hne : old ≠ new) (h : ReadsOf false old l)
    (h' : ReadsOf false old (renameLine old new l)) (heq : '=' ∉ core (renameLine old new l)) :
    core (renameLine old new l) = new := by
  obtain ⟨u, hu, hrest, hcore⟩ := h.renamed hold hnew
  obtain ⟨_, hsingle⟩ := reads_core.mp h
  obtain ⟨hkey', _⟩ := reads_core.mp h'
  rw [hcore] at heq
  rcases renamedRest_cases new u (commentTail (trim l)) with hr | ⟨hmem, _⟩
  · rw [hr] at hcore heq
    rcases hrest.of_header hsingle with ⟨w, v, rfl, _, _⟩ | ⟨_, ⟨w, rfl, hw⟩ | rfl⟩
    · simp at heq
    · -- a name and an opening brace: the brace opens the block of the new name
      have hopen : valueOpens (new ++ (w ++ ['{'])) = true := by simp [valueOpens]
      rw [hcore, parseCore_plain heq, if_pos hopen, ← List.append_assoc, List.dropLast_concat,
        OuterLine.key, trimEnd_append hw, trimEnd_eq_self.mpr hnew.last] at hkey'
      exact absurd hkey'.symm hne
    · rw [hcore, List.append_nil]
  · exact absurd (List.mem_append_left _ hmem) heq

/-- **A header is a header of the old package for at most two rounds.** -/
theorem rename_header_twice (hold : Key old) (hnew : Key new) (hne : old ≠ new) (h : ReadsOf false old l)
    (h' : ReadsOf false old (renameLine old new l)) :
    ¬ ReadsOf false old (renameLine old new (renameLine old new l)) := by
  intro h''
  have heq : '=' ∉ core (renameLine old new l) := fun heq => rename_header_eq hold hnew hne h' heq h''
  have hcore := rename_header_plain hold hnew hne h h' heq
  have hfree : '=' ∉ new := hcore ▸ heq
  obtain ⟨u, hu, _, hcore'⟩ := h'.renamed hold hnew
  rcases renamedRest_cases new u (commentTail (trim (renameLine old new l))) with hr | ⟨hmem, _⟩
  · rw [hr] at hcore'
    have hu' : '=' ∉ u := fun hm => heq (by rw [hu]; exact List.mem_append_right _ hm)
    have heq' : '=' ∉ core (renameLine old new (renameLine old new l)) := by
      rw [hcore']
      exact fun hm => (List.mem_append.mp hm).elim hfree hu'
    -- a third header would have nothing behind the name, and so be the old one
    have hsame := rename_header_plain hold hnew hne h' h'' heq'
    have hnil : u = [] := by simpa using hcore'.symm.trans hsame
    rw [hcore, hnil, List.append_nil] at hu
    exact hne hu.symm
  · exact absurd hmem hfree

/-! ## Whether the renamed line reads as it did -/

/-- The same line of another package. -/
def OuterLine.withKey (new : Str) : OuterLine → OuterLine
  | .rule _ cpus opens => .rule new cpus opens
  | .bareOpen _ => .bareOpen new
  | .pending _ => .pending new
  | .single _ thread cpus opens => .single new thread cpus opens
  | .junk => .junk

/-- What stands behind the old key, without the comment. -/
def behindKey (old l : Str) : Str := (core l).drop old.length

/-- An `=` in the new key does no harm where one follows it, or where `rule_rename` may put one. -/
def EqSafe (old new l : Str) : Prop := '=' ∈ new → '=' ∈ behindKey old l ∨ commentAt (trim l) = none

/-- **When a line is renamed safely**, by what it reads as. -/
def RenameSafe (old new l : Str) : Prop :=
  match parseOuter (trim l) with
  | .single _ _ _ _ => '{' ∉ new
  | .rule _ _ opens => opens = true ∨ closeLike (new ++ behindKey old l) = false
  | .bareOpen _ => EqSafe old new l
  | .pending _ => EqSafe old new l ∧ closeLike (new ++ behindKey old l) = false ∧
      ('=' ∉ new → '=' ∉ behindKey old l → new.getLast? ≠ some '{')
  | .junk => True

instance (old new l : Str) : Decidable (RenameSafe old new l) := by
  unfold RenameSafe EqSafe
  split <;> infer_instance

/-- The names of a rename, as far as their form goes. -/
structure RenameKeys (old new : Str) : Prop where
  oldKey : Key old
  newKey : Key new
  shape : ¬ ('{' ∈ new ∧ new.getLast? = some '}')

theorem singleKey_shape (hnew : Key new) (hshape : ¬ ('{' ∈ new ∧ new.getLast? = some '}')) (hw : Blank w) :
    singleKey (new ++ w) = none := by
  cases hs : singleKey (new ++ w) with
  | none => rfl
  | some key =>
    obtain ⟨a, b, w₁, w₂, he, _, _, hw₂, _⟩ := singleKey_eq_some hs
    have hend : new = (a ++ '{' :: (b ++ w₁)) ++ ['}'] := by
      have h := congrArg trimEnd he
      rw [trimEnd_append hw, trimEnd_eq_self.mpr hnew.last,
        show a ++ '{' :: (b ++ (w₁ ++ '}' :: w₂)) = (a ++ '{' :: (b ++ w₁)) ++ '}' :: w₂ by simp,
        trimEnd_append_cons (by decide), trimEnd_eq_nil.mpr hw₂] at h
      exact h
    refine absurd ⟨?_, ?_⟩ hshape
    · rw [hend]
      simp
    · rw [hend, List.getLast?_concat]

/-- A header with a value behind the new key and some blanks. -/
theorem parseCore_renamed (hk : RenameKeys old new) (hw : Blank w) (hv : '=' ∉ v)
    (hcl : valueOpens v = true ∨ closeLike (new ++ (w ++ '=' :: v)) = false) :
    parseCore (new ++ (w ++ '=' :: v)) = headOf new v := by
  rw [← List.append_assoc, closeLike_pair] at hcl
  rw [← List.append_assoc, parseCore_pair hv]
  exact parsePair_head (singleKey_shape hk.newKey hk.shape hw) hcl
    (by rw [trim_append_blank hw, trim_of_solid hk.newKey.head hk.newKey.last])

/-- An `=` in the name settles whether it begins like a stray close. -/
theorem closeLike_of_eq {x : Str} (h : '=' ∈ new) : closeLike (new ++ x) = closeLike new := by
  match new with
  | [] => cases h
  | [c] =>
    obtain rfl := List.mem_singleton.mp h
    rfl
  | [c, d] =>
    by_cases hc : c = '}'
    · subst hc
      obtain rfl : '=' = d := by simpa using h
      simp [closeLike, List.isPrefixOf]
    · simp [closeLike, hc]
  | c :: d :: e :: r =>
    by_cases hc : c = '}'
    · subst hc
      simp [closeLike, List.isPrefixOf]
    · simp [closeLike, hc]

theorem renamedRest_nil {u : Str} (heq : '=' ∈ new) :
    renamedRest new u [] =
      if trim u = [] ∨ trim u = ['='] then ['='] else if trim u = ['{'] then ['=', ' ', '{'] else u := by
  rw [renamedRest, if_pos rfl, renameTail, if_pos heq]

theorem renamedRest_plain {u : Str} (heq : '=' ∉ new) : renamedRest new u t = u := by
  rcases renamedRest_cases new u t with h | ⟨h, _⟩
  · exact h
  · exact absurd h heq

/-- The special tail of a header that ends in its `=` is that `=`. -/
theorem blank_value (hl : LastSolid (k ++ (w ++ '=' :: v))) (hw : Blank w) (h : trim (w ++ '=' :: v) = ['=']) :
    v = [] := by
  have hend : trim (w ++ '=' :: v) = '=' :: trimEnd v := by
    rw [trim_blank_append hw, trim, trimStart_eq_self.mpr (by intro c hc; obtain rfl := Option.some.inj hc; decide)]
    exact trimEnd_append_cons (by decide) [] v
  rw [hend] at h
  have hlast : LastSolid (['='] ++ v) := hl.of_append.of_append
  rw [← trimEnd_eq_self.mpr hlast.of_append]
  simpa using h

/-- A header with an `=`, renamed. -/
theorem rename_pair (hk : RenameKeys old new) (hl : LastSolid (old ++ (w ++ '=' :: v))) (hw : Blank w) (hv : '=' ∉ v)
    (hcl : valueOpens v = true ∨ closeLike (new ++ (w ++ '=' :: v)) = false) :
    parseCore (new ++ renamedRest new (w ++ '=' :: v) t) = headOf new v := by
  have hin : '=' ∈ trim (w ++ '=' :: v) := mem_trim_of_mem (by simp) (by decide)
  rcases renamedRest_cases new (w ++ '=' :: v) t with hr | ⟨heq, _, ⟨h | h, hr⟩ | ⟨h, _⟩⟩
  · rw [hr]
    exact parseCore_renamed hk hw hv hcl
  · rw [h] at hin
    cases hin
  · obtain rfl := blank_value hl hw h
    rw [hr]
    refine parseCore_renamed hk blank_nil (by simp) (.inr ?_)
    rw [closeLike_of_eq heq] at hcl ⊢
    exact hcl.resolve_left (by decide)
  · rw [h] at hin
    simp at hin

/-- A bare header with its brace, renamed. -/
theorem rename_brace (hk : RenameKeys old new) (hw : Blank w) (hc : '=' ∈ new → t = []) :
    parseCore (new ++ renamedRest new (w ++ ['{']) t) = .bareOpen new := by
  by_cases heq : '=' ∈ new
  · have htrim : trim (w ++ ['{']) = ['{'] := by
      rw [trim_blank_append hw]
      decide
    rw [hc heq, renamedRest_nil heq, htrim, if_neg (by decide), if_pos rfl]
    exact parseCore_renamed hk (w := []) (v := [' ', '{']) blank_nil (by decide) (.inl (by decide))
  · have hfree : '=' ∉ new ++ (w ++ ['{']) := fun hm => by
      rcases List.mem_append.mp hm with hm | hm
      · exact heq hm
      · rcases List.mem_append.mp hm with hm | hm
        · exact absurd (hw _ hm) (by decide)
        · simp at hm
    rw [renamedRest_plain heq, parseCore_plain hfree, if_pos (by simp [valueOpens]), ← List.append_assoc,
      List.dropLast_concat, trimEnd_append hw, trimEnd_eq_self.mpr hk.newKey.last]

/-- A bare name, renamed. -/
theorem rename_plain (hk : RenameKeys old new) (hc : '=' ∈ new → t = []) (hcl : closeLike new = false)
    (hopen : '=' ∉ new → new.getLast? ≠ some '{') : parseCore (new ++ renamedRest new [] t) = .pending new := by
  by_cases heq : '=' ∈ new
  · rw [hc heq, renamedRest_nil heq, trim_nil, if_pos (.inl rfl)]
    exact parseCore_renamed hk (w := []) (v := []) blank_nil (by simp) (.inr (by rw [closeLike_of_eq heq]; exact hcl))
  · rw [renamedRest_plain heq, List.append_nil, parseCore_plain heq, if_neg (by simp [valueOpens, hopen heq]), hcl]
    rfl

/-- A single-line rule, renamed. -/
theorem rename_one (hk : RenameKeys old new) {b w₁ w₂ : Str} (hw : Blank w) (hw₁ : Blank w₁) (hw₂ : Blank w₂)
    (hb : trim b ≠ []) (hv : '=' ∉ v) (hopen : '{' ∉ new) :
    parseCore (new ++ renamedRest new (w ++ '{' :: (b ++ (w₁ ++ '}' :: w₂)) ++ '=' :: v) t) =
      .single new (trim b) (valueText v) (valueOpens v) := by
  have hfree : '{' ∉ new ++ w := fun hm => (List.mem_append.mp hm).elim hopen fun hm =>
    absurd (hw _ hm) (by decide)
  have hname : trim (new ++ w) = new := by
    rw [trim_append_blank hw, trim_of_solid hk.newKey.head hk.newKey.last]
  have hkey : singleKey ((new ++ w) ++ '{' :: ((b ++ w₁) ++ '}' :: w₂)) = some (new, trim b) := by
    rw [singleKey_of_shape hfree hw₂ (by rw [hname]; exact hk.newKey.ne) (by rwa [trim_append_blank hw₁]), hname,
      trim_append_blank hw₁]
  rw [renamedRest_single (by simp), show new ++ (w ++ '{' :: (b ++ (w₁ ++ '}' :: w₂)) ++ '=' :: v)
    = ((new ++ w) ++ '{' :: ((b ++ w₁) ++ '}' :: w₂)) ++ '=' :: v by simp, parseCore_pair hv, parsePair, hkey]

/-- **A line renamed safely** is the same line of the new package. -/
theorem parse_rename (hk : RenameKeys old new) (hkey : (parseOuter (trim l)).key = old) (hsafe : RenameSafe old new l) :
    skipped (trim (renameLine old new l)) = false ∧
      parseOuter (trim (renameLine old new l)) = (parseOuter (trim l)).withKey new := by
  have hcorekey : (parseCore (core l)).key = old := hkey
  obtain ⟨u, hu, hrest⟩ := key_rest (l := l) rfl (by rw [hcorekey]; exact hk.oldKey.ne)
  rw [hcorekey] at hu hrest
  have hcore := core_rename hk.oldKey hk.newKey hu hrest
  have hbehind : behindKey old l = u := by rw [behindKey, hu, List.drop_left]
  have hlast := lastSolid_core l
  rw [hu] at hlast
  have htail : commentAt (trim l) = none → commentTail (trim l) = [] := fun h => by simp [commentTail, h]
  refine ⟨?_, ?_⟩
  · rw [skipped_core, hcore]
    refine renamed_shown hk.newKey hrest ?_
    rcases renamedRest_cases new u (commentTail (trim l)) with hr | ⟨_, _, ⟨_, hr⟩ | ⟨_, hr⟩⟩
    · exact .inl hr
    · exact .inr (by rw [hr]; rfl)
    · exact .inr (by rw [hr]; rfl)
  rw [parseOuter_core, hcore]
  unfold RenameSafe EqSafe at hsafe
  rw [hbehind] at hsafe
  rw [parseOuter_core] at hsafe ⊢
  generalize parseCore (core l) = r at hrest hsafe ⊢
  cases hrest with
  | @pair w v hw hv =>
    unfold headOf at hsafe ⊢
    split
    · next hempty =>
      rw [if_pos hempty] at hsafe
      split
      · next hopens =>
        refine (rename_pair hk hlast hw hv (.inl hopens)).trans ?_
        rw [headOf, if_pos hempty, if_pos hopens, OuterLine.withKey]
      · next hopens =>
        rw [if_neg hopens] at hsafe
        refine (rename_pair hk hlast hw hv (.inr hsafe.2.1)).trans ?_
        rw [headOf, if_pos hempty, if_neg hopens, OuterLine.withKey]
    · next hempty =>
      rw [if_neg hempty] at hsafe
      refine (rename_pair hk hlast hw hv hsafe).trans ?_
      rw [headOf, if_neg hempty, OuterLine.withKey]
  | @brace w hw hfree =>
    refine rename_brace hk hw fun heq => htail ((hsafe heq).resolve_left fun hm => ?_)
    rcases List.mem_append.mp hm with hm | hm
    · exact absurd (hw _ hm) (by decide)
    · simp at hm
  | plain hfree =>
    obtain ⟨heqsafe, hcl, hopen⟩ := hsafe
    rw [List.append_nil] at hcl
    exact rename_plain hk (fun heq => htail ((heqsafe heq).resolve_left (by simp))) hcl fun heq => hopen heq (by simp)
  | @single w b w₁ w₂ v hw hw₁ hw₂ hb hv => exact rename_one hk hw hw₁ hw₂ hb hv hsafe

end AppOptR
