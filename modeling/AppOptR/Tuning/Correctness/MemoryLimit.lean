import AppOptR.Cpuset.Meaning
import AppOptR.Tuning.Correctness.RoundTrip

/-!
# `Tuning.Correctness.MemoryLimit` — the grammar of `memory_limit`

`memory_limit` tries twelve overlapping suffixes in order, then looks at the digits, then multiplies with a check.
`MemoryText` is the grammar it accepts: digits and a unit. On a text of the grammar the suffix found is the whole
unit (`splitUnit_append`), since no suffix reaches into the digits and the order puts every unit before its own
suffixes; on any text what is found is a unit (`splitUnit_spec`).
-/

namespace AppOptR

open Text Json

variable {s t digits unit : Str} {e n : Nat}

/-! ## The grammar -/

/-- A unit and its power of 1024: one of four letters, alone or with `b` or `ib`; or no unit. -/
inductive IsUnit : Str → Nat → Prop
  | bytes : IsUnit [] 0
  | short {c : Char} {e : Nat} (h : (c, e) ∈ [('k', 1), ('m', 2), ('g', 3), ('t', 4)]) : IsUnit [c] e
  | si {c : Char} {e : Nat} (h : (c, e) ∈ [('k', 1), ('m', 2), ('g', 3), ('t', 4)]) : IsUnit [c, 'b'] e
  | iec {c : Char} {e : Nat} (h : (c, e) ∈ [('k', 1), ('m', 2), ('g', 3), ('t', 4)]) : IsUnit [c, 'i', 'b'] e

/-- The text is a number with a unit, and stands for `n` bytes. -/
def MemoryText (t : Str) (n : Nat) : Prop :=
  ∃ digits unit e, t = digits ++ unit ∧ digits ≠ [] ∧ allDigits digits = true ∧ IsUnit unit e ∧
    n = number digits * 1024 ^ e

/-- What `memory_limit` cuts a text into: what stands before the unit, and the multiplier. -/
def splitUnit (t : Str) : Str × Nat :=
  (memorySuffixes.findSome? fun (suffix, m) => (stripSuffixStr suffix t).map (·, m)).getD (t, 1)

/-! ## Suffixes -/

theorem stripSuffixStr_eq_some {suffix a : Str} : stripSuffixStr suffix s = some a ↔ s = a ++ suffix := by
  unfold stripSuffixStr
  constructor
  · intro h
    split at h
    · next hsuf =>
      obtain ⟨b, rfl⟩ := List.isSuffixOf_iff_suffix.mp hsuf
      rw [List.length_append, Nat.add_sub_cancel, List.take_left, Option.some.injEq] at h
      rw [h]
    · cases h
  · rintro rfl
    rw [if_pos (List.isSuffixOf_iff_suffix.mpr (List.suffix_append a suffix)), List.length_append,
      Nat.add_sub_cancel, List.take_left]

theorem memorySuffixes_letters : ∀ p ∈ memorySuffixes, ∀ c ∈ p.1, c.isDigit = false := by
  simp [memorySuffixes]

/-- A suffix of letters does not reach into the digits. -/
theorem stripSuffixStr_digits {suffix : Str} (hd : allDigits digits = true)
    (hs : ∀ c ∈ suffix, c.isDigit = false) :
    stripSuffixStr suffix (digits ++ unit) = (stripSuffixStr suffix unit).map (digits ++ ·) := by
  cases hu : stripSuffixStr suffix unit with
  | some a =>
    rw [stripSuffixStr_eq_some.mp hu, Option.map_some, stripSuffixStr_eq_some, List.append_assoc]
  | none =>
    rw [Option.map_none]
    cases h : stripSuffixStr suffix (digits ++ unit) with
    | none => rfl
    | some a =>
      have hsame := stripSuffixStr_eq_some.mp h
      rcases List.append_eq_append_iff.mp hsame with ⟨b, rfl, hb⟩ | ⟨b, hb, hb'⟩
      · -- the unit holds the whole suffix
        rw [hb, stripSuffixStr_eq_some.mpr rfl] at hu
        cases hu
      · -- a part of the digits would be in the suffix
        cases b with
        | nil =>
          rw [List.nil_append] at hb'
          rw [hb', stripSuffixStr_eq_some.mpr (List.nil_append _).symm] at hu
          cases hu
        | cons c b =>
          have hin : c ∈ suffix := by simp [hb']
          have hdig : c ∈ digits := by simp [hb]
          have hletter := hs c hin
          rw [allDigits_mem hd hdig] at hletter
          cases hletter

/-- The order of the suffixes: every unit is found before a suffix of it. -/
theorem memorySuffixes_first : ∀ p ∈ memorySuffixes,
    (memorySuffixes.findSome? fun (suffix, m) => (stripSuffixStr suffix p.1).map (·, m)) = some ([], p.2) := by
  decide +kernel

/-- A unit with a letter is one of the suffixes, and its multiplier is the power of 1024. -/
theorem IsUnit.suffix (h : IsUnit unit e) : unit = [] ∧ e = 0 ∨ (unit, 1024 ^ e) ∈ memorySuffixes := by
  cases h with
  | bytes => exact .inl ⟨rfl, rfl⟩
  | short h | si h | iec h =>
    simp only [List.mem_cons, Prod.mk.injEq, List.not_mem_nil, or_false] at h
    rcases h with ⟨rfl, rfl⟩ | ⟨rfl, rfl⟩ | ⟨rfl, rfl⟩ | ⟨rfl, rfl⟩ <;> exact .inr (by decide +kernel)

theorem isUnit_of_suffix {m : Nat} (h : (unit, m) ∈ memorySuffixes) : ∃ e, IsUnit unit e ∧ m = 1024 ^ e := by
  simp only [memorySuffixes, List.mem_cons, Prod.mk.injEq, List.not_mem_nil, or_false] at h
  rcases h with h | h | h | h | h | h | h | h | h | h | h | h <;> obtain ⟨rfl, rfl⟩ := h
  · exact ⟨4, .iec (by decide), rfl⟩
  · exact ⟨4, .si (by decide), rfl⟩
  · exact ⟨4, .short (by decide), rfl⟩
  · exact ⟨3, .iec (by decide), rfl⟩
  · exact ⟨3, .si (by decide), rfl⟩
  · exact ⟨3, .short (by decide), rfl⟩
  · exact ⟨2, .iec (by decide), rfl⟩
  · exact ⟨2, .si (by decide), rfl⟩
  · exact ⟨2, .short (by decide), rfl⟩
  · exact ⟨1, .iec (by decide), rfl⟩
  · exact ⟨1, .si (by decide), rfl⟩
  · exact ⟨1, .short (by decide), rfl⟩

/-- **What is cut off is a unit**, and the multiplier is its power of 1024. -/
theorem splitUnit_spec (t : Str) :
    ∃ unit e, t = (splitUnit t).1 ++ unit ∧ IsUnit unit e ∧ (splitUnit t).2 = 1024 ^ e := by
  unfold splitUnit
  cases h : memorySuffixes.findSome? fun (suffix, m) => (stripSuffixStr suffix t).map (·, m) with
  | none => exact ⟨[], 0, (List.append_nil t).symm, .bytes, rfl⟩
  | some p =>
    obtain ⟨⟨suffix, m⟩, hmem, hp⟩ := List.exists_of_findSome?_eq_some h
    obtain ⟨a, ha, rfl⟩ := Option.map_eq_some_iff.mp hp
    obtain ⟨e, hunit, hm⟩ := isUnit_of_suffix hmem
    exact ⟨suffix, e, stripSuffixStr_eq_some.mp ha, hunit, hm⟩

/-- **The whole unit of a text of the grammar is cut off.** -/
theorem splitUnit_append (hd : allDigits digits = true) (hunit : IsUnit unit e) :
    splitUnit (digits ++ unit) = (digits, 1024 ^ e) := by
  have hshift : ∀ l : List (Str × Nat), (∀ p ∈ l, p ∈ memorySuffixes) →
      (l.findSome? fun (suffix, m) => (stripSuffixStr suffix (digits ++ unit)).map (·, m))
        = (l.findSome? fun (suffix, m) => (stripSuffixStr suffix unit).map (·, m)).map
            fun p => (digits ++ p.1, p.2) := by
    intro l hl
    induction l with
    | nil => rfl
    | cons p l ih =>
      obtain ⟨suffix, m⟩ := p
      have hletters := memorySuffixes_letters (suffix, m) (hl _ (by simp))
      rw [List.findSome?_cons, List.findSome?_cons]
      dsimp only
      rw [stripSuffixStr_digits hd hletters]
      cases stripSuffixStr suffix unit with
      | none => exact ih fun q hq => hl q (List.mem_cons_of_mem _ hq)
      | some a => rfl
  unfold splitUnit
  rw [hshift _ fun _ h => h]
  rcases hunit.suffix with ⟨rfl, rfl⟩ | hmem
  · rw [memorySuffixes_digits (s := []) rfl]
    simp
  · rw [memorySuffixes_first _ hmem]
    simp

/-! ## Lower case -/

theorem toLower_cases (c : Char) : c.toLower = c ∨ 65 ≤ c.toNat ∧ c.toNat ≤ 90 ∧ c.toLower.toNat = c.toNat + 32 := by
  unfold Char.toLower
  split
  · next h =>
    refine .inr ⟨?_, ?_, ?_⟩
    · exact UInt32.le_iff_toNat_le.mp h.1
    · exact UInt32.le_iff_toNat_le.mp h.2
    · have h₂ : c.val.toNat ≤ 90 := UInt32.le_iff_toNat_le.mp h.2
      show (c.val + 32).toNat = c.val.toNat + 32
      rw [UInt32.toNat_add]
      exact Nat.mod_eq_of_lt (by show c.val.toNat + 32 < 2 ^ 32; omega)
  · exact .inl rfl

theorem utf8Size_ascii {c : Char} (h : c.toNat ≤ 127) : c.utf8Size = 1 := by
  have hle : c.val ≤ 0x7f := by
    rw [UInt32.le_iff_toNat_le]
    exact h
  simp [Char.utf8Size, hle]

/-- Lowering the case keeps the length in bytes. -/
theorem byteLen_toLower (s : Str) : byteLen (s.map Char.toLower) = byteLen s := by
  have hsize : ∀ c : Char, c.toLower.utf8Size = c.utf8Size := by
    intro c
    rcases toLower_cases c with h | ⟨h₁, h₂, h₃⟩
    · rw [h]
    · rw [utf8Size_ascii (by omega), utf8Size_ascii (by omega)]
  unfold byteLen
  rw [List.map_map]
  exact congrArg List.sum (List.map_congr_left fun c _ => hsize c)

/-- A control character stays one. -/
theorem isControl_toLower (c : Char) : isControl c.toLower = isControl c := by
  rcases toLower_cases c with h | ⟨h₁, h₂, h₃⟩
  · rw [h]
  · simp only [isControl, h₃]
    have h₄ : c.toNat ≠ 127 := by omega
    have h₅ : c.toNat ≠ 95 := by omega
    have h₆ : ¬ c.toNat < 32 := by omega
    have h₇ : ¬ c.toNat + 32 < 32 := by omega
    simp [h₄, h₅, h₆, h₇]

/-- No text of the grammar has a control character. -/
theorem MemoryText.clean (h : MemoryText t n) : ∀ c ∈ t, isControl c = false := by
  obtain ⟨digits, unit, e, rfl, _, hd, hunit, _⟩ := h
  intro c hc
  rcases List.mem_append.mp hc with hc | hc
  · exact (digit_plain (allDigits_mem hd hc)).2.1
  · have hletters : ∀ p ∈ memorySuffixes, ∀ c ∈ p.1, isControl c = false := by simp [memorySuffixes, isControl]
    rcases hunit.suffix with ⟨rfl, _⟩ | hmem
    · cases hc
    · exact hletters _ hmem c hc

theorem MemoryText.ne (h : MemoryText t n) : t ≠ [] ∧ t ≠ "max".toList := by
  obtain ⟨digits, unit, e, rfl, hne, hd, _, _⟩ := h
  obtain ⟨c, rest, rfl⟩ := List.exists_cons_of_ne_nil hne
  refine ⟨by simp, fun he => ?_⟩
  have hc : c = 'm' := (List.cons.inj he).1
  have hdigit := allDigits_mem hd (List.mem_cons_self)
  rw [hc] at hdigit
  revert hdigit
  decide

/-! ## The reader -/

/-- The result on a text that is neither empty nor `max`. -/
theorem memoryText_iff {d : Str} :
    (¬ ((splitUnit t).1.isEmpty || !allDigits (splitUnit t).1) = true ∧
      ((parseUnsigned 64 (splitUnit t).1).bind fun n =>
        if n * (splitUnit t).2 < 2 ^ 64 then some (n * (splitUnit t).2) else none) = some n ∧
      d = Nat.toDigits 10 n) ↔ MemoryText t n ∧ n < 2 ^ 64 ∧ d = Nat.toDigits 10 n := by
  constructor
  · rintro ⟨hok, hbytes, hd⟩
    obtain ⟨unit, e, ht, hunit, hm⟩ := splitUnit_spec t
    simp only [Bool.or_eq_true, List.isEmpty_iff, Bool.not_eq_true', not_or, Bool.not_eq_false] at hok
    rw [parseUnsigned_digits hok.2 hok.1, hm] at hbytes
    split at hbytes
    · rw [Option.bind_some] at hbytes
      split at hbytes
      · next hlt =>
        obtain rfl := Option.some.inj hbytes
        exact ⟨⟨_, unit, e, ht, hok.1, hok.2, hunit, rfl⟩, hlt, hd⟩
      · cases hbytes
    · cases hbytes
  · rintro ⟨⟨digits, unit, e, rfl, hne, hdig, hunit, rfl⟩, hlt, hd⟩
    rw [splitUnit_append hdig hunit]
    have hpos : 1 ≤ 1024 ^ e := Nat.one_le_pow _ _ (by decide)
    have hnum : number digits < 2 ^ 64 := lt_of_le_of_lt (Nat.le_mul_of_pos_right _ hpos) hlt
    refine ⟨by simp [hne, hdig], ?_, hd⟩
    rw [parseUnsigned_digits hdig hne, if_pos hnum, Option.bind_some, if_pos hlt]

/-- The text `memory_limit` looks at. -/
def limitText (s : Str) : Str := (trim s).map Char.toLower

/-- What `memory_limit` makes of a text: `d` is the value it returns. -/
def LimitValue (allowMax : Bool) (t d : Str) : Prop :=
  t = "max".toList ∧ allowMax = true ∧ d = "max".toList ∨
    byteLen t < 64 ∧ ∃ n, MemoryText t n ∧ n < 2 ^ 64 ∧ d = Nat.toDigits 10 n

/-- The reader on a string field that is neither blank, too long nor unclean. -/
theorem memoryLimit_text {value : Value} {field : Str} {allowMax : Bool} (h : value.get field = some (.string s))
    (hne : trim s ≠ []) (hlen : byteLen (trim s) < 64) (hclean : (trim s).any isControl = false) :
    memoryLimit value field allowMax =
      if limitText s = "max".toList then
        if allowMax then .ok (some "max".toList) else .error (msg "" field " 不支持 max")
      else if (splitUnit (limitText s)).1.isEmpty || !allDigits (splitUnit (limitText s)).1 then
        .error (msg "" field " 应为字节数或 512M / 1G 形式")
      else
        match (parseUnsigned 64 (splitUnit (limitText s)).1).bind fun n =>
          if n * (splitUnit (limitText s)).2 < 2 ^ 64 then some (n * (splitUnit (limitText s)).2) else none with
        | none => .error (msg "" field " 数值过大")
        | some bytes => .ok (some (Nat.toDigits 10 bytes)) := by
  have hread : optionalString value field 64 = .ok (some (trim s)) := by
    unfold optionalString optionalField
    rw [h]
    dsimp only [Value.asStr]
    rw [if_neg (by simpa using hne), if_neg (by simp [hlen, hclean])]
  unfold memoryLimit
  rw [hread]
  rfl

/-- A text that is too long or unclean is refused. -/
theorem memoryLimit_refused {value : Value} {field : Str} {allowMax : Bool}
    (h : value.get field = some (.string s)) (hne : trim s ≠ [])
    (hbad : 64 ≤ byteLen (trim s) ∨ (trim s).any isControl = true) :
    memoryLimit value field allowMax = .error (msg "" field " 格式无效") := by
  have hread : optionalString value field 64 = .error (msg "" field " 格式无效") := by
    unfold optionalString optionalField
    rw [h]
    dsimp only [Value.asStr]
    rw [if_neg (by simpa using hne), if_pos (by simpa using hbad)]
  unfold memoryLimit
  rw [hread]

/-- A value of the grammar is short and clean. -/
theorem LimitValue.text {allowMax : Bool} {d : Str} (h : LimitValue allowMax (limitText s) d) :
    trim s ≠ [] ∧ byteLen (trim s) < 64 ∧ (trim s).any isControl = false := by
  have hparts : limitText s ≠ [] ∧ byteLen (limitText s) < 64 ∧ ∀ c ∈ limitText s, isControl c = false := by
    rcases h with ⟨ht, _, _⟩ | ⟨hlen, n, ht, _, _⟩
    · rw [ht]
      exact ⟨by decide, by decide, by simp [isControl]⟩
    · exact ⟨ht.ne.1, hlen, ht.clean⟩
  obtain ⟨hne, hlen, hclean⟩ := hparts
  refine ⟨fun hnil => hne (by rw [limitText, hnil]; rfl), byteLen_toLower (trim s) ▸ hlen, ?_⟩
  rw [List.any_eq_false]
  intro c hc
  rw [Bool.not_eq_true, ← isControl_toLower c]
  exact hclean _ (List.mem_map_of_mem hc)

/-- **The values `memory_limit` returns.** -/
theorem memoryLimit_some {value : Value} {field : Str} {allowMax : Bool} {d : Str}
    (h : value.get field = some (.string s)) :
    memoryLimit value field allowMax = .ok (some d) ↔ LimitValue allowMax (limitText s) d := by
  by_cases hne : trim s = []
  · have hread : optionalString value field 64 = .ok none := by
      unfold optionalString optionalField
      rw [h]
      dsimp only [Value.asStr]
      rw [if_pos (by simpa using hne)]
    have hnone : memoryLimit value field allowMax = .ok none := by
      unfold memoryLimit
      rw [hread]
    rw [hnone]
    exact ⟨fun he => (by cases he), fun hv => absurd hne hv.text.1⟩
  -- refused before the grammar is looked at
  by_cases hbad : 64 ≤ byteLen (trim s) ∨ (trim s).any isControl = true
  · rw [memoryLimit_refused h hne hbad]
    refine ⟨fun he => (by cases he), fun hv => ?_⟩
    obtain ⟨_, hlen, hclean⟩ := hv.text
    rcases hbad with hb | hb
    · omega
    · rw [hclean] at hb
      cases hb
  obtain ⟨hlen, hclean⟩ := not_or.mp hbad
  rw [not_le] at hlen
  rw [Bool.not_eq_true] at hclean
  rw [memoryLimit_text h hne hlen hclean]
  have hlen' : byteLen (limitText s) < 64 := (byteLen_toLower (trim s)).symm ▸ hlen
  unfold LimitValue
  by_cases hmax : limitText s = "max".toList
  · rw [if_pos hmax]
    have hno : ¬ (byteLen (limitText s) < 64 ∧
        ∃ n, MemoryText (limitText s) n ∧ n < 2 ^ 64 ∧ d = Nat.toDigits 10 n) := by
      rintro ⟨_, n, ht, _⟩
      exact ht.ne.2 hmax
    rw [or_iff_left hno]
    cases allowMax with
    | true => simp [hmax, eq_comm]
    | false => simp
  · rw [if_neg hmax]
    simp only [hmax, false_and, false_or, hlen', true_and, ← memoryText_iff]
    -- digits and a unit, or an error
    by_cases hok : ((splitUnit (limitText s)).1.isEmpty || !allDigits (splitUnit (limitText s)).1) = true
    · rw [if_pos hok]
      refine ⟨fun he => (by cases he), ?_⟩
      rintro ⟨n, hno, _⟩
      exact absurd hok hno
    · rw [if_neg hok]
      cases (parseUnsigned 64 (splitUnit (limitText s)).1).bind fun n =>
          if n * (splitUnit (limitText s)).2 < 2 ^ 64 then some (n * (splitUnit (limitText s)).2) else none with
      | none => simp
      | some bytes =>
        simp only [Except.ok.injEq, Option.some.injEq]
        constructor
        · rintro rfl
          exact ⟨bytes, hok, rfl, rfl⟩
        · rintro ⟨n, _, rfl, rfl⟩
          rfl

/-- **`memory_limit` accepts exactly its grammar** and returns exactly its value. -/
theorem memory_limit_exact (value : Value) (field s : Str) (allowMax : Bool)
    (h : value.get field = some (.string s)) :
    (memoryLimit value field allowMax = .ok none ↔ limitText s = []) ∧
      (∀ d, memoryLimit value field allowMax = .ok (some d) ↔ LimitValue allowMax (limitText s) d) ∧
      ((∃ error, memoryLimit value field allowMax = .error error) ↔
        limitText s ≠ [] ∧ ∀ d, ¬ LimitValue allowMax (limitText s) d) := by
  have hsome : ∀ d, memoryLimit value field allowMax = .ok (some d) ↔ LimitValue allowMax (limitText s) d :=
    fun d => memoryLimit_some h
  have hnone : memoryLimit value field allowMax = .ok none ↔ limitText s = [] := by
    have hblank : limitText s = [] ↔ trim s = [] := List.map_eq_nil_iff
    rw [hblank]
    constructor
    · intro hok
      by_contra hne
      by_cases hbad : 64 ≤ byteLen (trim s) ∨ (trim s).any isControl = true
      · rw [memoryLimit_refused h hne hbad] at hok
        cases hok
      obtain ⟨hlen, hclean⟩ := not_or.mp hbad
      rw [memoryLimit_text h hne (not_le.mp hlen) (by simpa using hclean)] at hok
      split at hok
      · split at hok <;> cases hok
      · split at hok
        · cases hok
        · split at hok <;> cases hok
    · intro hnil
      unfold memoryLimit optionalString optionalField
      rw [h]
      dsimp only [Value.asStr]
      rw [hnil]
      rfl
  refine ⟨hnone, hsome, ?_⟩
  constructor
  · rintro ⟨error, herr⟩
    refine ⟨fun hnil => ?_, fun d hd => ?_⟩
    · rw [hnone.mpr hnil] at herr
      cases herr
    · rw [(hsome d).mpr hd] at herr
      cases herr
  · rintro ⟨hne, hno⟩
    -- the three outcomes exclude each other, so the error is what is left
    cases hr : memoryLimit value field allowMax with
    | error error => exact ⟨error, rfl⟩
    | ok o =>
      cases o with
      | none => exact absurd (hnone.mp hr) hne
      | some d => exact absurd ((hsome d).mp hr) (hno d)

/-- A number with a unit, in capitals and between blanks. -/
theorem memory_limit_unit :
    memoryLimit (.object [("memory_high".toList, .string " 3MiB ".toList)]) "memory_high".toList false
      = .ok (some "3145728".toList) := by
  refine ((memory_limit_exact _ "memory_high".toList " 3MiB ".toList false rfl).2.1 _).mpr
    (.inr ⟨by decide, 3145728, ?_⟩)
  exact ⟨⟨"3".toList, "mib".toList, 2, by decide, by decide, by decide, .iec (by decide), by decide⟩,
    by decide, by decide⟩

end AppOptR
