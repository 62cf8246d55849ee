import AppOptR.Tuning.Config

/-!
# `Tuning.Correctness.RoundTrip` — `config_from_value` undoes `config_value`

What a configuration must satisfy to come back from its own JSON form: `Valid`, record by record. Each
reader only returns valid records (`…FromValue_valid`), and gives a valid record back when it reads its
printed form (`…FromValue_print`); the two meet in `configFromValue_valid` and `configFromValue_print`.
-/

namespace AppOptR

open Text Json

/-! ## Results -/

/-- A computation that succeeds, cut in two. -/
theorem bind_eq_ok {α β : Type} {x : Result α} {f : α → Result β} {b : β} :
    (x >>= f) = .ok b ↔ ∃ a, x = .ok a ∧ f a = .ok b := by
  cases x with
  | error e =>
    constructor
    · intro h
      cases h
    · rintro ⟨a, h, _⟩
      cases h
  | ok a =>
    constructor
    · intro h
      exact ⟨a, rfl, h⟩
    · rintro ⟨a', h, hf⟩
      cases h
      exact hf

/-- Every item that has been read stands for a document. -/
theorem mapM_ok_mem {α β : Type} {read : α → Result β} {items : List α} {bs : List β}
    (h : items.mapM read = .ok bs) {b : β} (hb : b ∈ bs) : ∃ a ∈ items, read a = .ok b := by
  induction items generalizing bs with
  | nil => cases h; cases hb
  | cons a items ih =>
    rw [List.mapM_cons] at h
    obtain ⟨b', hb', h⟩ := bind_eq_ok.mp h
    obtain ⟨bs', hbs', h⟩ := bind_eq_ok.mp h
    cases h
    rcases List.mem_cons.mp hb with rfl | hb
    · exact ⟨a, by simp, hb'⟩
    · obtain ⟨c, hc, hread⟩ := ih hbs' hb
      exact ⟨c, by simp [hc], hread⟩

/-- Items that are read back one by one are read back as a list. -/
theorem mapM_map_ok {α β : Type} {read : α → Result β} {print : β → α} {bs : List β}
    (h : ∀ b ∈ bs, read (print b) = .ok b) : (bs.map print).mapM read = .ok bs := by
  induction bs with
  | nil => rfl
  | cons b bs ih =>
    rw [List.map_cons, List.mapM_cons, h b (by simp), ih fun c hc => h c (by simp [hc])]
    rfl

/-! ## Valid configurations -/

/-- A trimmed text that passes a check. -/
def Checked (ok : Str → Bool) (s : Str) : Prop := trim s = s ∧ ok s = true

/-- A byte count in the form `memory_limit` returns it. -/
def LimitText (allowMax : Bool) (s : Str) : Prop :=
  (allowMax = true ∧ s = "max".toList) ∨ ∃ n, n < 2 ^ 64 ∧ s = Nat.toDigits 10 n

/-- A group that `memory_group_from_value` can return. -/
structure MemoryGroup.Valid (g : MemoryGroup) : Prop where
  name : Checked groupNameOk g.name
  path : Checked cgroupTemplateOk g.path
  swappiness : ∀ n ∈ g.swappiness, n.toNat ≤ 200
  memoryMin : ∀ s ∈ g.memoryMin, LimitText false s
  memoryLow : ∀ s ∈ g.memoryLow, LimitText false s
  memoryHigh : ∀ s ∈ g.memoryHigh, LimitText false s
  memoryMax : ∀ s ∈ g.memoryMax, LimitText true s

/-- A rule that `thread_rule_from_value` can return: within bounds, and it sets something. -/
structure ThreadTuneRule.Valid (r : ThreadTuneRule) : Prop where
  pattern : Checked threadPatternOk r.pattern
  uclampMin : ∀ n ∈ r.uclampMin, n.toNat ≤ 1024
  uclampMax : ∀ n ∈ r.uclampMax, n.toNat ≤ 1024
  nice : ∀ n ∈ r.nice, -20 ≤ n.toInt ∧ n.toInt ≤ 19
  set : (r.uclampMin.isNone && r.uclampMax.isNone && r.nice.isNone) = false
  ordered : (r.uclampMin.any fun min => r.uclampMax.any fun max => max < min) = false

/-- An entry that `app_from_value` can return. -/
structure AppTuneRule.Valid (app : AppTuneRule) : Prop where
  pkg : Checked packageNameOk app.pkg
  memoryGroup : ∀ g ∈ app.memoryGroup, Checked groupNameOk g
  threads : ∀ r ∈ app.threads, r.Valid
  used : (app.memoryGroup.isNone && app.threads.isEmpty) = false

/-- A profile that `config_from_value` can return: names are unique, and an entry refers to a group there is. -/
structure TuningConfig.Valid (c : TuningConfig) : Prop where
  groups : ∀ g ∈ c.memoryGroups, g.Valid
  groupNames : (c.memoryGroups.map (·.name)).Nodup
  apps : ∀ app ∈ c.apps, app.Valid
  packages : (c.apps.map (·.pkg)).Nodup
  references : ∀ app ∈ c.apps, ∀ g ∈ app.memoryGroup, g ∈ c.memoryGroups.map (·.name)

/-! ## Single fields -/

/-- A name that is read has passed its check. -/
theorem requiredName_ok {members : List (Str × Value)} {field err s : Str} {ok : Str → Bool}
    (h : requiredName members field ok err = .ok s) : Checked ok s := by
  unfold requiredName at h
  split at h
  · next s' hs =>
    cases h
    obtain ⟨hmem, hok⟩ := Option.filter_eq_some_iff.mp hs
    obtain ⟨t, _, rfl⟩ := Option.map_eq_some_iff.mp hmem
    exact ⟨trim_trim t, hok⟩
  · cases h

/-- A checked name is read back. -/
theorem requiredName_print {members : List (Str × Value)} {field err s : Str} {ok : Str → Bool}
    (hget : Value.lookup field members = some (.string s)) (h : Checked ok s) :
    requiredName members field ok err = .ok s := by
  have hfilter : (some s).filter ok = some s := Option.filter_eq_some_iff.mpr ⟨rfl, h.2⟩
  simp only [requiredName, hget, Option.bind_some, Value.asStr, Option.map_some, h.1, hfilter]

/-- A `null` is no value. -/
theorem optionalField_null {α : Type} {value : Value} {field : Str} {read : Value → Result (Option α)}
    (hget : value.get field = some .null) : optionalField value field read = .ok none := by
  simp [optionalField, hget]

/-- A value comes from the member. -/
theorem optionalField_ok {α : Type} {value : Value} {field : Str} {read : Value → Result (Option α)}
    {o : Option α} (h : optionalField value field read = .ok o) {a : α} (ha : a ∈ o) :
    ∃ v, read v = .ok o := by
  unfold optionalField at h
  split at h
  · cases h; cases ha
  · cases h; cases ha
  · exact ⟨_, h⟩

/-- A number that is read is within its bound. -/
theorem optionalU64_ok {value : Value} {field : Str} {max : Nat} {o : Option Nat}
    (h : optionalU64 value field max = .ok o) : ∀ n ∈ o, n ≤ max := by
  intro n hn
  obtain ⟨v, hv⟩ := optionalField_ok h hn
  split at hv
  · cases hv
  · split at hv
    · cases hv
    · cases hv
      cases hn
      omega

/-- A number within its bound is read back. -/
theorem optionalU64_print {value : Value} {field : Str} {max : Nat} {o : Option Nat} (hmax : max < 2 ^ 64)
    (hget : value.get field = some (optInt (o.map Int.ofNat))) (h : ∀ n ∈ o, n ≤ max) :
    optionalU64 value field max = .ok o := by
  cases o with
  | none => exact optionalField_null hget
  | some n =>
    have hle : n ≤ max := h n rfl
    have hread : Value.asU64 (.number (.int (.ofNat n))) = some n := if_pos (hle.trans_lt hmax)
    have hfield : value.get field = some (.number (.int (.ofNat n))) := hget.trans rfl
    have hnot : ¬ max < n := Nat.not_lt.mpr hle
    simp only [optionalU64, optionalField, hfield, hread, hnot, if_false]

/-- The same with a sign. -/
theorem optionalI64_ok {value : Value} {field : Str} {min max : Int} {o : Option Int}
    (h : optionalI64 value field min max = .ok o) : ∀ n ∈ o, min ≤ n ∧ n ≤ max := by
  intro n hn
  obtain ⟨v, hv⟩ := optionalField_ok h hn
  split at hv
  · cases hv
  · split at hv
    · next hrange =>
      cases hv
      cases hn
      exact hrange
    · cases hv

/-- The same with a sign. -/
theorem optionalI64_print {value : Value} {field : Str} {min max : Int} {o : Option Int}
    (hmin : -2 ^ 63 ≤ min) (hmax : max < 2 ^ 63) (hget : value.get field = some (optInt o))
    (h : ∀ n ∈ o, min ≤ n ∧ n ≤ max) : optionalI64 value field min max = .ok o := by
  cases o with
  | none => exact optionalField_null hget
  | some n =>
    obtain ⟨hlo, hhi⟩ := h n rfl
    have hrange : -2 ^ 63 ≤ n ∧ n < 2 ^ 63 := by omega
    have hread : Value.asI64 (.number (.int n)) = some n := if_pos hrange
    have hfield : value.get field = some (.number (.int n)) := hget.trans rfl
    simp only [optionalI64, optionalField, hfield, hread, hlo, hhi, and_self, if_true]

/-! ## Byte values -/

/-- A limit that is read is decimal text, or `max`. -/
theorem memoryLimit_ok {value : Value} {field : Str} {allowMax : Bool} {o : Option Str}
    (h : memoryLimit value field allowMax = .ok o) : ∀ s ∈ o, LimitText allowMax s := by
  intro s hs
  unfold memoryLimit at h
  split at h
  · cases h
  · cases h
    cases hs
  · dsimp only at h
    split at h
    · split at h
      · next hmax =>
        cases h
        cases hs
        exact .inl ⟨hmax, rfl⟩
      · cases h
    · split at h
      · cases h
      · split at h
        · cases h
        · next bytes hbytes =>
          cases h
          cases hs
          obtain ⟨n, _, hn⟩ := Option.bind_eq_some_iff.mp hbytes
          split at hn
          · next hlt =>
            cases hn
            exact .inr ⟨_, hlt, rfl⟩
          · cases hn

/-- A trimmed text within its length is read back. -/
theorem optionalString_print {value : Value} {field s : Str} {maxLen : Nat}
    (hget : value.get field = some (.string s)) (htrim : trim s = s) (hne : s ≠ [])
    (hlen : byteLen s < maxLen) (hctl : s.any isControl = false) :
    optionalString value field maxLen = .ok (some s) := by
  have hguard : (decide (maxLen ≤ byteLen s) || s.any isControl) = false := by simp [hlen, hctl]
  simp only [optionalString, optionalField, hget, Value.asStr, htrim, List.isEmpty_iff, hne, hguard,
    Bool.false_eq_true, if_false]

/-- No unit is a suffix of a number. -/
theorem memorySuffixes_digits {s : Str} (h : allDigits s = true) :
    (memorySuffixes.findSome? fun (suffix, m) => (stripSuffixStr suffix s).map (·, m)) = none := by
  have hlast : ∀ e ∈ memorySuffixes, ∃ c, e.1.getLast? = some c ∧ c.isDigit = false := by
    simp [memorySuffixes]
  rw [List.findSome?_eq_none_iff]
  intro e he
  obtain ⟨c, hc, hdigit⟩ := hlast e he
  have hnot : e.1.isSuffixOf s = false := by
    rw [Bool.eq_false_iff, Ne, List.isSuffixOf_iff_suffix]
    rintro ⟨t, rfl⟩
    have hmem : c ∈ t ++ e.1 := List.mem_append_right _ (List.mem_of_getLast? hc)
    rw [List.all_eq_true.mp h c hmem] at hdigit
    cases hdigit
  simp [stripSuffixStr, hnot]

/-- A limit is read back: decimal text stands for itself. -/
theorem memoryLimit_print {value : Value} {field : Str} {allowMax : Bool} {o : Option Str}
    (hget : value.get field = some (optValue o)) (h : ∀ s ∈ o, LimitText allowMax s) :
    memoryLimit value field allowMax = .ok o := by
  cases o with
  | none => simp only [memoryLimit, optionalString, optionalField_null hget]
  | some s =>
    have hget' : value.get field = some (.string s) := hget
    rcases h s rfl with ⟨rfl, rfl⟩ | ⟨n, hn, rfl⟩
    · have hread : optionalString value field 64 = .ok (some "max".toList) :=
        optionalString_print hget' (by decide) (by decide) (by decide) (by decide)
      unfold memoryLimit
      rw [hread]
      rfl
    · have hdigits : allDigits (Nat.toDigits 10 n) = true := toDigits_allDigits n
      obtain ⟨htrim, hctl, hlower, hlen⟩ := digits_plain hdigits
      have hne : Nat.toDigits 10 n ≠ [] := Nat.toDigits_ne_nil
      -- a 64-bit number has at most 20 digits
      have hshort : (Nat.toDigits 10 n).length ≤ 20 :=
        (Nat.length_toDigits_le_iff (by decide) (by decide)).mpr (hn.trans (by decide))
      have hread : optionalString value field 64 = .ok (some (Nat.toDigits 10 n)) :=
        optionalString_print hget' htrim hne (by omega) hctl
      have hmax : Nat.toDigits 10 n ≠ "max".toList := by
        intro he
        rw [he] at hdigits
        cases hdigits
      have hhead : (Nat.toDigits 10 n).head? ≠ some '+' := by
        intro hh
        have := List.all_eq_true.mp hdigits '+' (List.mem_of_head? hh)
        cases this
      have hparse : parseUnsigned 64 (Nat.toDigits 10 n) = some n := by
        simp only [parseUnsigned, hhead, if_false, List.isEmpty_iff, hne, hdigits, Bool.not_true,
          Bool.or_false, Nat.ofDigitChars_ten_toDigits, hn, if_true]
      unfold memoryLimit
      rw [hread]
      dsimp only
      rw [hlower, if_neg hmax, memorySuffixes_digits hdigits]
      simp only [Option.getD_none, List.isEmpty_iff, hne, hdigits, Bool.not_true, Bool.or_false,
        if_false, hparse, Option.bind_some, Nat.mul_one, hn, if_true]

/-! ## Records -/

/-- **A group that is read is valid.** -/
theorem memoryGroupFromValue_valid {value : Value} {g : MemoryGroup}
    (h : memoryGroupFromValue value = .ok g) : g.Valid := by
  unfold memoryGroupFromValue at h
  cases hobj : value.asObject with
  | none => rw [hobj] at h; cases h
  | some object =>
    rw [hobj] at h
    dsimp only at h
    obtain ⟨name, hname, h⟩ := bind_eq_ok.mp h
    obtain ⟨path, hpath, h⟩ := bind_eq_ok.mp h
    obtain ⟨swappiness, hswap, h⟩ := bind_eq_ok.mp h
    obtain ⟨memoryMin, hmin, h⟩ := bind_eq_ok.mp h
    obtain ⟨memoryLow, hlow, h⟩ := bind_eq_ok.mp h
    obtain ⟨memoryHigh, hhigh, h⟩ := bind_eq_ok.mp h
    obtain ⟨memoryMax, hmax, h⟩ := bind_eq_ok.mp h
    obtain ⟨oomGroup, _, h⟩ := bind_eq_ok.mp h
    cases h
    refine ⟨requiredName_ok hname, requiredName_ok hpath, ?_, memoryLimit_ok hmin, memoryLimit_ok hlow,
      memoryLimit_ok hhigh, memoryLimit_ok hmax⟩
    intro n hn
    obtain ⟨m, hm, rfl⟩ := Option.map_eq_some_iff.mp hn
    have hle : m ≤ 200 := optionalU64_ok hswap m hm
    have hsmall : (UInt8.ofNat m).toNat = m := UInt8.toNat_ofNat_of_lt' (by simp [UInt8.size]; omega)
    rwa [hsmall]

/-- **A valid group is read back.** -/
theorem memoryGroupFromValue_print {g : MemoryGroup} (h : g.Valid) :
    memoryGroupFromValue (memoryGroupValue g) = .ok g := by
  unfold memoryGroupFromValue
  rw [show (memoryGroupValue g).asObject = some _ from rfl]
  dsimp only
  refine bind_eq_ok.mpr ⟨g.name, requiredName_print rfl h.name, ?_⟩
  refine bind_eq_ok.mpr ⟨g.path, requiredName_print rfl h.path, ?_⟩
  refine bind_eq_ok.mpr ⟨g.swappiness.map UInt8.toNat, ?_, ?_⟩
  · refine optionalU64_print (by decide) ?_ ?_
    · rw [Option.map_map]
      rfl
    · intro n hn
      obtain ⟨m, hm, rfl⟩ := Option.map_eq_some_iff.mp hn
      exact h.swappiness m hm
  refine bind_eq_ok.mpr ⟨g.memoryMin, memoryLimit_print rfl h.memoryMin, ?_⟩
  refine bind_eq_ok.mpr ⟨g.memoryLow, memoryLimit_print rfl h.memoryLow, ?_⟩
  refine bind_eq_ok.mpr ⟨g.memoryHigh, memoryLimit_print rfl h.memoryHigh, ?_⟩
  refine bind_eq_ok.mpr ⟨g.memoryMax, memoryLimit_print rfl h.memoryMax, ?_⟩
  refine bind_eq_ok.mpr ⟨g.oomGroup, ?_, ?_⟩
  · obtain ⟨_, _, _, _, _, _, _, oomGroup⟩ := g
    cases oomGroup <;> rfl
  · have hswap : (g.swappiness.map UInt8.toNat).map UInt8.ofNat = g.swappiness := by
      cases g.swappiness <;> simp
    rw [hswap]
    rfl

/-- **A rule that is read is valid.** -/
theorem threadRuleFromValue_valid {value : Value} {r : ThreadTuneRule}
    (h : threadRuleFromValue value = .ok r) : r.Valid := by
  unfold threadRuleFromValue at h
  cases hobj : value.asObject with
  | none => rw [hobj] at h; cases h
  | some object =>
    rw [hobj] at h
    dsimp only at h
    obtain ⟨pattern, hpattern, h⟩ := bind_eq_ok.mp h
    obtain ⟨uclampMin, hmin, h⟩ := bind_eq_ok.mp h
    obtain ⟨uclampMax, hmax, h⟩ := bind_eq_ok.mp h
    obtain ⟨nice, hnice, h⟩ := bind_eq_ok.mp h
    split at h
    · cases h
    · next hset =>
      split at h
      · cases h
      · next hordered =>
        cases h
        have small : ∀ (o : Option Nat), (∀ n ∈ o, n ≤ 1024) → ∀ n ∈ o.map UInt16.ofNat, n.toNat ≤ 1024 := by
          intro o ho n hn
          obtain ⟨m, hm, rfl⟩ := Option.map_eq_some_iff.mp hn
          have hle := ho m hm
          rwa [UInt16.toNat_ofNat_of_lt' (by simp [UInt16.size]; omega)]
        refine ⟨requiredName_ok hpattern, small _ (optionalU64_ok hmin), small _ (optionalU64_ok hmax), ?_,
          ?_, Bool.eq_false_iff.mpr hordered⟩
        swap
        · have hnone : (nice.map Int8.ofInt).isNone = nice.isNone := Option.isNone_map
          show (_ && (nice.map Int8.ofInt).isNone) = false
          rw [hnone]
          exact Bool.eq_false_iff.mpr hset
        intro n hn
        obtain ⟨m, hm, rfl⟩ := Option.map_eq_some_iff.mp hn
        obtain ⟨hlo, hhi⟩ := optionalI64_ok hnice m hm
        rw [Int8.toInt_ofInt_of_le (by omega) (by omega)]
        exact ⟨hlo, hhi⟩

/-- **A valid rule is read back.** -/
theorem threadRuleFromValue_print {r : ThreadTuneRule} (h : r.Valid) :
    threadRuleFromValue (threadRuleValue r) = .ok r := by
  have hu16 : ∀ o : Option UInt16, (o.map UInt16.toNat).map UInt16.ofNat = o := by
    intro o
    cases o <;> simp
  have hi8 : (r.nice.map Int8.toInt).map Int8.ofInt = r.nice := by
    cases r.nice <;> simp
  unfold threadRuleFromValue
  rw [show (threadRuleValue r).asObject = some _ from rfl]
  dsimp only
  refine bind_eq_ok.mpr ⟨r.pattern, requiredName_print rfl h.pattern, ?_⟩
  refine bind_eq_ok.mpr ⟨r.uclampMin.map UInt16.toNat, ?_, ?_⟩
  · refine optionalU64_print (by decide) (by rw [Option.map_map]; rfl) fun n hn => ?_
    obtain ⟨m, hm, rfl⟩ := Option.map_eq_some_iff.mp hn
    exact h.uclampMin m hm
  refine bind_eq_ok.mpr ⟨r.uclampMax.map UInt16.toNat, ?_, ?_⟩
  · refine optionalU64_print (by decide) (by rw [Option.map_map]; rfl) fun n hn => ?_
    obtain ⟨m, hm, rfl⟩ := Option.map_eq_some_iff.mp hn
    exact h.uclampMax m hm
  refine bind_eq_ok.mpr ⟨r.nice.map Int8.toInt, ?_, ?_⟩
  · refine optionalI64_print (by decide) (by decide) rfl fun n hn => ?_
    obtain ⟨m, hm, rfl⟩ := Option.map_eq_some_iff.mp hn
    exact h.nice m hm
  · rw [hu16, hu16, hi8]
    have hset : (r.uclampMin.isNone && r.uclampMax.isNone && (r.nice.map Int8.toInt).isNone) = false := by
      rw [Option.isNone_map]
      exact h.set
    rw [hset, h.ordered]
    rfl

/-- Every item of an array that is read comes from it. -/
theorem arrayField_ok {α : Type} {members : List (Str × Value)} {field err : Str} {read : Value → Result α}
    {as : List α} (h : arrayField members field read err = .ok as) {a : α} (ha : a ∈ as) :
    ∃ v, read v = .ok a := by
  unfold arrayField at h
  split at h
  · cases h; cases ha
  · cases h; cases ha
  · obtain ⟨v, _, hv⟩ := mapM_ok_mem h ha
    exact ⟨v, hv⟩
  · cases h

/-- An array is read back if its items are. -/
theorem arrayField_print {α : Type} {members : List (Str × Value)} {field err : Str} {read : Value → Result α}
    {print : α → Value} {as : List α} (hget : Value.lookup field members = some (.array (as.map print)))
    (h : ∀ a ∈ as, read (print a) = .ok a) : arrayField members field read err = .ok as := by
  rw [arrayField, hget]
  exact mapM_map_ok h

/-- **An entry that is read is valid.** -/
theorem appFromValue_valid {value : Value} {app : AppTuneRule} (h : appFromValue value = .ok app) :
    app.Valid := by
  unfold appFromValue at h
  cases hobj : value.asObject with
  | none => rw [hobj] at h; cases h
  | some object =>
    rw [hobj] at h
    dsimp only at h
    obtain ⟨pkg, hpkg, h⟩ := bind_eq_ok.mp h
    obtain ⟨memoryGroup, hgroup, h⟩ := bind_eq_ok.mp h
    obtain ⟨threads, hthreads, h⟩ := bind_eq_ok.mp h
    split at h
    · cases h
    · next hused =>
      cases h
      refine ⟨requiredName_ok hpkg, fun g hg => ?_, fun r hr => ?_, Bool.eq_false_iff.mpr hused⟩
      · cases hg
        split at hgroup
        · cases hgroup
        · cases hgroup
        · split at hgroup
          · cases hgroup
          · split at hgroup
            · next hok =>
              cases hgroup
              exact ⟨trim_trim _, hok⟩
            · cases hgroup
        · cases hgroup
      · obtain ⟨v, hv⟩ := arrayField_ok hthreads hr
        exact threadRuleFromValue_valid hv

/-- A checked group name is not blank. -/
theorem groupNameOk_ne {s : Str} (h : Checked groupNameOk s) : s ≠ [] := by
  rintro rfl
  cases h.2

/-- **A valid entry is read back.** -/
theorem appFromValue_print {app : AppTuneRule} (h : app.Valid) : appFromValue (appValue app) = .ok app := by
  unfold appFromValue
  rw [show (appValue app).asObject = some _ from rfl]
  dsimp only
  refine bind_eq_ok.mpr ⟨app.pkg, requiredName_print rfl h.pkg, ?_⟩
  refine bind_eq_ok.mpr ⟨app.memoryGroup, ?_, ?_⟩
  · rw [show Value.lookup "memory_group".toList _ = some (optValue app.memoryGroup) from rfl]
    cases hg : app.memoryGroup with
    | none => rfl
    | some g =>
      obtain ⟨htrim, hok⟩ := h.memoryGroup g hg
      have hne : g ≠ [] := groupNameOk_ne ⟨htrim, hok⟩
      simp only [optValue, Option.elim_some, htrim, List.isEmpty_iff, hne, if_false, hok, if_true]
  refine bind_eq_ok.mpr ⟨app.threads, ?_, ?_⟩
  · exact arrayField_print rfl fun r hr => threadRuleFromValue_print (h.threads r hr)
  · rw [h.used]
    rfl

/-! ## The whole document -/

/-- The check for groups of one name. -/
theorem checkGroups_ok {seen : List Str} {gs : List MemoryGroup} :
    checkGroups seen gs = .ok () ↔ (gs.map (·.name)).Nodup ∧ ∀ g ∈ gs, g.name ∉ seen := by
  induction gs generalizing seen with
  | nil => simp [checkGroups]
  | cons g gs ih =>
    unfold checkGroups
    by_cases hg : g.name ∈ seen
    · simp [hg]
    · rw [if_neg hg, ih, List.forall_mem_cons, List.map_cons, List.nodup_cons]
      simp only [List.mem_map, List.mem_cons, not_or, not_exists, not_and]
      constructor
      · rintro ⟨hnd, hall⟩
        exact ⟨⟨fun a ha => (hall a ha).1, hnd⟩, hg, fun a ha => (hall a ha).2⟩
      · rintro ⟨⟨hne, hnd⟩, _, hall⟩
        exact ⟨hnd, fun a ha => ⟨hne a ha, hall a ha⟩⟩

/-- The check for entries of one package, and for groups that are not there. -/
theorem checkApps_ok {names seen : List Str} {apps : List AppTuneRule} :
    checkApps names seen apps = .ok () ↔ (apps.map (·.pkg)).Nodup ∧ (∀ app ∈ apps, app.pkg ∉ seen) ∧
      ∀ app ∈ apps, ∀ g ∈ app.memoryGroup, g ∈ names := by
  induction apps generalizing seen with
  | nil => simp [checkApps]
  | cons app apps ih =>
    have hrest : checkApps names (app.pkg :: seen) apps = .ok () ↔
        ((app :: apps).map (·.pkg)).Nodup ∧ (∀ a ∈ apps, a.pkg ∉ seen) ∧
          ∀ a ∈ apps, ∀ g ∈ a.memoryGroup, g ∈ names := by
      rw [ih]
      simp only [List.map_cons, List.nodup_cons, List.mem_map, List.mem_cons, not_or, not_exists, not_and]
      constructor
      · rintro ⟨hnd, hall, href⟩
        exact ⟨⟨fun a ha => (hall a ha).1, hnd⟩, fun a ha => (hall a ha).2, href⟩
      · rintro ⟨⟨hne, hnd⟩, hall, href⟩
        exact ⟨hnd, fun a ha => ⟨hne a ha, hall a ha⟩, href⟩
    unfold checkApps
    by_cases happ : app.pkg ∈ seen
    · simp [happ]
    · rw [if_neg happ]
      cases hg : app.memoryGroup with
      | none => simp only [hrest, List.forall_mem_cons, happ, not_false_eq_true, true_and, hg,
          Option.not_mem_none, false_implies, implies_true]
      | some g =>
        dsimp only
        by_cases hmem : g ∈ names
        · rw [if_pos hmem, hrest]
          simp only [List.forall_mem_cons, happ, not_false_eq_true, true_and, hg, Option.mem_some_iff,
            forall_eq', hmem]
        · simp [hmem, hg]

/-- **What is accepted is valid.** -/
theorem configFromValue_valid {value : Value} {c : TuningConfig} (h : configFromValue value = .ok c) :
    c.Valid := by
  unfold configFromValue at h
  cases hobj : value.asObject with
  | none => rw [hobj] at h; cases h
  | some object =>
    rw [hobj] at h
    dsimp only at h
    obtain ⟨memoryGroups, hgroups, h⟩ := bind_eq_ok.mp h
    obtain ⟨⟨⟩, hnames, h⟩ := bind_eq_ok.mp h
    obtain ⟨apps, happs, h⟩ := bind_eq_ok.mp h
    obtain ⟨⟨⟩, hrefs, h⟩ := bind_eq_ok.mp h
    cases h
    obtain ⟨hpkgs, _, hrefs⟩ := checkApps_ok.mp hrefs
    refine ⟨fun g hg => ?_, (checkGroups_ok.mp hnames).1, fun app ha => ?_, hpkgs, hrefs⟩
    · obtain ⟨v, hv⟩ := arrayField_ok hgroups hg
      exact memoryGroupFromValue_valid hv
    · obtain ⟨v, hv⟩ := arrayField_ok happs ha
      exact appFromValue_valid hv

/-- **A valid configuration comes back from its JSON form.** -/
theorem configFromValue_print {c : TuningConfig} (h : c.Valid) :
    configFromValue (configValue c) = .ok c := by
  unfold configFromValue
  rw [show (configValue c).asObject = some _ from rfl]
  dsimp only
  refine bind_eq_ok.mpr ⟨c.memoryGroups,
    arrayField_print rfl fun g hg => memoryGroupFromValue_print (h.groups g hg), ?_⟩
  refine bind_eq_ok.mpr ⟨(), checkGroups_ok.mpr ⟨h.groupNames, by simp⟩, ?_⟩
  refine bind_eq_ok.mpr ⟨c.apps, arrayField_print rfl fun app ha => appFromValue_print (h.apps app ha), ?_⟩
  exact bind_eq_ok.mpr ⟨(), checkApps_ok.mpr ⟨h.packages, by simp, h.references⟩, rfl⟩

end AppOptR
