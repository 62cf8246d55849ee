import AppOptR.Lib.Text

/-!
# `Lib.Utf8` — texts and their UTF-8 bytes

`utf8` and `fromUtf8` are `str::as_bytes` and `str::from_utf8`. The two facts about cuts that a reader of
truncated names needs: the bytes of a text that start (`utf8_startsWith`) or end (`utf8_endsWith`) the bytes of
another are those of a prefix or suffix of it, because no byte inside a character can start one.
-/

namespace AppOptR
namespace Text

/-- `str::as_bytes`. -/
def utf8 (s : Str) : List UInt8 := s.flatMap String.utf8EncodeChar

/-- `str::from_utf8`. -/
def fromUtf8 (bytes : List UInt8) : Option Str := (ByteArray.utf8Decode? bytes.toByteArray).map Array.toList

@[simp] theorem utf8_nil : utf8 [] = [] := rfl

theorem utf8_cons (c : Char) (s : Str) : utf8 (c :: s) = String.utf8EncodeChar c ++ utf8 s := rfl

@[simp] theorem utf8_append (s t : Str) : utf8 (s ++ t) = utf8 s ++ utf8 t := List.flatMap_append

/-- The length of an encoding. -/
theorem length_utf8 (s : Str) : (utf8 s).length = byteLen s := by
  induction s with
  | nil => rfl
  | cons c s ih =>
    rw [utf8_cons, List.length_append, String.length_utf8EncodeChar, ih]
    simp [byteLen]

theorem toByteArray_utf8 (s : Str) : (utf8 s).toByteArray = s.utf8Encode := rfl

/-- **What is encoded is decoded.** -/
theorem fromUtf8_utf8 (s : Str) : fromUtf8 (utf8 s) = some s := by
  rw [fromUtf8, toByteArray_utf8, List.utf8Decode?_utf8Encode]
  rfl

theorem toByteArray_inj {a b : List UInt8} (h : a.toByteArray = b.toByteArray) : a = b := by
  have := congrArg (fun x : ByteArray => x.data.toList) h
  simpa using this

/-- **Decoding** gives the one text with these bytes. -/
theorem fromUtf8_eq_some {bytes : List UInt8} {s : Str} : fromUtf8 bytes = some s ↔ bytes = utf8 s := by
  constructor
  · intro h
    obtain ⟨cs, hcs, rfl⟩ := Option.map_eq_some_iff.mp h
    have hsome : bytes.toByteArray.utf8Decode?.isSome := by rw [hcs]; rfl
    have henc := ByteArray.utf8Encode_get_utf8Decode? (b := bytes.toByteArray) (h := hsome)
    have hget : bytes.toByteArray.utf8Decode?.get hsome = cs := Option.get_of_eq_some hsome hcs
    rw [hget, ← toByteArray_utf8] at henc
    exact (toByteArray_inj henc).symm
  · rintro rfl
    exact fromUtf8_utf8 s

/-- Two texts of one encoding are the same. -/
theorem utf8_injective {s t : Str} (h : utf8 s = utf8 t) : s = t := by
  have := fromUtf8_utf8 s
  rw [h, fromUtf8_utf8 t] at this
  exact (Option.some.inj this).symm

/-- The bytes of a text at the start of another's. -/
theorem utf8_startsWith {s t : Str} : utf8 s <+: utf8 t ↔ s <+: t := by
  constructor
  · rintro ⟨b, hb⟩
    apply List.isPrefix_of_utf8Encode_append_eq_utf8Encode b.toByteArray
    rw [← toByteArray_utf8, ← toByteArray_utf8, ← hb, List.toByteArray_append]
  · rintro ⟨b, rfl⟩
    rw [utf8_append]
    exact List.prefix_append _ _

/-- The bytes of a text at the end of another's. -/
theorem utf8_endsWith {s t : Str} : utf8 s <:+ utf8 t ↔ s <:+ t := by
  constructor
  · rintro ⟨b, hb⟩
    induction t generalizing b with
    | nil =>
      rw [utf8_nil, List.append_eq_nil_iff] at hb
      rw [utf8_injective (hb.2.trans utf8_nil.symm)]
    | cons c t ih =>
      rw [utf8_cons] at hb
      rcases List.append_eq_append_iff.mp hb with ⟨m, hc, hs⟩ | ⟨m, hbm, ht⟩
      · -- the cut falls into the encoding of `c`
        cases b with
        | nil =>
          have : s = c :: t := utf8_injective hb
          rw [this]
        | cons b₀ b =>
          cases s with
          | nil => exact List.nil_suffix
          | cons d s =>
            cases m with
            | nil =>
              rw [List.nil_append] at hs
              exact (ih [] (by rw [hs]; rfl)).trans (List.suffix_cons c t)
            | cons m₀ m =>
              exfalso
              -- `m₀` is inside the encoding of `c`, and `s` begins with it: no first byte can be both
              have hlt : (b₀ :: b).length < (String.utf8EncodeChar c).length := by rw [hc]; simp
              have hget : (String.utf8EncodeChar c)[(b₀ :: b).length] = m₀ := by simp [hc]
              have hnot : ¬ m₀.IsUTF8FirstByte := by
                rw [← hget, UInt8.isUTF8FirstByte_getElem_utf8EncodeChar]
                simp
              refine hnot ?_
              have hpos : 0 < (String.utf8EncodeChar d).length := by
                rw [String.length_utf8EncodeChar]
                exact d.utf8Size_pos
              have hfirst : (String.utf8EncodeChar d)[0] = m₀ := by
                have := congrArg (fun l => l[0]?) hs
                rw [utf8_cons] at this
                simpa [List.getElem?_append_left hpos, List.getElem?_eq_getElem hpos] using this
              rw [← hfirst]
              exact UInt8.isUTF8FirstByte_getElem_zero_utf8EncodeChar
      · exact (ih m ht.symm).trans (List.suffix_cons c t)
  · rintro ⟨b, rfl⟩
    rw [utf8_append]
    exact List.suffix_append _ _

/-! ## Lengths -/

@[simp] theorem byteLen_append (s t : Str) : byteLen (s ++ t) = byteLen s + byteLen t := by simp [byteLen]

theorem byteLen_eq_zero {s : Str} : byteLen s = 0 ↔ s = [] := by
  cases s with
  | nil => simp [byteLen]
  | cons c s =>
    have := c.utf8Size_pos
    simp only [byteLen, List.map_cons, List.sum_cons, reduceCtorEq, iff_false]
    omega

/-- Trimming a text that is not trimmed makes it shorter. -/
theorem byteLen_trim_lt {s : Str} (h : trim s ≠ s) : byteLen (trim s) < byteLen s := by
  obtain ⟨w, w', _, _, he⟩ := trim_decomp s
  have hlen : byteLen s = byteLen w + (byteLen (trim s) + byteLen w') := by
    conv_lhs => rw [he]
    rw [byteLen_append, byteLen_append]
  have hne : ¬ (byteLen w = 0 ∧ byteLen w' = 0) := by
    rintro ⟨hw, hw'⟩
    rw [byteLen_eq_zero.mp hw, byteLen_eq_zero.mp hw', List.nil_append, List.append_nil] at he
    exact h he.symm
  omega

end Text
end AppOptR
