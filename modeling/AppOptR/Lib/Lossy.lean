import AppOptR.Lib.Utf8

/-!
# `Lib.Lossy` — bytes that may be no text

`String::from_utf8_lossy`, and `read_until`, which cuts a stream of bytes at a delimiter. On the bytes of a text
the one is the text (`fromUtf8Lossy_utf8`), and the other cuts where the text is cut (`readUntil_line`), because
the byte of an ASCII character occurs in no other.
-/

namespace AppOptR
namespace Text

/-- How many bytes of an ill-formed sequence one replacement character stands for: the first, and those after
    it that could still be part of a character. -/
def invalidLen : List UInt8 → Nat
  | [] => 0
  | lead :: rest =>
    let spec : Option (Nat × Nat × Nat) :=
      let b := lead.toNat
      if 0xC2 ≤ b ∧ b ≤ 0xDF then some (0x80, 0xBF, 0)
      else if b = 0xE0 then some (0xA0, 0xBF, 1)
      else if b = 0xED then some (0x80, 0x9F, 1)
      else if 0xE1 ≤ b ∧ b ≤ 0xEF then some (0x80, 0xBF, 1)
      else if b = 0xF0 then some (0x90, 0xBF, 2)
      else if 0xF1 ≤ b ∧ b ≤ 0xF3 then some (0x80, 0xBF, 2)
      else if b = 0xF4 then some (0x80, 0x8F, 2)
      else none
    match spec, rest with
    | some (low, high, more), second :: rest =>
      if low ≤ second.toNat ∧ second.toNat ≤ high then
        2 + ((rest.take more).takeWhile fun b => 0x80 ≤ b.toNat ∧ b.toNat ≤ 0xBF).length
      else 1
    | _, _ => 1

def lossyFrom : Nat → List UInt8 → Str
  | 0, _ => []
  | fuel + 1, bytes =>
    if bytes = [] then []
    else
      match bytes.toByteArray.utf8DecodeChar? 0 with
      | some c => c :: lossyFrom fuel (bytes.drop c.utf8Size)
      | none => '\uFFFD' :: lossyFrom fuel (bytes.drop (invalidLen bytes))

/-- `String::from_utf8_lossy`. -/
def fromUtf8Lossy (bytes : List UInt8) : Str := lossyFrom bytes.length bytes

theorem lossyFrom_utf8 {s : Str} {fuel : Nat} (h : byteLen s ≤ fuel) : lossyFrom fuel (utf8 s) = s := by
  induction s generalizing fuel with
  | nil => cases fuel <;> simp [lossyFrom]
  | cons c s ih =>
    have hpos := c.utf8Size_pos
    have hlen : byteLen (c :: s) = c.utf8Size + byteLen s := by simp [byteLen]
    cases fuel with
    | zero => omega
    | succ fuel =>
      have hhead : (utf8 (c :: s)).toByteArray.utf8DecodeChar? 0 = some c := by
        rw [utf8_cons, List.toByteArray_append]
        exact ByteArray.utf8DecodeChar?_utf8EncodeChar_append
      have hrest : (utf8 (c :: s)).drop c.utf8Size = utf8 s := by
        rw [utf8_cons, ← String.length_utf8EncodeChar, List.drop_left]
      have hne : utf8 (c :: s) ≠ [] := fun h => by
        have := congrArg List.length h
        rw [length_utf8, hlen] at this
        simp at this
        omega
      rw [lossyFrom, if_neg hne, hhead]
      dsimp only
      rw [hrest, ih (by omega)]

@[simp] theorem fromUtf8Lossy_utf8 (s : Str) : fromUtf8Lossy (utf8 s) = s :=
  lossyFrom_utf8 (length_utf8 s).ge

/-! ## Cutting a stream -/

/-- `read_until`: what it reads, the delimiter included where there is one, and what is left. -/
def readUntil (delimiter : UInt8) : List UInt8 → List UInt8 × List UInt8
  | [] => ([], [])
  | b :: bytes =>
    if b = delimiter then ([b], bytes)
    else (b :: (readUntil delimiter bytes).1, (readUntil delimiter bytes).2)

theorem readUntil_found {delimiter : UInt8} {line : List UInt8} (h : delimiter ∉ line) (rest : List UInt8) :
    readUntil delimiter (line ++ delimiter :: rest) = (line ++ [delimiter], rest) := by
  induction line with
  | nil => simp [readUntil]
  | cons b line ih =>
    rw [List.mem_cons, not_or] at h
    rw [List.cons_append, readUntil, if_neg (Ne.symm h.1), ih h.2]
    rfl

/-- What is read ends with the delimiter, or is all there is. -/
theorem readUntil_cases (delimiter : UInt8) (bytes : List UInt8) :
    (∃ line, delimiter ∉ line ∧ bytes = line ++ delimiter :: (readUntil delimiter bytes).2 ∧
        (readUntil delimiter bytes).1 = line ++ [delimiter]) ∨
      delimiter ∉ bytes ∧ readUntil delimiter bytes = (bytes, []) := by
  induction bytes with
  | nil => exact .inr ⟨by simp, rfl⟩
  | cons b bytes ih =>
    unfold readUntil
    split
    · next heq => exact .inl ⟨[], by simp, by simp [heq], by simp [heq]⟩
    · next hne =>
      rcases ih with ⟨line, hfree, hbytes, hread⟩ | ⟨hfree, hread⟩
      · refine .inl ⟨b :: line, by simp [hfree, Ne.symm hne], ?_, by simp [hread]⟩
        rw [List.cons_append, ← hbytes]
      · exact .inr ⟨by simp [hfree, Ne.symm hne], by simp [hread]⟩

/-- The bytes of a character beyond ASCII are beyond ASCII. -/
theorem utf8EncodeChar_high {b : UInt8} {c : Char} (hc : 127 < c.toNat) (h : b ∈ String.utf8EncodeChar c) :
    128 ≤ b.toNat := by
  have hval : c.val.toNat = c.toNat := rfl
  unfold String.utf8EncodeChar at h
  simp only [hval] at h
  rw [if_neg (by omega)] at h
  split at h
  · simp only [List.mem_cons, List.not_mem_nil, or_false] at h
    rcases h with rfl | rfl <;> rw [UInt8.toNat_ofNat'] <;> omega
  split at h
  · simp only [List.mem_cons, List.not_mem_nil, or_false] at h
    rcases h with rfl | rfl | rfl <;> rw [UInt8.toNat_ofNat'] <;> omega
  · simp only [List.mem_cons, List.not_mem_nil, or_false] at h
    rcases h with rfl | rfl | rfl | rfl <;> rw [UInt8.toNat_ofNat'] <;> omega

/-- The byte of an ASCII character is in the bytes of no other. -/
theorem newline_utf8 {s : Str} : (10 : UInt8) ∈ utf8 s ↔ '\n' ∈ s := by
  unfold utf8
  rw [List.mem_flatMap]
  constructor
  · rintro ⟨c, hmem, hb⟩
    by_cases hc : 127 < c.toNat
    · exact absurd (utf8EncodeChar_high hc hb) (by decide)
    · have hsize : c.utf8Size = 1 := by
        rw [Char.utf8Size_eq_one_iff, UInt32.le_iff_toNat_le]
        exact Nat.le_of_not_lt hc
      rw [String.utf8EncodeChar_eq_singleton hsize, List.mem_singleton] at hb
      have hnat : c.toNat % 256 = 10 := (congrArg UInt8.toNat hb).symm
      have hten : c = '\n' := Char.ext (UInt32.toNat_inj.mp (by show c.toNat = 10; omega))
      exact hten ▸ hmem
  · exact fun h => ⟨'\n', h, by decide⟩

theorem readUntil_line {line : Str} (h : '\n' ∉ line) (rest : List UInt8) :
    readUntil 10 (utf8 (line ++ ['\r', '\n']) ++ rest) = (utf8 (line ++ ['\r', '\n']), rest) := by
  have hbytes : utf8 (line ++ ['\r', '\n']) = utf8 (line ++ ['\r']) ++ [10] := by
    rw [show line ++ ['\r', '\n'] = (line ++ ['\r']) ++ ['\n'] by simp, utf8_append]
    rfl
  have hfree : (10 : UInt8) ∉ utf8 (line ++ ['\r']) := fun hm => by
    rcases List.mem_append.mp (newline_utf8.mp hm) with hm | hm
    · exact h hm
    · simp at hm
  rw [hbytes, List.append_assoc, List.singleton_append, readUntil_found hfree]

end Text
end AppOptR
