import AppOptR.Lib.Utf8
import AppOptR.Config.Line

/-!
# `ProcFs` — names read from `/proc`

The readers of `apply_affinity.rs`. A file is the bytes it holds, or nothing when it cannot be opened or
read; what a reader sees of it is bounded by its buffer.
-/

namespace AppOptR

open Text

/-- `read_proc_file` into a buffer of `size` bytes. -/
def readProcFile (size : Nat) (file : Option (List UInt8)) : Option (List UInt8) :=
  file.bind fun bytes => if (bytes.take size).isEmpty then none else some (bytes.take size)

/-- `rsplit(c).next()`: the text after the last `c`. -/
def afterLast (c : Char) (s : Str) : Str := ((splitLast c s).map (·.2)).getD s

/-- `read_cmdline`: the file name of the first argument. -/
def readCmdline (file : Option (List UInt8)) : Option Str :=
  (readProcFile maxPkgLen file).bind fun bytes =>
    (fromUtf8 (bytes.takeWhile (· ≠ 0))).bind fun cmdline =>
      let trimmed := trim (afterLast '/' cmdline)
      if trimmed.isEmpty then none else some trimmed

/-- `tid_comm`. -/
def tidComm (file : Option (List UInt8)) : Option Str :=
  (readProcFile maxThreadLen file).bind fun bytes =>
    (fromUtf8 (bytes.takeWhile fun b => b ≠ 0 && b ≠ 10)).map trim

/-- A command line name is trimmed, not empty, and holds no NUL. -/
theorem readCmdline_name {file : Option (List UInt8)} {p : Str} (h : readCmdline file = some p) :
    p ≠ [] ∧ HeadSolid p ∧ LastSolid p ∧ (0 : UInt8) ∉ utf8 p := by
  obtain ⟨bytes, _, h⟩ := Option.bind_eq_some_iff.mp h
  obtain ⟨cmdline, hcmd, h⟩ := Option.bind_eq_some_iff.mp h
  dsimp only at h
  split at h
  · cases h
  · next hne =>
    cases h
    refine ⟨by simpa using hne, headSolid_trim _, lastSolid_trim _, ?_⟩
    have hsub : trim (afterLast '/' cmdline) <:+: cmdline := by
      have hlast : afterLast '/' cmdline <:+ cmdline := by
        unfold afterLast
        cases hs : splitLast '/' cmdline with
        | none => exact List.suffix_refl _
        | some p =>
          rw [Option.map_some, Option.getD_some]
          exact ⟨p.1 ++ ['/'], by rw [(splitLast_eq_some.mp hs).1]; simp⟩
      obtain ⟨w, w', _, _, he⟩ := trim_decomp (afterLast '/' cmdline)
      have htrim : trim (afterLast '/' cmdline) <:+: afterLast '/' cmdline :=
        ⟨w, w', by rw [List.append_assoc]; exact he.symm⟩
      exact htrim.trans hlast.isInfix
    obtain ⟨a, b, hab⟩ := hsub
    intro h0
    have hmem : (0 : UInt8) ∈ utf8 cmdline := by
      rw [← hab, utf8_append, utf8_append]
      simp [h0]
    rw [← fromUtf8_eq_some.mp hcmd] at hmem
    simpa using List.mem_takeWhile_imp hmem

/-- A short trimmed name without a slash comes back as it is. -/
theorem readCmdline_plain {p : Str} (hne : p ≠ []) (htrim : trim p = p) (hslash : '/' ∉ p)
    (h0 : (0 : UInt8) ∉ utf8 p) (hlen : byteLen p ≤ maxPkgLen) : readCmdline (some (utf8 p)) = some p := by
  have hpos : utf8 p ≠ [] := fun h => hne (utf8_injective (h.trans utf8_nil.symm))
  have hfile : readProcFile maxPkgLen (some (utf8 p)) = some (utf8 p) := by
    rw [readProcFile, Option.bind_some, List.take_of_length_le (by rw [length_utf8]; exact hlen)]
    simp [hpos]
  have hall : (utf8 p).takeWhile (· ≠ 0) = utf8 p := by
    rw [List.takeWhile_eq_self_iff]
    intro b hb
    simp only [decide_eq_true_eq]
    rintro rfl
    exact h0 hb
  have hlast : afterLast '/' p = p := by
    rw [afterLast, splitLast_eq_none.mpr hslash]
    rfl
  rw [readCmdline, hfile, Option.bind_some, hall, fromUtf8_utf8, Option.bind_some, hlast, htrim]
  simp [hne]

end AppOptR
