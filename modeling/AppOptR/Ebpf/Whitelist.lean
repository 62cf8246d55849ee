import AppOptR.Lib.Utf8
import AppOptR.RuleMatch

/-!
# `Ebpf.Whitelist` — package names as the kernel sees them

The kernel knows a task by a `comm` of 16 bytes. `comm_keys_build` turns the configured packages into the
15-byte keys of `TARGET_COMM_MAP`, `whitelist_matched` looks a `comm` up in it on the kernel's side, and
`comm_str` turns the `comm` of an event back into text.
-/

namespace AppOptR

open Text

/-- `[u8; 16]`, the name of a task. -/
abbrev Comm := { bytes : List UInt8 // bytes.length = 16 }

/-- `[u8; 15]`, a key of `TARGET_COMM_MAP`. -/
abbrev CommKey := { bytes : List UInt8 // bytes.length = 15 }

/-- The first `n` bytes, filled up with zeros. -/
def padTo (n : Nat) (bytes : List UInt8) : { bytes : List UInt8 // bytes.length = n } :=
  ⟨bytes.take n ++ List.replicate (n - bytes.length) 0, by
    rw [List.length_append, List.length_take, List.length_replicate]
    omega⟩

/-- The keys of one package: its first 15 bytes, and its last 15 when it is longer. -/
def commKeys (pkg : Str) : List CommKey :=
  let bytes := utf8 pkg
  if bytes.isEmpty then []
  else
    padTo 15 bytes ::
      if 15 < bytes.length then [padTo 15 (bytes.drop (bytes.length - 15))] else []

/-- `comm_keys_build`. The source returns a sorted vector without repetitions: the keys as a set. -/
def commKeysBuild (pkgs : Finset Str) : Finset CommKey := pkgs.biUnion fun pkg => (commKeys pkg).toFinset

/-- `comm[pos..pos + 15]`. -/
def Comm.window (comm : Comm) (pos : Fin 2) : CommKey :=
  ⟨(comm.1.drop pos).take 15, by
    rw [List.length_take, List.length_drop, comm.2]
    omega⟩

/-- `whitelist_matched`, on the keys in `TARGET_COMM_MAP`. -/
def whitelistMatched (targetCommMap : Finset CommKey) (comm : Comm) : Bool :=
  comm.window 0 ∈ targetCommMap || comm.window 1 ∈ targetCommMap

/-- `comm_str`: the name up to the first zero byte, trimmed, and nothing where that is no text. -/
def commStr (comm : Comm) : Str := trim ((fromUtf8 (comm.1.takeWhile (· ≠ 0))).getD [])

/-- What stands before the first NUL of a `comm`. -/
theorem takeWhile_padTo {bytes : List UInt8} (h : bytes.length ≤ 15) (h0 : (0 : UInt8) ∉ bytes) :
    (padTo 16 bytes).1.takeWhile (· ≠ 0) = bytes := by
  have hall : ∀ b ∈ bytes, decide (b ≠ 0) = true := by
    intro b hb
    simp only [decide_eq_true_eq]
    rintro rfl
    exact h0 hb
  obtain ⟨n, hn⟩ : ∃ n, 16 - bytes.length = n + 1 := ⟨15 - bytes.length, by omega⟩
  show (bytes.take 16 ++ List.replicate (16 - bytes.length) 0).takeWhile _ = bytes
  rw [List.take_of_length_le (Nat.le_succ_of_le h), hn, List.takeWhile_append_of_pos hall,
    List.replicate_succ, List.takeWhile_cons_of_neg (by simp), List.append_nil]

/-- A short name comes back from its `comm`. -/
theorem commStr_padTo {p : Str} (h0 : (0 : UInt8) ∉ utf8 p) (hlen : byteLen p ≤ 15) (htrim : trim p = p) :
    commStr (padTo 16 (utf8 p)) = p := by
  rw [commStr, takeWhile_padTo (by rw [length_utf8]; exact hlen) h0, fromUtf8_utf8]
  exact htrim

/-- **Keys and lookup agree**: a `comm` that begins with a key of a configured package is on the
    whitelist. -/
theorem whitelistMatched_of_key {pkgs : Finset Str} {pkg : Str} {comm : Comm} (hp : pkg ∈ pkgs)
    (h : comm.window 0 ∈ commKeys pkg) : whitelistMatched (commKeysBuild pkgs) comm = true := by
  have hmem : comm.window 0 ∈ commKeysBuild pkgs :=
    Finset.mem_biUnion.mpr ⟨pkg, hp, List.mem_toFinset.mpr h⟩
  simp [whitelistMatched, hmem]

end AppOptR
