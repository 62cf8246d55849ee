import AppOptR.Ebpf.Whitelist
import AppOptR.ProcFs

/-!
# `Ebpf.Correctness.Attribution` — the event path and the scan name the same package

A task of package `p` reaches the daemon with a `comm` that keeps 15 bytes of `p`, from the front or from
the back. The whitelist always lets it through; `comm_to_pkg` finds `p` exactly when the kept bytes say
enough (`attributed_iff`).
-/

namespace AppOptR

open Text

/-- Which 15 bytes of a long name a `comm` keeps. -/
inductive CommCut where
  | first
  | last
  deriving DecidableEq

def CommCut.bytes (cut : CommCut) (p : Str) : List UInt8 :=
  match cut with
  | .first => (utf8 p).take 15
  | .last => (utf8 p).drop ((utf8 p).length - 15)

/-- The `comm` of a process named `p`, filled up with NULs. -/
def CommCut.comm (cut : CommCut) (p : Str) : Comm := padTo 16 (cut.bytes p)

/-- `a` stands in `p` where the cut keeps bytes. -/
def CommCut.Keeps (cut : CommCut) (a p : Str) : Prop :=
  match cut with
  | .first => a <+: p
  | .last => a <:+ p

/-- The event path takes the process for package `p`. -/
def Attributed (cmdlineOf : Int → Option Str) (pid : Int) (p : Str) (comm : Comm) (cfg : AppConfig) : Prop :=
  whitelistMatched (commKeysBuild cfg.pkgs) comm = true ∧ commToPkg cmdlineOf pid (commStr comm) cfg = some p

variable {cut : CommCut} {p a : Str}

theorem CommCut.length_bytes (cut : CommCut) (p : Str) : (cut.bytes p).length = min 15 (byteLen p) := by
  cases cut
  · rw [CommCut.bytes, List.length_take, length_utf8]
  · rw [CommCut.bytes, List.length_drop, length_utf8]
    omega

theorem CommCut.bytes_of_short (h : byteLen p ≤ 15) : cut.bytes p = utf8 p := by
  rw [← length_utf8] at h
  cases cut
  · exact List.take_of_length_le h
  · rw [CommCut.bytes, Nat.sub_eq_zero_of_le h, List.drop_zero]

theorem CommCut.bytes_subset (cut : CommCut) (p : Str) : cut.bytes p ⊆ utf8 p := by
  cases cut
  · exact List.take_subset _ _
  · exact List.drop_subset _ _

/-- The kept bytes are those of a text exactly when that text stands there whole. -/
theorem CommCut.bytes_eq_utf8 (h : 15 < byteLen p) :
    cut.bytes p = utf8 a ↔ cut.Keeps a p ∧ byteLen a = 15 := by
  have hlen : (utf8 p).length = byteLen p := length_utf8 p
  have hlen' : (utf8 a).length = byteLen a := length_utf8 a
  cases cut
  · constructor
    · intro he
      have hl := (CommCut.length_bytes .first p).symm.trans (congrArg List.length he)
      rw [hlen'] at hl
      refine ⟨utf8_startsWith.mp ?_, by omega⟩
      rw [← he]
      exact List.take_prefix _ _
    · rintro ⟨hk, h15⟩
      have := List.prefix_iff_eq_take.mp (utf8_startsWith.mpr hk)
      rw [hlen', h15] at this
      exact this.symm
  · constructor
    · intro he
      have hl := (CommCut.length_bytes .last p).symm.trans (congrArg List.length he)
      rw [hlen'] at hl
      refine ⟨utf8_endsWith.mp ?_, by omega⟩
      rw [← he]
      exact List.drop_suffix _ _
    · rintro ⟨hk, h15⟩
      have := List.suffix_iff_eq_drop.mp (utf8_endsWith.mpr hk)
      rw [hlen', h15] at this
      exact this.symm

theorem padTo_take (n : Nat) (bytes : List UInt8) : padTo n (bytes.take n) = padTo n bytes := by
  apply Subtype.ext
  show _ ++ _ = _ ++ _
  rw [List.take_take, List.length_take]
  congr 2
  · omega
  · omega

/-- The first window of a `comm` that holds at most 15 bytes. -/
theorem window_padTo {bytes : List UInt8} (h : bytes.length ≤ 15) :
    Comm.window (padTo 16 bytes) 0 = padTo 15 bytes := by
  apply Subtype.ext
  show ((_ ++ _ : List UInt8).drop 0).take 15 = _ ++ _
  rw [List.drop_zero, List.take_of_length_le (Nat.le_succ_of_le h), List.take_append,
    List.take_of_length_le h, List.take_replicate]
  congr 2
  omega

/-- **The whitelist lets every target through.** -/
theorem whitelist_comm {pkgs : Finset Str} (hp : p ∈ pkgs) (hne : p ≠ []) :
    whitelistMatched (commKeysBuild pkgs) (cut.comm p) = true := by
  apply whitelistMatched_of_key hp
  have hpos : utf8 p ≠ [] := fun h0 => hne (utf8_injective (h0.trans utf8_nil.symm))
  have hlen : (cut.bytes p).length ≤ 15 := by
    rw [cut.length_bytes]
    exact Nat.min_le_left _ _
  rw [CommCut.comm, window_padTo hlen]
  unfold commKeys
  simp only [List.isEmpty_iff, hpos, if_false, length_utf8]
  by_cases hlong : 15 < byteLen p
  · cases cut
    · rw [CommCut.bytes, padTo_take]
      exact List.mem_cons_self
    · rw [if_pos hlong, CommCut.bytes, length_utf8]
      exact List.mem_cons_of_mem _ (List.mem_singleton_self _)
  · rw [CommCut.bytes_of_short (Nat.le_of_not_lt hlong)]
    exact List.mem_cons_self

/-- The text the daemon sees of a target. -/
theorem commStr_comm (h0 : (0 : UInt8) ∉ utf8 p) :
    commStr (cut.comm p) = trim ((fromUtf8 (cut.bytes p)).getD []) := by
  have hlen : (cut.bytes p).length ≤ 15 := by
    rw [cut.length_bytes]
    exact Nat.min_le_left _ _
  rw [commStr, CommCut.comm, takeWhile_padTo hlen fun h => h0 (cut.bytes_subset p h)]

theorem CommCut.Keeps.match (h : cut.Keeps a p) : a.isPrefixOf p ∨ a.isSuffixOf p := by
  cases cut
  · exact .inl (List.isPrefixOf_iff_prefix.mpr h)
  · exact .inr (List.isSuffixOf_iff_suffix.mpr h)

/-- A `comm` whose text is not 15 bytes long names a package only by being it. -/
theorem commToPkg_short {cmdlineOf : Int → Option Str} {pid : Int} {cfg : AppConfig} {comm : Str}
    (h : byteLen comm < 15) (hp : 15 < byteLen p) : commToPkg cmdlineOf pid comm cfg ≠ some p := by
  unfold commToPkg
  split
  · rintro ⟨⟩
    omega
  · rw [if_neg fun hc => absurd hc.1 (Nat.not_le.mpr h)]
    rintro ⟨⟩

/-- **When the event path agrees with the scan.** For a process whose command line names the package `p`,
    with a `comm` that keeps the first or the last 15 bytes of `p`: short names are always found; a long
    one is found exactly when the kept bytes are whole characters, without white space at either end, and
    not themselves the name of a configured package. -/
theorem attributed_iff (cut : CommCut) (cfg : AppConfig) (cmdline : Int → Option (List UInt8)) (pid : Int)
    (p : Str) (hp : p ∈ cfg.pkgs) (hname : readCmdline (cmdline pid) = some p) :
    Attributed (fun pid => readCmdline (cmdline pid)) pid p (cut.comm p) cfg ↔
      byteLen p ≤ 15 ∨ ∃ a, cut.Keeps a p ∧ byteLen a = 15 ∧ trim a = a ∧ a ∉ cfg.pkgs := by
  obtain ⟨hne, hhead, hlast, h0⟩ := readCmdline_name hname
  have hwhite : whitelistMatched (commKeysBuild cfg.pkgs) (cut.comm p) = true := whitelist_comm hp hne
  rw [Attributed, and_iff_right hwhite, commStr_comm h0]
  by_cases hshort : byteLen p ≤ 15
  · rw [CommCut.bytes_of_short hshort, fromUtf8_utf8, Option.getD_some, trim_of_solid hhead hlast]
    simp [commToPkg, hp, hshort]
  have hlong : 15 < byteLen p := Nat.lt_of_not_le hshort
  rw [or_iff_right hshort]
  cases hdec : fromUtf8 (cut.bytes p) with
  | none =>
    -- the cut fell into a character: the comm is read as the empty text
    constructor
    · intro h
      exact absurd h (commToPkg_short (by decide) hlong)
    · rintro ⟨a, hk, h15, _⟩
      rw [(CommCut.bytes_eq_utf8 hlong).mpr ⟨hk, h15⟩, fromUtf8_utf8] at hdec
      cases hdec
  | some a =>
    have hbytes : cut.bytes p = utf8 a := fromUtf8_eq_some.mp hdec
    obtain ⟨hkeeps, h15⟩ := (CommCut.bytes_eq_utf8 hlong).mp hbytes
    have hunique : ∀ b, cut.Keeps b p → byteLen b = 15 → b = a := fun b hk hb =>
      utf8_injective (((CommCut.bytes_eq_utf8 hlong).mpr ⟨hk, hb⟩).symm.trans hbytes)
    rw [Option.getD_some]
    constructor
    · intro h
      have htrim : trim a = a := by
        -- a trimmed text is shorter than 15 bytes, and the search by prefix asks for 15
        by_contra hn
        have := byteLen_trim_lt hn
        exact commToPkg_short (by omega) hlong h
      rw [htrim] at h
      refine ⟨a, hkeeps, h15, htrim, fun hmem => ?_⟩
      rw [commToPkg, if_pos hmem] at h
      cases h
      omega
    · rintro ⟨b, hk, hb, htrim, hfresh⟩
      obtain rfl : b = a := hunique b hk hb
      rw [htrim, commToPkg, if_neg hfresh, if_pos ⟨hb.ge, p, hp, hk.match⟩, hname]
      simp [hp]

theorem attributed_iff_long :
    Attributed (fun _ => readCmdline (some (utf8 "com.example.abcd".toList))) 1000
      "com.example.abcd".toList (CommCut.first.comm "com.example.abcd".toList)
      (configOf (fun _ _ => true) quadTopology ∅ ∅ "com.example.abcd=0\n".toList) := by
  have hname : readCmdline (some (utf8 "com.example.abcd".toList)) = some "com.example.abcd".toList :=
    readCmdline_plain (by decide) (by decide) (by decide) (by decide) (by decide)
  refine (attributed_iff .first _ (fun _ => some (utf8 "com.example.abcd".toList)) 1000 _
    (by decide +kernel) hname).mpr (.inr ⟨"com.example.abc".toList, ⟨['d'], rfl⟩, by decide, by decide, ?_⟩)
  decide +kernel

/-- The kept bytes of `com.example.abcd` are the name of another configured package. -/
theorem truncated_name_taken :
    readCmdline (some (utf8 "com.example.abcd".toList)) = some "com.example.abcd".toList ∧
    "com.example.abcd".toList ∈ (configOf (fun _ _ => true) quadTopology ∅ ∅
      "com.example.abcd=0\ncom.example.abc=1\n".toList).pkgs ∧
    ¬ Attributed (fun _ => readCmdline (some (utf8 "com.example.abcd".toList))) 1000
      "com.example.abcd".toList (CommCut.first.comm "com.example.abcd".toList)
      (configOf (fun _ _ => true) quadTopology ∅ ∅ "com.example.abcd=0\ncom.example.abc=1\n".toList) := by
  refine ⟨readCmdline_plain (by decide) (by decide) (by decide) (by decide) (by decide),
    by decide +kernel, ?_⟩
  rintro ⟨_, hpkg⟩
  have hkept : CommCut.first.bytes "com.example.abcd".toList = utf8 "com.example.abc".toList := by decide
  rw [commStr_comm (by decide), hkept, fromUtf8_utf8, Option.getD_some,
    show trim "com.example.abc".toList = "com.example.abc".toList by decide, commToPkg,
    if_pos (by decide +kernel)] at hpkg
  revert hpkg
  decide

end AppOptR
