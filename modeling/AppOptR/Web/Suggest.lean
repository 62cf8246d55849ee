import AppOptR.Lib.TopK
import AppOptR.ProcWalk
import AppOptR.Tuning.Store
import AppOptR.Web.Http

/-!
# `Web.Suggest` — names for the input fields of the page

`suggest_api` of `web.rs` and what it calls. The names of packages come from four places: the directories of
`/data/data`, the loaded configuration, the tuning configuration, and the processes that run; those of threads from
the processes of one package. Each has a count, and `rank_top` keeps twenty: those that start with the text of the
field before those that contain it, a higher count before a lower one, then by name. Two texts compare as their
bytes do, which is as their characters do.
-/

namespace AppOptR

open Text Json TopK

/-- What the handler reads. Of `/data/data` it is the names of the entries. -/
structure SuggestWorld where
  dataDirs : Option (List (List UInt8))
  procs : Option (List ProcDir)
  cfg : Option AppConfig
  tuning : TuningConfig

/-! ## The ranking -/

/-- How well a name fits the text: `2` for a name that does not contain it. -/
def textRank (lq name : Str) : Nat :=
  let ln := toAsciiLowercase name
  if lq.isPrefixOf ln then 0 else if containsStr lq ln then 1 else 2

/-- `(u8, Reverse<usize>, String)`, which compares from left to right. -/
abbrev SortKey := Nat ×ₗ Natᵒᵈ ×ₗ Str

/-- The order of `rank_top`: rank, then count from the highest, then name. -/
def sortKey (rank count : Nat) (name : Str) : SortKey := toLex (rank, toLex (OrderDual.toDual count, name))

/-- `rank_top`: the twenty best. -/
def rankTop (counts : Counts Str) (lq : Str) : List (Str × Nat) :=
  let ranked := counts.entries.filterMap fun e =>
    if textRank lq e.1 < 2 then some (sortKey (textRank lq e.1) e.2 e.1) else none
  ((ranked.insertionSort (· ≤ ·)).take 20).map fun k =>
    ((ofLex (ofLex k).2).2, OrderDual.ofDual (ofLex (ofLex k).2).1)

/-! ## The names -/

/-- `installed_pkgs`. -/
def installedPkgs (w : SuggestWorld) : List Str :=
  ((w.dataDirs.getD []).map fromUtf8Lossy).filter fun n => n.contains '.' && n.head? != some '.'

/-- The package names of the processes, as `suggest_pkgs` meets them. -/
def runningPkgs (w : SuggestWorld) : List Str :=
  (w.procs.getD []).filterMap fun dir => (readCmdline dir.cmdline).filter (·.contains '.')

def configuredPriority : Nat := 1000000

/-- `saturating_add(1)` of a `usize`. -/
def saturatingSucc (n : Nat) : Nat := min (n + 1) (2 ^ 64 - 1)

/-- `suggest_pkgs`. -/
def suggestPkgs (w : SuggestWorld) (q : Str) : List (Str × Nat) :=
  let counts := putAll ∅ 0 (installedPkgs w)
  let counts := match w.cfg with
    | some cfg => putAll counts configuredPriority (cfg.pkgs.sort (· ≤ ·))
    | none => counts
  let counts := putAll counts configuredPriority ((appPackageNames w.tuning).sort (· ≤ ·))
  rankTop (tally saturatingSucc counts (runningPkgs w)) (toAsciiLowercase q)

/-- `thread_comm`. -/
def threadComm (file : Option (List UInt8)) : Option Str :=
  (file.bind fromUtf8).bind fun s =>
    let name := trim (s.rdropWhile fun c => c = '\x00' || c = '\n')
    if name.isEmpty then none else some name

/-- The thread names of the processes of a package, as `suggest_threads` meets them. -/
def runningThreads (w : SuggestWorld) (pkg : Str) : List Str :=
  ((w.procs.getD []).filter fun dir => readCmdline dir.cmdline == some pkg).flatMap fun dir =>
    (dir.tasks.getD []).filterMap fun t => threadComm t.comm

/-- `*counts += 1`, of counts that no number of threads brings to an overflow. -/
def suggestThreads (w : SuggestWorld) (pkg q : Str) : List (Str × Nat) :=
  rankTop (tally Nat.succ ∅ (runningThreads w pkg)) (toAsciiLowercase q)

/-- `suggest_api`: the names, or the reply that refuses. -/
def suggestApi (w : SuggestWorld) (body : Option Value) : Except Reply (List Str) :=
  match body with
  | none => .error (errJson 400 "请求体不是合法 JSON")
  | some v =>
    let q := ((v.index "q".toList).asStr.map trim).getD []
    if 64 < byteLen q then .error (errJson 400 "q 过长")
    else
      match ((v.index "pkg".toList).asStr.map trim).filter (!·.isEmpty) with
      | none => .ok ((suggestPkgs w q).map (·.1))
      | some pkg =>
        if !tokenOk pkg maxPkgLen then .error (errJson 400 "名称含有非法字符")
        else .ok ((suggestThreads w pkg q).map (·.1))

/-! ## What is suggested -/

/-- The packages that the page may suggest, and the threads. -/
def pkgCandidates (w : SuggestWorld) : Finset Str :=
  (installedPkgs w).toFinset ∪ ((w.cfg.map (·.pkgs)).getD ∅ ∪ appPackageNames w.tuning) ∪ (runningPkgs w).toFinset

/-- The weight of a package: a million where it is configured, and its processes. -/
def pkgWeight (w : SuggestWorld) (name : Str) : Nat :=
  let configured := (w.cfg.map (·.pkgs)).getD ∅ ∪ appPackageNames w.tuning
  min ((if name ∈ configured then configuredPriority else 0) + (runningPkgs w).count name) (2 ^ 64 - 1)

/-- The candidates and their weights, for the package field of a request or none. -/
def candidates (w : SuggestWorld) : Option Str → Finset Str
  | none => pkgCandidates w
  | some pkg => (runningThreads w pkg).toFinset

/-- The weight of a name among the candidates. -/
def weight (w : SuggestWorld) : Option Str → Str → Nat
  | none => pkgWeight w
  | some pkg => fun name => (runningThreads w pkg).count name

/-- Where a name stands among the suggestions for a text. -/
def place (weight : Str → Nat) (q name : Str) : SortKey :=
  sortKey (textRank (toAsciiLowercase q) name) (weight name) name

/-- The candidates that contain the text, in any case of its ASCII letters. -/
def matching (candidates : Finset Str) (q : Str) : Finset Str :=
  candidates.filter fun name => toAsciiLowercase q <:+: toAsciiLowercase name

/-- The twenty best of the matching candidates, best first. -/
structure Best (candidates : Finset Str) (weight : Str → Nat) (q : Str) (list : List Str) : Prop where
  ordered : list.Pairwise fun a b => place weight q a < place weight q b
  mem : ∀ name, name ∈ list ↔ name ∈ matching candidates q ∧
    ((matching candidates q).filter fun other => place weight q other < place weight q name).card < 20

theorem textRank_lt {lq name : Str} : textRank lq name < 2 ↔ lq <:+: toAsciiLowercase name := by
  unfold textRank
  dsimp only
  by_cases hp : lq.isPrefixOf (toAsciiLowercase name) = true
  · simpa [hp] using (List.isPrefixOf_iff_prefix.mp hp).isInfix
  by_cases hc : containsStr lq (toAsciiLowercase name) = true
  · simpa [hp, hc] using containsStr_iff.mp hc
  · simpa [hp, hc] using fun h => hc (containsStr_iff.mpr h)

theorem place_injective {weight : Str → Nat} {q a b : Str} (h : place weight q a = place weight q b) : a = b :=
  congrArg (fun k : SortKey => (ofLex (ofLex k).2).2) h

/-- What `rank_top` keeps of a map, by the names and the counts in it. -/
theorem rankTop_best {counts : Counts Str} {candidates : Finset Str} {weight : Str → Nat} (q : Str)
    (h : ∀ name, counts.lookup name = if name ∈ candidates then some (weight name) else none) :
    Best candidates weight q ((rankTop counts (toAsciiLowercase q)).map (·.1)) := by
  have hkeys : ∀ name, name ∈ counts.keys ↔ name ∈ candidates := by
    intro name
    rw [← AList.mem_keys, ← AList.lookup_isSome, h]
    by_cases hc : name ∈ candidates <;> simp [hc]
  -- the names that match; what is sorted are their places
  let names := counts.keys.filter fun n => decide (textRank (toAsciiLowercase q) n < 2)
  have hnames : ∀ name, name ∈ names ↔ name ∈ matching candidates q := by
    intro name
    rw [List.mem_filter, hkeys, decide_eq_true_eq, textRank_lt, matching, Finset.mem_filter]
  have hnodup : names.Nodup := counts.keys_nodup.filter _
  have hset : names.toFinset = matching candidates q := by
    ext name
    rw [List.mem_toFinset, hnames]
  have hranked : (counts.entries.filterMap fun e =>
      if textRank (toAsciiLowercase q) e.1 < 2
      then some (sortKey (textRank (toAsciiLowercase q) e.1) e.2 e.1) else none)
        = names.map (place weight q) := by
    have hentry : ∀ e ∈ counts.entries, e.2 = weight e.1 := by
      rintro ⟨name, count⟩ he
      have hlookup := (AList.mem_lookup_iff (s := counts)).mpr he
      rw [h, Option.mem_def] at hlookup
      split at hlookup
      · exact (Option.some.inj hlookup).symm
      · cases hlookup
    rw [← List.filterMap_eq_map, List.filterMap_filter, AList.keys, List.keys, List.filterMap_map]
    refine List.filterMap_congr fun e he => ?_
    rw [hentry e he, Function.comp_apply, Function.comp_apply, place]
    by_cases hr : textRank (toAsciiLowercase q) e.1 < 2 <;> simp [hr]
  have hplaces : (names.map (place weight q)).Nodup := hnodup.map fun _ _ => place_injective
  -- the names of the places that are kept
  have htop : (rankTop counts (toAsciiLowercase q)).map (·.1)
      = (((names.map (place weight q)).insertionSort (· ≤ ·)).take 20).map fun k => (ofLex (ofLex k).2).2 := by
    rw [rankTop, hranked, List.map_map]
    rfl
  have hback : ∀ k ∈ ((names.map (place weight q)).insertionSort (· ≤ ·)).take 20,
      place weight q (ofLex (ofLex k).2).2 = k := by
    intro k hk
    obtain ⟨name, -, rfl⟩ := List.mem_map.mp ((List.mem_insertionSort _).mp (List.mem_of_mem_take hk))
    rfl
  rw [htop]
  constructor
  · rw [List.pairwise_map]
    refine ((pairwise_lt hplaces).sublist (List.take_sublist _ _)).imp_of_mem fun ha hb hab => ?_
    rwa [hback _ ha, hback _ hb]
  · intro name
    have hmem : name ∈ (((names.map (place weight q)).insertionSort (· ≤ ·)).take 20).map
        (fun k => (ofLex (ofLex k).2).2)
        ↔ place weight q name ∈ ((names.map (place weight q)).insertionSort (· ≤ ·)).take 20 := by
      rw [List.mem_map]
      constructor
      · rintro ⟨k, hk, rfl⟩
        rwa [hback k hk]
      · exact fun hk => ⟨_, hk, rfl⟩
    rw [hmem, mem_take_sort hplaces, List.mem_map_of_injective fun _ _ => place_injective, hnames, List.countP_map,
      ← hset, ← countP_eq_card hnodup]
    rfl

theorem iterate_saturatingSucc (k n : Nat) (h : n ≤ 2 ^ 64 - 1) :
    saturatingSucc^[k] n = min (n + k) (2 ^ 64 - 1) := by
  induction k with
  | zero => rw [Function.iterate_zero_apply, Nat.add_zero, Nat.min_eq_left h]
  | succ k ih =>
    rw [Function.iterate_succ_apply', ih, saturatingSucc]
    omega

theorem suggestPkgs_best (w : SuggestWorld) (q : Str) :
    Best (pkgCandidates w) (pkgWeight w) q ((suggestPkgs w q).map (·.1)) := by
  refine rankTop_best q fun name => ?_
  set configured := (w.cfg.map (·.pkgs)).getD ∅ ∪ appPackageNames w.tuning with hconfigured
  -- the map before the processes are counted
  have hbase : (putAll (match w.cfg with
      | some cfg => putAll (putAll ∅ 0 (installedPkgs w)) configuredPriority (cfg.pkgs.sort (· ≤ ·))
      | none => putAll ∅ 0 (installedPkgs w)) configuredPriority ((appPackageNames w.tuning).sort (· ≤ ·))).lookup name
      = if name ∈ configured then some configuredPriority else if name ∈ installedPkgs w then some 0 else none := by
    rw [lookup_putAll]
    cases hcfg : w.cfg with
    | none =>
      rw [lookup_putAll, AList.lookup_empty]
      simp [hconfigured, hcfg]
    | some cfg =>
      dsimp only
      rw [lookup_putAll, lookup_putAll, AList.lookup_empty]
      by_cases htuned : name ∈ appPackageNames w.tuning
      · simp [hconfigured, hcfg, htuned]
      · simp [hconfigured, hcfg, htuned]
  have hle : ((if name ∈ configured then some configuredPriority else if name ∈ installedPkgs w then some 0
      else none).getD 0) = if name ∈ configured then configuredPriority else 0 := by
    split
    · rfl
    · split <;> rfl
  have hmem : name ∈ pkgCandidates w ↔ name ∈ installedPkgs w ∨ name ∈ configured ∨ name ∈ runningPkgs w := by
    rw [pkgCandidates, ← hconfigured, Finset.mem_union, Finset.mem_union, List.mem_toFinset, List.mem_toFinset,
      or_assoc]
  have hweight : pkgWeight w name
      = min ((if name ∈ configured then configuredPriority else 0) + (runningPkgs w).count name) (2 ^ 64 - 1) := rfl
  have hsmall : (if name ∈ configured then configuredPriority else 0) ≤ 2 ^ 64 - 1 := by
    split <;> decide
  rw [lookup_tally, hbase, hle, iterate_saturatingSucc _ _ hsmall, ← hweight]
  by_cases hrun : name ∈ runningPkgs w
  · rw [if_pos hrun, if_pos (hmem.mpr (.inr (.inr hrun)))]
  have hcount : (runningPkgs w).count name = 0 := List.count_eq_zero_of_not_mem hrun
  rw [if_neg hrun]
  by_cases hconf : name ∈ configured
  · rw [if_pos hconf, if_pos (hmem.mpr (.inr (.inl hconf))), hweight, if_pos hconf, hcount]
    rfl
  rw [if_neg hconf]
  by_cases hinst : name ∈ installedPkgs w
  · rw [if_pos hinst, if_pos (hmem.mpr (.inl hinst)), hweight, if_neg hconf, hcount]
    rfl
  · rw [if_neg hinst, if_neg fun h => (hmem.mp h).elim hinst fun h => h.elim hconf hrun]

/-- The field `pkg` of a request, where it says something, and its text. -/
def pkgField (v : Value) : Option Str := ((v.index "pkg".toList).asStr.map trim).filter (!·.isEmpty)

/-- The text of the field. -/
def textField (v : Value) : Str := ((v.index "q".toList).asStr.map trim).getD []

theorem suggestThreads_best (w : SuggestWorld) (pkg q : Str) :
    Best (candidates w (some pkg)) (weight w (some pkg)) q ((suggestThreads w pkg q).map (·.1)) := by
  refine rankTop_best q fun name => ?_
  rw [lookup_tally, AList.lookup_empty, Option.getD_none, Nat.succ_iterate, Nat.zero_add]
  by_cases hrun : name ∈ runningThreads w pkg <;> simp [hrun, candidates, weight]

/-- **What the page suggests**: of the names there are for the field, the twenty best that contain its text. -/
theorem suggestions_best (w : SuggestWorld) (v : Value) (list : List Str) (h : suggestApi w (some v) = .ok list) :
    Best (candidates w (pkgField v)) (weight w (pkgField v)) (textField v) list := by
  unfold suggestApi at h
  dsimp only at h
  split at h
  · cases h
  split at h
  · next hpkg =>
    rw [← Except.ok.inj h, pkgField, hpkg]
    exact suggestPkgs_best w (textField v)
  · next pkg hpkg =>
    split at h
    · cases h
    · rw [← Except.ok.inj h, pkgField, hpkg]
      exact suggestThreads_best w pkg (textField v)

/-- A package that runs twice, before one that is only installed. -/
def twoPackages : SuggestWorld where
  dataDirs := some [utf8 "com.a".toList, utf8 "local".toList]
  procs := some [⟨7, some (utf8 "com.c".toList), none, none⟩, ⟨9, some (utf8 "com.c".toList), none, none⟩]
  cfg := none
  tuning := {}

theorem suggestions_best_two :
    suggestApi twoPackages (some (.object [("q".toList, .string " COM ".toList)]))
        = .ok ["com.c".toList, "com.a".toList] ∧
      Best (candidates twoPackages none) (weight twoPackages none) "COM".toList ["com.c".toList, "com.a".toList] := by
  have hlist : suggestApi twoPackages (some (.object [("q".toList, .string " COM ".toList)]))
      = .ok ["com.c".toList, "com.a".toList] := by decide +kernel
  exact ⟨hlist, suggestions_best twoPackages (.object [("q".toList, .string " COM ".toList)]) _ hlist⟩

end AppOptR
