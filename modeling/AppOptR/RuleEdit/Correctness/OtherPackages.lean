import AppOptR.RuleEdit.Correctness.Comments
import AppOptR.RuleEdit.Correctness.DeleteRounds
import AppOptR.RuleEdit.Correctness.DeleteRule
import AppOptR.RuleEdit.Correctness.RenameCarries

/-!
# `RuleEdit.Correctness.OtherPackages` — an edit of one package and the rules of the others

`Changed`, `Renames` and `RoundSpares` each say, of one operation, that another package reads what it read. Here
they are one statement about every call (`edits_spare_others`), with what each of them needs (`OthersSafe`): the
text and the lines a call works on have none of the traps in which a brace is lost, is written into a comment or
comes to stand under another header.
-/

namespace AppOptR

open Text Relation

variable {pkg thread cpus old new : Str} {ls ls' : List Str} {topo : CpuTopology}

/-! ## The calls -/

/-- A call that edits one package, or gives it another name. -/
inductive PackageCall where
  | edit (call : RuleCall)
  | deletePkg (pkg : Str)
  deriving DecidableEq

def PackageCall.call : PackageCall → EditCall
  | .edit c => c.call
  | .deletePkg pkg => .deletePkg pkg

/-- The arguments that the handlers of `web.rs` pass on. -/
def PackageCall.Admitted : PackageCall → Prop
  | .edit c => c.Admitted
  | .deletePkg _ => True

/-- The packages a call is about. -/
def PackageCall.packages : PackageCall → List Str
  | .edit (.upsert pkg _ _) | .edit (.delete pkg _) | .deletePkg pkg => [pkg]
  | .edit (.rename old new) => [old, new]

/-- The names a call is given. -/
def PackageCall.names : PackageCall → List Str
  | .edit (.upsert pkg thread _) | .edit (.delete pkg thread) => [pkg, thread]
  | .edit (.rename old new) => [old, new]
  | .deletePkg pkg => [pkg]

/-! ## What a call needs -/

/-- The text has no clash, and the normalisation meets none of its traps. -/
structure NormalSafe (ls : List Str) (pkg : Str) : Prop where
  clashFree : ClashFree ls
  normal : normalizeRuns ls pkg = true → NormalizeSafe ls pkg

/-- The spec of the header can be found again. -/
def HeaderSwapSafe (ls : List Str) (pkg : Str) : Prop :=
  ∀ e ∈ outlineAt ls, e.1 ∈ statingLine (targetScan ls pkg) → SwapSafe (ls.getD e.1 []) e.2.2

/-- The removed header, if it is one that stands alone, does not keep another header and a brace apart. -/
def HeaderApart (ls : List Str) (pkg : Str) : Prop :=
  ∀ i, (targetScan ls pkg).pkgLine = some (.standalone i) → ¬ Bridged ls [i]

/-- The header that is turned into a bare opening line has a name to put before the brace. -/
def OpenerNamed (ls : List Str) (pkg : Str) : Prop :=
  ∀ i, (targetScan ls pkg).pkgLine = some (.openInline i) → pkg ≠ []

/-- The call meets none of the traps that would change what another package reads. -/
def OthersSafe (ls : List Str) : PackageCall → Prop
  | .edit (.upsert pkg thread cpus) => '\n' ∉ cpus ∧ NormalSafe ls pkg ∧
      if thread.isEmpty then HeaderSwapSafe (normalizeSingles ls pkg) pkg
      else ThreadEditSafe (normalizeSingles ls pkg) pkg thread
  | .edit (.delete pkg thread) => NormalSafe ls pkg ∧
      if thread.isEmpty then
        HeaderApart (normalizeSingles ls pkg) pkg ∧ OpenerNamed (normalizeSingles ls pkg) pkg
      else ¬ Bridged (normalizeSingles ls pkg) (erasedLocs (normalizeSingles ls pkg) pkg thread)
  | .edit (.rename old _) => NormalSafe ls old
  | .deletePkg pkg => NormalSafe ls pkg ∧ DeletesApart pkg (normalizeSingles ls pkg)

/-! ## Call by call -/

/-- The lines that are written say the same to every package but those of the call. -/
structure SparesOthers (names : List Str) (ls ls' : List Str) : Prop where
  unbroken : Unbroken ls'
  clashFree : ClashFree ls'
  others : ∀ q, q ∉ names → q ≠ [] → seen q Place.start ls' = seen q Place.start ls

theorem Changed.spares {es : List (Str × Str)} (h : Changed pkg thread es ls ls') (hplain : Unbroken ls') :
    SparesOthers [pkg] ls ls' :=
  ⟨hplain, h.clashFree, fun q hq _ => h.others q (by simpa using hq)⟩

theorem upsert_spares {body : Option Json.Value} (hargs : ruleApiArgs body (some topo) = .ok (pkg, thread, cpus))
    (hp : PlainName pkg) (hpt : PlainName thread) (hls : Unbroken ls)
    (hsafe : OthersSafe ls (.edit (.upsert pkg thread cpus))) (h : upsertLines pkg thread cpus ls = .ok ls') :
    SparesOthers [pkg] ls ls' := by
  have hnames := ruleApiArgs_ok hargs
  have hpkg := hnames.pkgName
  obtain ⟨hline, ⟨hc, hnormal⟩, hedit⟩ := hsafe
  have hkept := normalizeSingles_kept hc hnormal
  have hmid := @normalizeSingles_unbroken pkg _ hls
  unfold upsertLines at h
  dsimp only at h
  by_cases hth : thread = []
  · subst hth
    rw [if_pos List.isEmpty_nil] at h hedit
    have hchanged := upsertPackage_changed hpkg.key hp (hp.blockName hpkg).2.1 hnames.spec hkept.clashFree hedit
      (normalized_shape hnormal) h
    exact (hkept.changed hchanged).spares (upsertPackage_unbroken hpkg.no_newline hline hmid h)
  · rw [if_neg (by simpa using hth)] at h hedit
    have hn := hnames.threadName hth
    have hchanged := upsertThread_changed hpkg.key hp hn hpt hnames.spec hkept.clashFree hedit h
    exact (hkept.changed hchanged).spares (upsertThread_unbroken hpkg.no_newline hn.no_newline hline hmid h)

theorem delete_spares (hp : PlainName pkg) (hls : Unbroken ls) (hsafe : OthersSafe ls (.edit (.delete pkg thread)))
    (h : deleteLines pkg thread ls = .ok ls') : SparesOthers [pkg] ls ls' := by
  obtain ⟨⟨hc, hnormal⟩, hedit⟩ := hsafe
  have hkept := normalizeSingles_kept hc hnormal
  have hplain := deleteLines_unbroken hls h
  rcases deleteLines_cases pkg thread ls with ⟨he, _⟩ | ⟨rfl, i, hline, he⟩ | ⟨rfl, i, hline, he⟩ | ⟨hth, he⟩
  · rw [he] at h
    cases h
  · rw [he] at h
    obtain rfl := Except.ok.inj h
    rw [if_pos List.isEmpty_nil] at hedit
    exact (hkept.changed (deleteStandalone_changed hkept.clashFree hline (hedit.1 i hline))).spares hplain
  · rw [he] at h
    obtain rfl := Except.ok.inj h
    rw [if_pos List.isEmpty_nil] at hedit
    exact (hkept.changed (deleteOpenInline_changed (hedit.2 i hline) hp hkept.clashFree hline)).spares hplain
  · rw [he] at h
    obtain rfl := Except.ok.inj h
    rw [if_neg (by simpa using hth)] at hedit
    exact (hkept.changed (deleteThread_changed hth hkept.clashFree hedit)).spares hplain

theorem deletePkg_spares {fuel : Nat} (hls : Unbroken ls) (hsafe : OthersSafe ls (.deletePkg pkg))
    (h : deletePkgLines fuel pkg ls = some (.ok ls')) : SparesOthers [pkg] ls ls' := by
  obtain ⟨⟨hc, hnormal⟩, hrounds⟩ := hsafe
  have hkept := normalizeSingles_kept hc hnormal
  obtain ⟨⟨out, removed⟩, hloop, hout⟩ := Option.map_eq_some_iff.mp h
  obtain ⟨hrun, _, _⟩ := deletePkgLoop_exit hloop
  have heq : out = ls' := by
    cases removed with
    | false => cases hout
    | true => exact Except.ok.inj hout
  subst heq
  refine ⟨rounds_unbroken hrun (normalizeSingles_unbroken hls), (hrounds _ hrun).1, fun q hq hempty => ?_⟩
  have hne : q ≠ pkg := by simpa using hq
  rw [(rounds_spare hne hempty hrounds (normalized_shape hnormal) hrun).1, hkept.others q hne]

theorem rename_spares {fuel : Nat} {body : Option Json.Value} (hargs : ruleRenameApiArgs body = .ok (some (old, new)))
    (hp : PlainName new) (hls : Unbroken ls) (hsafe : OthersSafe ls (.edit (.rename old new)))
    (h : renameLines fuel old new ls = some (.ok ls')) : SparesOthers [old, new] ls ls' := by
  have hnames := ruleRenameApiArgs_ok hargs
  have hw := rename_written hnames h hsafe.clashFree hsafe.normal (hp.roundsSafe hnames.newName.ne _)
  refine ⟨hw.unbroken hls, hw.clashFree, fun q hq _ => ?_⟩
  simp only [List.mem_cons, List.not_mem_nil, or_false, not_or] at hq
  exact hw.others q hq.1 hq.2

theorem OthersSafe.clashFree {call : PackageCall} (h : OthersSafe ls call) : ClashFree ls := by
  cases call with
  | edit c =>
    cases c with
    | upsert pkg thread cpus => exact h.2.1.clashFree
    | delete pkg thread => exact h.1.clashFree
    | rename old new => exact NormalSafe.clashFree h
  | deletePkg pkg => exact h.1.clashFree

/-- **Every call.** -/
theorem PackageCall.spares {fuel : Nat} (call : PackageCall) (hargs : call.Admitted)
    (hplain : ∀ s ∈ call.names, PlainName s) (hls : Unbroken ls) (hsafe : OthersSafe ls call)
    (h : call.call.edit fuel ls = some (.ok ls')) : SparesOthers call.packages ls ls' := by
  cases call with
  | edit c =>
    cases c with
    | upsert pkg thread cpus =>
      obtain ⟨body, topo, hbody⟩ := hargs
      exact upsert_spares hbody (hplain pkg (by simp [names])) (hplain thread (by simp [names])) hls hsafe
        (Option.some.inj h)
    | delete pkg thread => exact delete_spares (hplain pkg (by simp [names])) hls hsafe (Option.some.inj h)
    | rename old new =>
      obtain ⟨body, hbody⟩ := hargs
      exact rename_spares hbody (hplain new (by simp [names])) hls hsafe h
  | deletePkg pkg => exact deletePkg_spares hls hsafe h

/-! ## The file -/

/-- The loader reads the same rules for `q` in both texts. -/
def SameRules (topo : CpuTopology) (q text written : Str) : Prop :=
  ∀ create create', rulesFor q (loadLines create' topo (lines written)).rules =
    rulesFor q (loadLines create topo (lines text)).rules

theorem SparesOthers.rules {names : List Str} {q text : Str} (h : SparesOthers names (lines text) ls')
    (hc : ClashFree (lines text)) (hq : q ∉ names) (topo : CpuTopology) : SameRules topo q text (unlines ls') := by
  intro create create'
  by_cases hempty : q = []
  · rw [hempty, rulesFor_empty, rulesFor_empty]
  · rw [rulesFor_written h.clashFree h.unbroken, h.others q hq hempty, rulesFor_eq, callsFor_eq_seen hc]

end AppOptR
