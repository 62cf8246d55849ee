import AppOptR.RuleEdit.Correctness.Clone
import AppOptR.RuleEdit.Correctness.RenameEnds
import AppOptR.Web.Correctness.Requests
import AppOptR.Web.Desk

/-!
# `Web.Correctness.Desk` — the server refines the desk

Every request does to the files and the statics what `Desk.serve` says, one lemma per handler (`edited_desk`,
`clone_desk`, `setTuning_desk`), and a run of requests what the run of deeds says (`page_refines_desk`). The
loader enters once (`loaded_of_file`): what `load_config` makes of the file of a book is determined by the book.
-/

namespace AppOptR

open Text Json

variable {env : ServerEnv} {fuel : Nat} {io : ServerIo} {topo : CpuTopology} {s : Server} {d : Desk} {book : Book}
  {tuning : TuningConfig} {call : EditCall} {args : CloneArgs} {body : Option Value} {req : Request}
  {parseJson : List UInt8 → Option Value}

/-! ## Loading -/

/-- What the loader makes of the file of a book. -/
theorem loaded_of_file {content : Str} (create : Nat → Str → Bool) (h : lines content = book.text) (hb : book.Ok topo)
    (tuning : TuningConfig) :
    Loaded topo (configOf create topo (appPackageNames tuning) (threadRulePackages tuning) content) book tuning := by
  have hrules : (loadLines create topo (lines content)).rules.map AffinityRule.view = book.rules.map (parsed topo) := by
    have hload := (loadLines_book create hb.items).rules
    rw [h]
    simpa using hload
  have hpkgs : (loadLines create topo (lines content)).rules.map (·.pkg) = book.rules.map (·.1) := by
    have := congrArg (List.map fun v : Str × Str × CpuSet => v.1) hrules
    rwa [List.map_map, List.map_map] at this
  have hthreads : ((loadLines create topo (lines content)).rules.filter fun r => !r.thread.isEmpty).map (·.pkg)
      = (book.rules.filter fun e => !e.2.1.isEmpty).map (·.1) := by
    have := congrArg (fun vs : List (Str × Str × CpuSet) => (vs.filter fun v => !v.2.1.isEmpty).map (·.1)) hrules
    simp only [List.filter_map, List.map_map] at this
    exact this
  exact ⟨rfl, hrules, by simp only [configOf, hpkgs], by simp only [configOf, hthreads]⟩

namespace Server.Holds

/-- A reload of the server is one of the desk. -/
theorem reload (h : s.Holds topo d) (io : ServerIo) : (s.reloadNow io).Holds topo (d.reload io) := by
  obtain ⟨cfg, hcurrent, hloaded⟩ := h.shown
  obtain ⟨content, hcontent⟩ := Option.isSome_iff_exists.mp h.present
  unfold Server.reloadNow Desk.reload
  rw [hcurrent, hcontent]
  cases io.metadataOk with
  | false => exact h
  | true =>
    have hfile := h.file
    rw [hcontent, Option.getD_some] at hfile
    refine ⟨h.present, h.file, h.ok, h.tuning, _, rfl, ?_⟩
    rw [h.tuning, hloaded.topology]
    exact loaded_of_file io.createCpusetDir hfile h.ok d.tuning

/-- The file of another book is written. -/
theorem written (h : s.Holds topo d) (hb : book.Ok topo) :
    (s.setContent (some (unlines book.text))).Holds topo { d with book := book.written } where
  present := by simp [Server.setContent, Server.content]
  file := by simpa [Server.setContent, Server.content] using lines_written hb.items
  ok := hb.written
  tuning := h.tuning
  shown := h.shown

/-- The tuning configuration is saved. -/
theorem saved (h : s.Holds topo d) {store : TuningStore} (hstore : store.config = tuning) :
    Server.Holds topo { s with tuning := store } { d with tuning } :=
  ⟨h.present, h.file, h.ok, hstore, h.shown⟩

end Server.Holds

/-! ## Edits of the rules -/

/-- What an edit of a book leaves of its file. -/
def Book.filed (call : EditCall) (writeOk : Bool) (content : Option Str) (b : Book) : RuleEdit × Option Str :=
  match b.edit call with
  | .error e => (e, content)
  | .ok book => if writeOk then (.ok, some (unlines book.text)) else (.ioErr, content)

/-- An edit of the file comes to an end, and is the book's. -/
theorem onText_book (h : s.Holds topo d) (call : EditCall) (ha : call.Admitted topo) (hfuel : 2 ≤ fuel)
    (writeOk : Bool) : call.onText fuel writeOk s.content = some (d.book.filed call writeOk s.content) := by
  rw [EditCall.onText_edit, h.file, edit_book h.ok ha hfuel, Option.map_some]
  unfold editFile Book.filed
  cases d.book.edit call <;> rfl

/-- The server after a request holds the desk after it, and the status of the response is the desk's. -/
structure Does (topo : CpuTopology) (s : Server) (status : Nat) (d : Desk × Nat) : Prop where
  holds : s.Holds topo d.1
  status : status = d.2

/-- **A handler of the rules file** does what the desk says, if its reply says how the edit went. -/
theorem edited_desk (io : ServerIo) (h : s.Holds topo d) (ha : call.Admitted topo) (reply : Reply)
    (hreply : reply.code = editStatus (d.book.filed call io.writeOk s.content).1) :
    Does topo (s.edited io ⟨reply, (d.book.filed call io.writeOk s.content).2,
      (d.book.filed call io.writeOk s.content).1 = .ok⟩).1 reply.code (d.edit io call) := by
  unfold Server.edited Desk.edit
  unfold Book.filed at hreply ⊢
  cases hb : d.book.edit call with
  | error e =>
    rw [hb] at hreply
    have hne : e ≠ .ok := by
      rcases Book.edit_error hb with rfl | rfl <;> decide
    exact ⟨by simpa [hne] using h, hreply⟩
  | ok book =>
    rw [hb] at hreply
    cases hw : io.writeOk with
    | false =>
      rw [hw] at hreply
      exact ⟨by simpa using h, hreply⟩
    | true =>
      rw [hw] at hreply
      exact ⟨by simpa using (h.written (h.ok.edit ha hb)).reload io, hreply⟩

theorem editReply_code (notFound conflict : String) (e : RuleEdit) :
    (editReply notFound conflict e).code = editStatus e := by
  cases e <;> rfl

theorem ruleApi_desk (io : ServerIo) (h : s.Holds topo d) {pkg thread cpus : Str}
    (hargs : ruleApiArgs body (some topo) = .ok (pkg, thread, cpus))
    (hplain : (Deed.edit (.upsert pkg thread cpus)).Plain) :
    Does topo (s.ruleApi io body).1 (s.ruleApi io body).2.code (d.edit io (.upsert pkg thread cpus)) := by
  obtain ⟨cfg, hcurrent, hloaded⟩ := h.shown
  have ha := admitted_of_ruleApi hargs hplain.1 hplain.2.1 hplain.2.2
  have hfile : ruleUpsert io.writeOk s.content pkg thread cpus
      = d.book.filed (.upsert pkg thread cpus) io.writeOk s.content :=
    Option.some.inj (onText_book h (.upsert pkg thread cpus) ha (Nat.le_refl 2) io.writeOk)
  have hdesk := edited_desk io h ha
  unfold Server.ruleApi AppOptR.ruleApi
  rw [hcurrent, Option.map_some, hloaded.topology, hargs]
  dsimp only
  rw [hfile]
  cases hw : io.writeOk with
  | false =>
    have hfiled : d.book.filed (.upsert pkg thread cpus) false s.content = (.ioErr, s.content) := rfl
    rw [hw, hfiled] at hdesk
    rw [hfiled]
    exact hdesk (errJson 500 "配置文件写入失败") rfl
  | true =>
    have hfiled : d.book.filed (.upsert pkg thread cpus) true s.content
        = (.ok, some (unlines (d.book.upsert pkg thread cpus).text)) := rfl
    rw [hw, hfiled] at hdesk
    rw [hfiled]
    exact hdesk okJson rfl

theorem ruleDelApi_desk (io : ServerIo) (h : s.Holds topo d) {pkg thread : Str} {all : Bool}
    (hargs : ruleDelApiArgs body = .ok (pkg, thread, all)) (hfuel : 2 ≤ fuel) :
    ∃ r, s.ruleDelApi fuel io body = some r ∧
      Does topo r.1 r.2.code (d.edit io (if all then .deletePkg pkg else .delete pkg thread)) := by
  unfold Server.ruleDelApi AppOptR.ruleDelApi
  rw [hargs]
  dsimp only
  cases all with
  | false =>
    have hdelete : (EditCall.delete pkg thread).Admitted topo := trivial
    have hfile : some (ruleDelete io.writeOk s.content pkg thread)
        = some (d.book.filed (.delete pkg thread) io.writeOk s.content) :=
      onText_book h (.delete pkg thread) hdelete hfuel io.writeOk
    simp only [Bool.false_eq_true, if_false, hfile, Option.map_some]
    exact ⟨_, rfl, edited_desk io h hdelete _ (editReply_code _ _ _)⟩
  | true =>
    have hdelete : (EditCall.deletePkg pkg).Admitted topo := trivial
    have hfile : ruleDeletePkg fuel io.writeOk s.content pkg
        = some (d.book.filed (.deletePkg pkg) io.writeOk s.content) :=
      onText_book h (.deletePkg pkg) hdelete hfuel io.writeOk
    simp only [if_true, hfile, Option.map_some]
    exact ⟨_, rfl, edited_desk io h hdelete _ (editReply_code _ _ _)⟩

theorem ruleRenameApi_desk (io : ServerIo) (h : s.Holds topo d) {old new : Str}
    (hargs : ruleRenameApiArgs body = .ok (some (old, new))) (hplain : PlainName new) (hfuel : 2 ≤ fuel) :
    ∃ r, s.ruleRenameApi fuel io body = some r ∧
      Does topo r.1 r.2.code (d.edit io (.rename old new)) := by
  have ha : (EditCall.rename old new).Admitted topo := ⟨(ruleRenameApiArgs_ok hargs).newName, hplain⟩
  have hfile : ruleRename fuel io.writeOk s.content old new
      = some (d.book.filed (.rename old new) io.writeOk s.content) :=
    onText_book h (.rename old new) ha hfuel io.writeOk
  unfold Server.ruleRenameApi AppOptR.ruleRenameApi
  rw [hargs]
  simp only [hfile, Option.map_some]
  exact ⟨_, rfl, edited_desk io h ha _ (editReply_code _ _ _)⟩

/-! ## Clones -/

theorem cloneReply_code (ioErr : String) (e : RuleEdit) : (cloneReply ioErr e).code = editStatus e := by
  cases e <;> rfl

theorem ruleCloneCheck_book (h : s.Holds topo d) {source target : Str} {copyPackage copyThreads : Bool}
    (ht : Title maxPkgLen target) (hcopy : (copyPackage || copyThreads) = true) :
    ruleCloneCheck s.content source target copyPackage copyThreads
      = match d.book.clone source target copyPackage copyThreads with
        | .ok _ => .ok
        | .error e => e := by
  have hclone : cloneLines source target copyPackage copyThreads d.book.text
      = (d.book.clone source target copyPackage copyThreads).map Book.text := cloneLines_book h.ok ht hcopy
  unfold cloneLines at hclone
  unfold ruleCloneCheck
  rw [h.file]
  cases hp : clonePrepare source target copyPackage copyThreads d.book.text with
  | error e =>
    rw [hp] at hclone
    cases hb : d.book.clone source target copyPackage copyThreads with
    | error e' =>
      rw [hb] at hclone
      exact Except.error.inj hclone
    | ok book =>
      rw [hb] at hclone
      cases hclone
  | ok prepared =>
    rw [hp] at hclone
    cases hb : d.book.clone source target copyPackage copyThreads with
    | error e' =>
      rw [hb] at hclone
      cases hclone
    | ok book => rfl

theorem cloneBook_error {e : RuleEdit} (h : d.cloneBook args = .error e) : e ≠ .ok := by
  unfold Desk.cloneBook at h
  split at h
  · cases hc : d.book.clone args.source args.target args.cpuPackage args.cpuThreads with
    | ok book =>
      rw [hc] at h
      cases h
    | error e' =>
      rw [hc] at h
      cases h
      have hedit : d.book.edit (.clone args.source args.target args.cpuPackage args.cpuThreads) = .error e := hc
      rcases Book.edit_error hedit with rfl | rfl <;> decide
  · cases h

/-- **The checks** of a clone are the desk's. -/
theorem cloneCheck_desk (h : s.Holds topo d) (ha : args.copyCpu = true → Title maxPkgLen args.target) :
    s.cloneCheck args = match d.cloneBook args, d.cloneTuning args with
      | .error e, _ => some (cloneReply "读取 CPU 规则文件失败" e)
      | .ok _, .error e => some ⟨if containsStr "目标应用".toList e then 409 else 404, some e⟩
      | .ok _, .ok _ => none := by
  have hcpu : (if args.copyCpu then ruleCloneCheck s.content args.source args.target args.cpuPackage args.cpuThreads
      else .ok) = match d.cloneBook args with
        | .ok _ => .ok
        | .error e => e := by
    unfold Desk.cloneBook
    cases hcopy : args.copyCpu with
    | false => rfl
    | true =>
      rw [if_pos rfl, if_pos rfl, ruleCloneCheck_book h (ha hcopy) hcopy]
      cases d.book.clone args.source args.target args.cpuPackage args.cpuThreads <;> rfl
  unfold Server.cloneCheck
  rw [hcpu]
  cases hb : d.cloneBook args with
  | ok book =>
    unfold Desk.cloneTuning cloneAppCheck
    rw [h.tuning]
    cases args.copyTuning with
    | false => rfl
    | true =>
      simp only [if_true]
      cases cloneAppConfig d.tuning args.source args.target args.tuningMemory args.tuningThreads <;> rfl
  | error e =>
    cases e with
    | ok => exact absurd rfl (cloneBook_error hb)
    | notFound | conflict | malformed | ioErr => rfl

/-- The CPU side of a clone, once the checks are through. -/
theorem cloneCpu_desk (io : ServerIo) (h : s.Holds topo d) (ha : args.copyCpu = true → Title maxPkgLen args.target)
    (hbook : d.cloneBook args = .ok book) :
    ∃ content, (if args.copyCpu then
        ruleClone io.writeOk s.content args.source args.target args.cpuPackage args.cpuThreads
      else (.ok, s.content)) = (if args.copyCpu && !io.writeOk then .ioErr else .ok, content) ∧
        (s.setContent content).Holds topo (if args.copyCpu && !io.writeOk then d else { d with book }) := by
  unfold Desk.cloneBook at hbook
  cases hcopy : args.copyCpu with
  | false =>
    rw [hcopy] at hbook
    cases hbook
    exact ⟨s.content, rfl, by simpa using h⟩
  | true =>
    rw [hcopy, if_pos rfl] at hbook
    have hadmitted : (EditCall.clone args.source args.target args.cpuPackage args.cpuThreads).Admitted topo :=
      ⟨ha hcopy, hcopy⟩
    have hfile : ruleClone io.writeOk s.content args.source args.target args.cpuPackage args.cpuThreads
        = d.book.filed (.clone args.source args.target args.cpuPackage args.cpuThreads) io.writeOk s.content :=
      Option.some.inj (onText_book h _ hadmitted (Nat.le_refl 2) io.writeOk)
    rw [if_pos rfl, hfile]
    unfold Book.filed
    cases hclone : d.book.clone args.source args.target args.cpuPackage args.cpuThreads with
    | error e =>
      rw [hclone] at hbook
      cases hbook
    | ok cloned =>
      rw [hclone] at hbook
      cases hbook
      have hedit : d.book.edit (.clone args.source args.target args.cpuPackage args.cpuThreads) = .ok cloned := hclone
      rw [hedit]
      cases io.writeOk with
      | false => exact ⟨s.content, rfl, by simpa using h⟩
      | true => exact ⟨some (unlines cloned.text), rfl, h.written (h.ok.edit hadmitted hedit)⟩

/-- The tuning side of a clone, once the checks are through. -/
theorem cloneTuning_desk (path : Str) {store : TuningStore} (hstore : store.config = d.tuning)
    (hcopy : args.copyTuning = true) (htuning : d.cloneTuning args = .ok tuning) :
    (∃ e, io.tuning.error.isSome = true ∧ cloneApp path io.tuning args.source args.target args.tuningMemory
        args.tuningThreads store = (.error e, store)) ∨
      ∃ next, io.tuning.error.isSome = false ∧ next.config = tuning ∧ cloneApp path io.tuning args.source args.target
        args.tuningMemory args.tuningThreads store = (.ok (), next) := by
  unfold Desk.cloneTuning at htuning
  rw [hcopy, if_pos rfl, ← hstore] at htuning
  unfold cloneApp writeConfig
  rw [htuning]
  cases io.tuning.error with
  | some e => exact .inl ⟨_, rfl, rfl⟩
  | none => exact .inr ⟨_, rfl, rfl, rfl⟩

/-- **A clone** does what the desk says. -/
theorem clone_desk (io : ServerIo) (path : Str) (h : s.Holds topo d) (hargs : ruleCloneApiArgs body = .ok args)
    (ha : args.copyCpu = true → Title maxPkgLen args.target) :
    Does topo (s.ruleCloneApi path io body).1 (s.ruleCloneApi path io body).2.code (d.clone io args) := by
  unfold Server.ruleCloneApi
  rw [hargs]
  dsimp only
  rw [cloneCheck_desk h ha]
  unfold Desk.clone
  cases hb : d.cloneBook args with
  | error e => exact ⟨h, cloneReply_code _ e⟩
  | ok book =>
    cases ht : d.cloneTuning args with
    | error e => exact ⟨h, rfl⟩
    | ok tuning =>
      obtain ⟨content, hcpu, hholds⟩ := cloneCpu_desk io h ha hb
      dsimp only
      unfold Server.cloneCommit
      rw [hcpu]
      cases hwrite : args.copyCpu && !io.writeOk with
      | true =>
        rw [hwrite] at hholds
        exact ⟨hholds, rfl⟩
      | false =>
        rw [hwrite] at hholds
        have hstore : (s.setContent content).tuning.config = d.tuning := h.tuning
        simp only [Bool.false_eq_true, if_false] at hholds ⊢
        cases hcopy : args.copyTuning with
        | false =>
          unfold Desk.cloneTuning at ht
          rw [hcopy] at ht
          cases ht
          exact ⟨hholds.reload io, rfl⟩
        | true =>
          rcases cloneTuning_desk path hstore hcopy ht with ⟨e, herror, hsave⟩ | ⟨next, hnone, hnext, hsave⟩
          · rw [if_pos rfl, hsave, herror]
            exact ⟨hholds, rfl⟩
          · rw [if_pos rfl, hsave, hnone]
            exact ⟨(hholds.saved hnext).reload io, rfl⟩

/-! ## The tuning configuration and the settings -/

theorem setTuning_desk (io : ServerIo) (path : Str) (h : s.Holds topo d) (hargs : tuningSetArgs body = .ok tuning) :
    Does topo (s.tuningSetApi path io body).1 (s.tuningSetApi path io body).2.code (d.setTuning io tuning) := by
  unfold Server.tuningSetApi Desk.setTuning replaceAndSave writeConfig
  rw [hargs]
  cases io.tuning.error with
  | some e => exact ⟨h, rfl⟩
  | none => exact ⟨(h.saved rfl).reload io, rfl⟩

/-- The settings page leaves the rules file alone, unless it names another. -/
theorem configSetApi_desk (h : s.Holds topo d)
    (hstays : ∀ v ∈ body, (v.index "config_file".toList).asStr = none) : (s.configSetApi io body).1.Holds topo d := by
  have hnone : (body.bind fun v => (v.index "config_file".toList).asStr) = none := by
    cases body with
    | none => rfl
    | some v => exact hstays v rfl
  unfold Server.configSetApi
  rcases configSetApi_cases body s.daemon with ⟨reply, hset⟩ | ⟨daemon, hset, hfile⟩
  · rw [hset]
    exact h
  · rw [hset]
    dsimp only
    rw [hnone, Option.getD_none] at hfile
    rw [hnone]
    have hcontent : ∀ settings, Server.content { s with daemon, settings } = s.content := by
      intro settings
      unfold Server.content
      rw [hfile]
    refine ⟨?_, ?_, h.ok, h.tuning, h.shown⟩
    · rw [hcontent]
      exact h.present
    · rw [hcontent]
      exact h.file

/-! ## A run -/

/-- A request that asks for no deed leaves the desk as it is. -/
def Answers (topo : CpuTopology) (io : ServerIo) (d : Desk) (s : Server) (status : Nat) : Option Deed → Prop
  | none => s.Holds topo d
  | some deed => Does topo s status (d.serve io deed)

theorem rule_answers (h : s.Holds topo d) (hplain : ∀ deed ∈ deedIn topo body (some .rule), deed.Plain) :
    Answers topo io d (s.ruleApi io body).1 (s.ruleApi io body).2.code (deedIn topo body (some .rule)) := by
  unfold deedIn at hplain ⊢
  cases hargs : ruleApiArgs body (some topo) with
  | error reply =>
    obtain ⟨cfg, hcurrent, hloaded⟩ := h.shown
    have hrefused : s.ruleApi io body = (s, reply) := by
      unfold Server.ruleApi AppOptR.ruleApi Server.edited
      rw [hcurrent, Option.map_some, hloaded.topology, hargs]
      dsimp only
      rw [Server.setContent_content]
      rfl
    rw [hrefused]
    exact h
  | ok args =>
    obtain ⟨pkg, thread, cpus⟩ := args
    rw [hargs] at hplain
    exact ruleApi_desk io h hargs (hplain _ rfl)

theorem ruleDel_answers (io : ServerIo) (body : Option Value) (h : s.Holds topo d) (hfuel : 2 ≤ fuel) :
    ∃ r, s.ruleDelApi fuel io body = some r ∧
      Answers topo io d r.1 r.2.code (deedIn topo body (some .ruleDel)) := by
  unfold deedIn
  cases hargs : ruleDelApiArgs body with
  | error reply =>
    refine ⟨(s, reply), ?_, h⟩
    unfold Server.ruleDelApi AppOptR.ruleDelApi Server.edited
    rw [hargs]
    simp
  | ok args =>
    obtain ⟨pkg, thread, all⟩ := args
    exact ruleDelApi_desk io h hargs hfuel

theorem ruleRename_answers (io : ServerIo) (h : s.Holds topo d)
    (hplain : ∀ deed ∈ deedIn topo body (some .ruleRename), deed.Plain) (hfuel : 2 ≤ fuel) :
    ∃ r, s.ruleRenameApi fuel io body = some r ∧
      Answers topo io d r.1 r.2.code (deedIn topo body (some .ruleRename)) := by
  unfold deedIn at hplain ⊢
  cases hargs : ruleRenameApiArgs body with
  | error reply =>
    refine ⟨(s, reply), ?_, h⟩
    unfold Server.ruleRenameApi AppOptR.ruleRenameApi Server.edited
    rw [hargs]
    simp
  | ok args =>
    cases args with
    | none =>
      refine ⟨(s, okJson), ?_, h⟩
      unfold Server.ruleRenameApi AppOptR.ruleRenameApi Server.edited
      rw [hargs]
      simp
    | some names =>
      obtain ⟨old, new⟩ := names
      rw [hargs] at hplain
      exact ruleRenameApi_desk io h hargs (hplain _ rfl) hfuel

theorem ruleClone_answers (path : Str) (h : s.Holds topo d)
    (hplain : ∀ deed ∈ deedIn topo body (some .ruleClone), deed.Plain) :
    Answers topo io d (s.ruleCloneApi path io body).1 (s.ruleCloneApi path io body).2.code
      (deedIn topo body (some .ruleClone)) := by
  unfold deedIn at hplain ⊢
  cases hargs : ruleCloneApiArgs body with
  | error reply =>
    unfold Server.ruleCloneApi
    rw [hargs]
    exact h
  | ok args =>
    rw [hargs] at hplain
    obtain ⟨htrim, hok⟩ := ruleCloneApiArgs_target hargs
    have htitle : args.copyCpu = true → Title maxPkgLen args.target :=
      fun hcopy => ⟨packageNameOk_name hok htrim, hplain _ rfl hcopy⟩
    exact clone_desk io path h hargs htitle

theorem tuningSet_answers (path : Str) (h : s.Holds topo d) :
    Answers topo io d (s.tuningSetApi path io body).1 (s.tuningSetApi path io body).2.code
      (deedIn topo body (some .tuningSet)) := by
  unfold deedIn
  cases hargs : tuningSetArgs body with
  | error reply =>
    unfold Server.tuningSetApi
    rw [hargs]
    exact h
  | ok config => exact setTuning_desk io path h hargs

/-- **A handler** answers as the desk does. -/
theorem serve_desk (io : ServerIo) (h : s.Holds topo d) (api : Option Api) (bytes : List UInt8)
    (hplain : ∀ deed ∈ deedIn topo (env.parseJson bytes) api, deed.Plain)
    (hstays : api = some .configSet → ∀ v ∈ env.parseJson bytes, (v.index "config_file".toList).asStr = none)
    (hfuel : 2 ≤ fuel) :
    ∃ s' status body, serve env fuel io api bytes s = some (s', status, body) ∧
      Answers topo io d s' status (deedIn topo (env.parseJson bytes) api) := by
  unfold serve
  cases api with
  | none => exact ⟨_, _, _, rfl, h⟩
  | some api =>
    cases api with
    | index | status | rules | config | tuning | suggest => exact ⟨_, _, _, rfl, h⟩
    | rule => exact ⟨_, _, _, rfl, rule_answers h hplain⟩
    | ruleDel =>
      obtain ⟨r, hr, hanswers⟩ := ruleDel_answers io (env.parseJson bytes) h hfuel
      dsimp only
      rw [hr]
      exact ⟨_, _, _, rfl, hanswers⟩
    | ruleRename =>
      obtain ⟨r, hr, hanswers⟩ := ruleRename_answers io h hplain hfuel
      dsimp only
      rw [hr]
      exact ⟨_, _, _, rfl, hanswers⟩
    | ruleClone => exact ⟨_, _, _, rfl, ruleClone_answers _ h hplain⟩
    | tuningSet => exact ⟨_, _, _, rfl, tuningSet_answers _ h⟩
    | configSet => exact ⟨_, _, _, rfl, configSetApi_desk h (hstays rfl)⟩

/-- **One request** is one step of the desk. -/
theorem dispatch_desk (io : ServerIo) (h : s.Holds topo d) (hfair : Fair env.parseJson topo req) (hfuel : 2 ≤ fuel) :
    ∃ s' response, dispatch env fuel io s req = some (s', response) ∧
      s'.Holds topo (Desk.step env.parseJson topo d (req, io)).1 ∧
      (Desk.step env.parseJson topo d (req, io)).2
        = if (deedOf env.parseJson topo req).isSome then [response.status] else [] := by
  have hplain := hfair.plain
  unfold dispatch Desk.step
  unfold deedOf at hplain ⊢
  cases horigin : originOk req with
  | false => exact ⟨_, _, rfl, h, rfl⟩
  | true =>
    rw [horigin] at hplain
    simp only [Bool.not_true, Bool.false_eq_true, if_false] at hplain ⊢
    obtain ⟨s', status, body, hserve, hanswers⟩ :=
      serve_desk io h (apiOf req.method req.path) req.body hplain hfair.stays hfuel
    rw [hserve]
    refine ⟨_, _, rfl, ?_⟩
    cases hdeed : deedIn topo (env.parseJson req.body) (apiOf req.method req.path) with
    | none =>
      rw [hdeed] at hanswers
      exact ⟨hanswers, rfl⟩
    | some deed =>
      rw [hdeed] at hanswers
      refine ⟨hanswers.holds, ?_⟩
      rw [hanswers.status]
      rfl

/-- What the page shows is what was loaded. -/
theorem Loaded.ruleGroups {cfg : AppConfig} (h : Loaded topo cfg book tuning) (pkg : Str) :
    itemsOf pkg (ruleGroups cfg) = book.shown topo pkg := by
  have hview := congrArg (fun vs : List (Str × Str × CpuSet) =>
    (vs.filter fun v => v.1 = pkg).map fun v => (⟨v.2.1, specName v.2.2 topo⟩ : RuleItem)) h.rules
  simp only [List.filter_map, List.map_map] at hview
  rw [itemsOf_ruleGroups, h.topology]
  exact hview

/-- **The page edits a desk.** From a server that holds a desk, every run of fair requests comes to an end, with any
    of its writes failing. It leaves a server that holds the desk the deeds lead to, answers every deed with the
    desk's status, and shows the rules that the desk last loaded. -/
theorem page_refines_desk (env : ServerEnv) (topo : CpuTopology) (s : Server) (d : Desk)
    (reqs : List (Request × ServerIo)) (h : s.Holds topo d) (hfair : ∀ c ∈ reqs, Fair env.parseJson topo c.1)
    (hfuel : 2 ≤ fuel) :
    ∃ s' responses, serverRun env fuel s reqs = some (s', responses) ∧
      s'.Holds topo (Mealy.final (Desk.step env.parseJson topo) d reqs) ∧
      ((reqs.zip responses).filter fun c => (deedOf env.parseJson topo c.1.1).isSome).map (·.2.status)
        = Mealy.emit (Desk.step env.parseJson topo) d reqs ∧
      ∃ cfg, s'.current = some cfg ∧
        ∀ pkg, itemsOf pkg (ruleGroups cfg)
          = (Mealy.final (Desk.step env.parseJson topo) d reqs).shown.1.shown topo pkg := by
  induction reqs generalizing s d with
  | nil =>
    obtain ⟨cfg, hcurrent, hloaded⟩ := h.shown
    exact ⟨s, [], rfl, h, rfl, cfg, hcurrent, hloaded.ruleGroups⟩
  | cons c reqs ih =>
    obtain ⟨req, io⟩ := c
    obtain ⟨hreq, hrest⟩ := List.forall_mem_cons.mp hfair
    obtain ⟨next, response, hstep, hholds, hstatus⟩ := dispatch_desk io h hreq hfuel
    obtain ⟨s', responses, hrun, hfinal, hstatuses, hshown⟩ := ih next _ hholds hrest
    refine ⟨s', response :: responses, ?_, hfinal, ?_, hshown⟩
    · rw [serverRun, hstep, Option.bind_some]
      dsimp only
      rw [hrun]
      rfl
    · rw [List.zip_cons_cons, List.filter_cons, Mealy.emit_cons, hstatus, ← hstatuses]
      split <;> rfl

/-- The desk of `oneRuleServer`. -/
def oneRuleDesk : Desk where
  book := [.entry "com.a".toList (.line (.fresh "0".toList))]
  tuning := {}
  shown := ([.entry "com.a".toList (.line (.fresh "0".toList))], {})

theorem oneRuleServer_holds : oneRuleServer.Holds quadTopology oneRuleDesk := by
  have hzero : Printable quadTopology "0".toList :=
    ⟨⟨by decide, trimStart_eq_self.mp (by decide), trimEnd_eq_self.mp (by decide), by decide +kernel,
      by decide +kernel⟩, by simp [isControl]⟩
  have htitle : Title maxPkgLen "com.a".toList :=
    .of_token (by decide) (by decide +kernel) ⟨by decide, by decide, by decide⟩
  have hbook : oneRuleDesk.book.Ok quadTopology := by
    refine ⟨?_, by decide⟩
    intro it hit
    rw [List.mem_singleton.mp hit]
    exact ⟨htitle, .fresh (fun hne => absurd rfl hne) hzero⟩
  refine ⟨by decide, by decide +kernel, hbook, rfl, oneRule, rfl, ?_⟩
  exact loaded_of_file _ (by decide +kernel) hbook {}

theorem fiveRequests_fair : ∀ c ∈ fiveRequests, Fair oneRuleEnv.parseJson quadTopology c.1 := by
  have hdeeds : ∀ c ∈ fiveRequests, deedOf oneRuleEnv.parseJson quadTopology c.1 = none ∨
      deedOf oneRuleEnv.parseJson quadTopology c.1 = some (.edit (.upsert "com.b".toList [] "1".toList)) := by
    decide +kernel
  have hapis : ∀ c ∈ fiveRequests, apiOf c.1.method c.1.path ≠ some .configSet := by decide +kernel
  intro c hc
  refine ⟨?_, fun hset => absurd hset (hapis c hc)⟩
  intro deed hdeed
  rcases hdeeds c hc with hnone | hsome
  · rw [hnone] at hdeed
    cases hdeed
  · rw [hsome] at hdeed
    cases hdeed
    exact ⟨⟨by decide, by decide, by decide⟩, ⟨by decide, by decide, by decide⟩, by simp [isControl]⟩

/-- The requests of `fiveRequests`: the new rule is shown under its package. -/
theorem page_refines_desk_five : ∃ s' responses cfg,
    serverRun oneRuleEnv 2 oneRuleServer fiveRequests = some (s', responses) ∧ s'.current = some cfg ∧
      itemsOf "com.a".toList (ruleGroups cfg) = [⟨[], "0".toList⟩] ∧
      itemsOf "com.b".toList (ruleGroups cfg) = [⟨[], "1".toList⟩] := by
  obtain ⟨s', responses, hrun, -, -, cfg, hcurrent, hshown⟩ :=
    page_refines_desk oneRuleEnv quadTopology oneRuleServer oneRuleDesk fiveRequests oneRuleServer_holds
      fiveRequests_fair (Nat.le_refl 2)
  refine ⟨s', responses, cfg, hrun, hcurrent, ?_, ?_⟩
  · rw [hshown]
    decide +kernel
  · rw [hshown]
    decide +kernel

end AppOptR
