import AppOptR.Tuning.Correctness.Agreement
import AppOptR.Web.Server

/-!
# `Web.Correctness.Requests` — the requests that count

A handler refuses before it changes anything, and what a failed write leaves is what was there: a request that is
not answered with success can be left out of any run, and so can every one that only reads (`refusals_vanish`). The
one exception is a clone of both kinds of rules whose second write fails, which the source accepts.
-/

namespace AppOptR

open Text Json

variable {env : ServerEnv} {fuel : Nat} {io : ServerIo} {s s' : Server} {body : Option Value}

@[simp] theorem Server.setContent_content (s : Server) : s.setContent s.content = s := by
  rw [Server.setContent, Server.content, Function.update_eq_self]

theorem editFile_kept (edit : List Str → LineEdit) {writeOk : Bool} {content content' : Option Str} {result : RuleEdit}
    (h : editFile edit writeOk content = (result, content')) (hne : result ≠ .ok) : content' = content := by
  unfold editFile at h
  split at h
  · exact (congrArg Prod.snd h).symm
  · cases writeOk with
    | true => exact absurd (congrArg Prod.fst h).symm hne
    | false => exact (congrArg Prod.snd h).symm

/-! ## One handler -/

/-- An outcome that is no success leaves the text, and reloads nothing. -/
def Outcome.Refuses (o : Outcome) (content : Option Str) : Prop :=
  o.reply.code ≠ 200 → o.content = content ∧ o.reload = false

theorem Outcome.Refuses.edited {o : Outcome} (h : o.Refuses s.content) (hcode : (s.edited io o).2.code ≠ 200) :
    (s.edited io o).1 = s := by
  obtain ⟨hcontent, hreload⟩ := h hcode
  unfold Server.edited
  rw [hcontent, hreload, Server.setContent_content]
  rfl

theorem ruleApi_refuses (body : Option Value) (cfg : Option CpuTopology) (writeOk : Bool) (content : Option Str) :
    (ruleApi body cfg writeOk content).Refuses content := by
  unfold ruleApi
  split
  · exact fun _ => ⟨rfl, rfl⟩
  · next pkg thread cpus hargs =>
    split
    · exact fun h => absurd rfl h
    · next hup => exact fun _ => ⟨editFile_kept (upsertLines pkg thread cpus) hup (by simp), rfl⟩
    · next hok hmal hup => exact fun _ => ⟨editFile_kept (upsertLines pkg thread cpus) hup hok, rfl⟩

/-- What `rule_del_api` and `rule_rename_api` make of a result. -/
theorem editReply_refuses {notFound conflict : String} {result : RuleEdit} {content content' : Option Str}
    (h : result ≠ .ok → content' = content) :
    (⟨editReply notFound conflict result, content', result = .ok⟩ : Outcome).Refuses content := by
  intro hcode
  have hne : result ≠ .ok := by
    rintro rfl
    exact hcode rfl
  exact ⟨h hne, by simpa using hne⟩

theorem ruleDelApi_refuses {writeOk : Bool} {content : Option Str} {o : Outcome}
    (h : ruleDelApi fuel body writeOk content = some o) : o.Refuses content := by
  unfold ruleDelApi at h
  split at h
  · obtain rfl := Option.some.inj h
    exact fun _ => ⟨rfl, rfl⟩
  · next pkg thread all hargs =>
    dsimp only at h
    obtain ⟨⟨result, content'⟩, hed, rfl⟩ := Option.map_eq_some_iff.mp h
    refine editReply_refuses fun hne => ?_
    split at hed
    · obtain ⟨edited, -, he⟩ := Option.map_eq_some_iff.mp hed
      exact editFile_kept (fun _ => edited) he hne
    · exact editFile_kept (deleteLines pkg thread) (Option.some.inj hed) hne

theorem ruleRenameApi_refuses {writeOk : Bool} {content : Option Str} {o : Outcome}
    (h : ruleRenameApi fuel body writeOk content = some o) : o.Refuses content := by
  unfold ruleRenameApi at h
  split at h
  · obtain rfl := Option.some.inj h
    exact fun _ => ⟨rfl, rfl⟩
  · obtain rfl := Option.some.inj h
    exact fun _ => ⟨rfl, rfl⟩
  · obtain ⟨⟨result, content'⟩, hed, rfl⟩ := Option.map_eq_some_iff.mp h
    refine editReply_refuses fun hne => ?_
    obtain ⟨edited, -, he⟩ := Option.map_eq_some_iff.mp hed
    exact editFile_kept (fun _ => edited) he hne

theorem tuningSetApi_refuses {path : Str} (h : (s.tuningSetApi path io body).2.code ≠ 200) :
    (s.tuningSetApi path io body).1 = s := by
  unfold Server.tuningSetApi at h ⊢
  split
  · rfl
  · next config hargs =>
    rw [hargs] at h
    dsimp only at h
    rcases replaceAndSave_cases path io.tuning config s.tuning with ⟨e, hsave⟩ | hsave
    · rw [hsave]
    · rw [hsave] at h
      exact absurd rfl h

@[simp] theorem storeMode_configFile (mode : Option Nat) (daemon : Daemon) :
    (storeMode mode daemon).configFile = daemon.configFile := by
  cases mode <;> rfl

@[simp] theorem storeInterval_configFile (interval : Option Nat) (daemon : Daemon) :
    (storeInterval interval daemon).configFile = daemon.configFile := by
  cases interval <;> rfl

@[simp] theorem storeName_configFile (name : Option Str) (daemon : Daemon) :
    (storeName name daemon).configFile = daemon.configFile := by
  unfold storeName setBaseCpuset
  cases name with
  | none => rfl
  | some n =>
    dsimp only
    split <;> rfl

@[simp] theorem storePath_configFile (path : Option Str) (daemon : Daemon) :
    (storePath path daemon).configFile = path.getD daemon.configFile := by
  cases path <;> rfl

/-- The settings page refuses, or stores and saves; the rules file is another one only where the body names it. -/
theorem configSetApi_cases (body : Option Value) (d : Daemon) :
    (∃ reply, configSetApi body d = (reply, d, none)) ∨
      ∃ d', configSetApi body d = (okJson, d', some (settingsSave d')) ∧
        d'.configFile = (body.bind fun v => (v.index "config_file".toList).asStr).getD d.configFile := by
  unfold configSetApi
  cases body with
  | none => exact .inl ⟨_, rfl⟩
  | some v =>
    dsimp only
    split
    · exact .inl ⟨_, rfl⟩
    split
    · exact .inl ⟨_, rfl⟩
    split
    · exact .inl ⟨_, rfl⟩
    split
    · exact .inl ⟨_, rfl⟩
    · refine .inr ⟨_, rfl, ?_⟩
      rw [storePath_configFile, storeName_configFile, storeInterval_configFile, storeMode_configFile, Option.bind_some]

theorem configSetApi_refuses (h : (s.configSetApi io body).2.code ≠ 200) : (s.configSetApi io body).1 = s := by
  unfold Server.configSetApi at h ⊢
  rcases configSetApi_cases body s.daemon with ⟨reply, hset⟩ | ⟨daemon, hset, -⟩
  · rw [hset]
  · rw [hset] at h
    exact absurd rfl h

/-- A clone that is neither done nor half done leaves everything. -/
theorem cloneCommit_refuses {path : Str} {args : CloneArgs} (h : (s.cloneCommit path io args).2.code ≠ 200)
    (h500 : (s.cloneCommit path io args).2.code ≠ 500) : (s.cloneCommit path io args).1 = s := by
  unfold Server.cloneCommit at h h500 ⊢
  generalize hcpu : (if args.copyCpu then
    ruleClone io.writeOk s.content args.source args.target args.cpuPackage args.cpuThreads
    else (.ok, s.content)) = r at h h500 ⊢
  obtain ⟨result, content⟩ := r
  have hkept : result ≠ .ok → content = s.content := by
    intro hne
    split at hcpu
    · exact editFile_kept (cloneLines args.source args.target args.cpuPackage args.cpuThreads) hcpu hne
    · exact (congrArg Prod.snd hcpu).symm
  dsimp only at h h500 ⊢
  cases result with
  | ok =>
    -- the CPU half is written: the tuning half is too, or the answer is a 500
    dsimp only at h h500 ⊢
    split
    · next hboth =>
      rw [if_pos hboth] at h h500
      generalize cloneApp _ _ _ _ _ _ _ = saved at h h500
      obtain ⟨result, tuning⟩ := saved
      cases result with
      | ok => exact absurd rfl h
      | error e => exact absurd rfl h500
    · next hcpuOnly =>
      rw [if_neg hcpuOnly] at h
      exact absurd rfl h
  | notFound | conflict | malformed | ioErr => rw [hkept (by decide), Server.setContent_content]

theorem ruleCloneApi_refuses {path : Str} (h : (s.ruleCloneApi path io body).2.code ≠ 200)
    (h500 : (s.ruleCloneApi path io body).2.code ≠ 500) : (s.ruleCloneApi path io body).1 = s := by
  unfold Server.ruleCloneApi at h h500 ⊢
  split
  · rfl
  · next args hargs =>
    rw [hargs] at h h500
    dsimp only at h h500
    split
    · rfl
    · next hcheck =>
      rw [hcheck] at h h500
      exact cloneCommit_refuses h h500

/-! ## A run -/

/-- A request that counts, by its response: a write that went through, or a clone that may have come half way. -/
def counts (req : Request) (response : Response) : Bool :=
  match apiOf req.method req.path with
  | some .ruleClone => response.status = 200 || response.status = 500
  | some .rule | some .ruleDel | some .ruleRename | some .configSet | some .tuningSet => response.status = 200
  | _ => false

/-- A response is a refusal of the origin, or what a handler serves. -/
theorem dispatch_cases {req : Request} {response : Response} (h : dispatch env fuel io s req = some (s', response)) :
    (originOk req = false ∧ s' = s ∧ response.status = 403) ∨
      originOk req = true ∧ ∃ bytes,
        serve env fuel io (apiOf req.method req.path) req.body s = some (s', response.status, bytes) := by
  unfold dispatch at h
  split at h
  · next horigin =>
    obtain ⟨rfl, rfl⟩ := Prod.mk.inj (Option.some.inj h)
    exact .inl ⟨by simpa using horigin, rfl, rfl⟩
  · next horigin =>
    dsimp only at h
    obtain ⟨⟨next, status, bytes⟩, hserve, he⟩ := Option.map_eq_some_iff.mp h
    obtain ⟨rfl, rfl⟩ := Prod.mk.inj he
    exact .inr ⟨by simpa using horigin, bytes, hserve⟩

/-- What an answer is made of. -/
theorem answered_eq {r : Server × Reply} {status : Nat} {bytes : List UInt8}
    (h : answered env r = (s', status, bytes)) : r.1 = s' ∧ r.2.code = status := by
  unfold answered at h
  simp only [Prod.mk.injEq] at h
  exact ⟨h.1, h.2.1⟩

/-- **One request** that does not count changes nothing. -/
theorem dispatch_refuses {req : Request} {response : Response} (h : dispatch env fuel io s req = some (s', response))
    (hcount : counts req response = false) : s' = s := by
  rcases dispatch_cases h with ⟨-, hs, -⟩ | ⟨-, bytes, hserve⟩
  · exact hs
  unfold counts at hcount
  generalize apiOf req.method req.path = api at hserve hcount
  unfold serve at hserve
  cases api with
  | none => exact (congrArg Prod.fst (Option.some.inj hserve)).symm
  | some api =>
    cases api with
    | index | status | rules | config | tuning | suggest =>
      exact (congrArg Prod.fst (Option.some.inj hserve)).symm
    | rule =>
      obtain ⟨hs, hcode⟩ := answered_eq (Option.some.inj hserve)
      have hrefused : (s.ruleApi io (env.parseJson req.body)).2.code ≠ 200 := by simpa [← hcode] using hcount
      rw [← hs]
      exact (ruleApi_refuses _ _ _ _).edited hrefused
    | ruleDel =>
      obtain ⟨r, hr, he⟩ := Option.map_eq_some_iff.mp hserve
      obtain ⟨o, ho, rfl⟩ := Option.map_eq_some_iff.mp hr
      obtain ⟨hs, hcode⟩ := answered_eq he
      rw [← hs]
      exact (ruleDelApi_refuses ho).edited (by simpa [← hcode] using hcount)
    | ruleRename =>
      obtain ⟨r, hr, he⟩ := Option.map_eq_some_iff.mp hserve
      obtain ⟨o, ho, rfl⟩ := Option.map_eq_some_iff.mp hr
      obtain ⟨hs, hcode⟩ := answered_eq he
      rw [← hs]
      exact (ruleRenameApi_refuses ho).edited (by simpa [← hcode] using hcount)
    | ruleClone =>
      obtain ⟨hs, hcode⟩ := answered_eq (Option.some.inj hserve)
      have hboth : ¬ response.status = 200 ∧ ¬ response.status = 500 := by simpa using hcount
      rw [← hs]
      exact ruleCloneApi_refuses (by simpa [← hcode] using hboth.1) (by simpa [← hcode] using hboth.2)
    | configSet =>
      obtain ⟨hs, hcode⟩ := answered_eq (Option.some.inj hserve)
      rw [← hs]
      exact configSetApi_refuses (by simpa [← hcode] using hcount)
    | tuningSet =>
      obtain ⟨hs, hcode⟩ := answered_eq (Option.some.inj hserve)
      rw [← hs]
      exact tuningSetApi_refuses (by simpa [← hcode] using hcount)

theorem serverRun_cons {req : Request} {reqs : List (Request × ServerIo)} {responses : List Response}
    (h : serverRun env fuel s ((req, io) :: reqs) = some (s', responses)) :
    ∃ next response rest, dispatch env fuel io s req = some (next, response) ∧
      serverRun env fuel next reqs = some (s', rest) ∧ responses = response :: rest := by
  obtain ⟨⟨next, response⟩, hstep, h⟩ := Option.bind_eq_some_iff.mp h
  obtain ⟨⟨last, rest⟩, hrest, he⟩ := Option.map_eq_some_iff.mp h
  obtain ⟨rfl, rfl⟩ := Prod.mk.inj he
  exact ⟨next, response, rest, hstep, hrest, rfl⟩

/-- **Refusals and reads vanish**: a run without them ends in the same state, and answers the same. -/
theorem refusals_vanish (env : ServerEnv) (fuel : Nat) (s s' : Server) (reqs : List (Request × ServerIo))
    (responses : List Response) (h : serverRun env fuel s reqs = some (s', responses)) :
    serverRun env fuel s (((reqs.zip responses).filter fun c => counts c.1.1 c.2).map (·.1))
      = some (s', ((reqs.zip responses).filter fun c => counts c.1.1 c.2).map (·.2)) := by
  induction reqs generalizing s responses with
  | nil =>
    obtain ⟨rfl, rfl⟩ := Prod.mk.inj (Option.some.inj h)
    rfl
  | cons r reqs ih =>
    obtain ⟨req, io⟩ := r
    obtain ⟨next, response, rest, hstep, hrest, rfl⟩ := serverRun_cons h
    have hkept := ih next rest hrest
    rw [List.zip_cons_cons, List.filter_cons]
    split
    · rw [List.map_cons, List.map_cons, serverRun, hstep, Option.bind_some]
      dsimp only
      rw [hkept]
      rfl
    · next hcount =>
      rw [dispatch_refuses hstep (by simpa using hcount)] at hkept
      exact hkept

/-- A server with one rule, and a parser that knows one body. -/
def oneRuleServer : Server where
  files := fun path => if path = "applist.conf".toList then some "com.a=0\n".toList else none
  tuning := ⟨.null, {}, [], []⟩
  daemon :=
    { webEnabled := true, modeForce := 0, checkInterval := 2, baseCpusetPath := none,
      configFile := "applist.conf".toList, ebpfGaveUp := false, forceReload := false }
  settings := none
  current := some oneRule
  parseFails := 0
  updated := false

/-- The body that the parser knows. -/
def ruleText : List UInt8 := utf8 "\x7b\"pkg\":\"com.b\",\"cpus\":\"1\"\x7d".toList

/-- A parser for that body, and a printer that tells success from refusal. -/
def oneRuleEnv : ServerEnv where
  parseJson bytes :=
    if bytes = ruleText then
      some (.object [("pkg".toList, .string "com.b".toList), ("cpus".toList, .string "1".toList)])
    else none
  printJson
    | .object [(_, .bool true)] => utf8 "\x7b\"ok\":true\x7d".toList
    | _ => utf8 "\x7b\"err\":\"请求体不是合法 JSON\",\"ok\":false\x7d".toList
  indexHtml := utf8 "<!DOCTYPE html>".toList
  version := "1.0".toList
  tuningFile := "AppOpt.json".toList

/-- A request of the page. -/
def pageRequest (method path : String) (body : List UInt8) : Request where
  method := method.toList
  path := path.toList
  host := "127.0.0.1:8889".toList
  origin := []
  fetchSite := "same-origin".toList
  contentType := "application/json".toList
  body
  keepAlive := true

/-- A read, a post from another site, a body that is no JSON, a new rule, and a path there is not. -/
def fiveRequests : List (Request × ServerIo) :=
  [(pageRequest "GET" "/" [], {}),
    ({ pageRequest "POST" "/api/rule" ruleText with
        origin := "http://example.com".toList, fetchSite := "cross-site".toList }, {}),
    (pageRequest "POST" "/api/rule" [88], {}), (pageRequest "POST" "/api/rule" ruleText, {}),
    (pageRequest "POST" "/" [], {})]

theorem refusals_vanish_five : ∃ s' responses,
    serverRun oneRuleEnv 2 oneRuleServer fiveRequests = some (s', responses) ∧
      responses.map (·.status) = [200, 403, 400, 200, 404] ∧
      serverRun oneRuleEnv 2 oneRuleServer (((fiveRequests.zip responses).filter fun c => counts c.1.1 c.2).map (·.1))
        = some (s', ((fiveRequests.zip responses).filter fun c => counts c.1.1 c.2).map (·.2)) := by
  have hrun : (serverRun oneRuleEnv 2 oneRuleServer fiveRequests).map (fun r => r.2.map (·.status))
      = some [200, 403, 400, 200, 404] := by decide +kernel
  obtain ⟨⟨s', responses⟩, hrun, hstatus⟩ := Option.map_eq_some_iff.mp hrun
  exact ⟨s', responses, hrun, hstatus, refusals_vanish oneRuleEnv 2 oneRuleServer s' fiveRequests responses hrun⟩

end AppOptR
