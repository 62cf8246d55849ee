import AppOptR.Web.Correctness.Pipeline
import AppOptR.Web.Correctness.Requests

/-!
# `Web.Correctness.Served` — the handlers on a connection

`Web.Correctness.Pipeline` is about any handlers whose responses can be read back. Here are the server's own: every
status that `dispatch` answers is one that the page knows (`dispatch_status`), every response is clean
(`dispatch_clean`), so a client that writes its requests at once gets what `serverRun` answers to them, and leaves
the server as `serverRun` does (`server_answers`).
-/

namespace AppOptR

open Text Json

variable {env : ServerEnv} {fuel : Nat} {io : ServerIo} {s s' : Server} {body : Option Value} {reply : Reply}

/-! ## The status of a response -/

/-- What the handlers answer. -/
def statuses : List Nat := [200, 400, 403, 404, 409, 500]

@[simp] theorem okJson_code : okJson.code = 200 := rfl

@[simp] theorem errJson_code (code : Nat) (msg : String) : (errJson code msg).code = code := rfl

/-- A refusal of `rule_api`, before it looks at the file. -/
theorem ruleApiArgs_status {topo : Option CpuTopology} (h : ruleApiArgs body topo = .error reply) :
    reply.code ∈ statuses := by
  revert h
  fun_cases ruleApiArgs body topo <;> intro h <;> cases h <;> simp [statuses]

theorem ruleDelApiArgs_status (h : ruleDelApiArgs body = .error reply) : reply.code ∈ statuses := by
  revert h
  fun_cases ruleDelApiArgs body <;> intro h <;> cases h <;> simp [statuses]

theorem ruleRenameApiArgs_status (h : ruleRenameApiArgs body = .error reply) : reply.code ∈ statuses := by
  revert h
  fun_cases ruleRenameApiArgs body <;> intro h <;> cases h <;> simp [statuses]

theorem ruleCloneApiArgs_status (h : ruleCloneApiArgs body = .error reply) : reply.code ∈ statuses := by
  revert h
  fun_cases ruleCloneApiArgs body <;> intro h <;> cases h <;> simp [statuses]

theorem tuningSetArgs_status (h : tuningSetArgs body = .error reply) : reply.code ∈ statuses := by
  revert h
  fun_cases tuningSetArgs body <;> intro h <;> cases h <;> simp [statuses]

theorem suggestApi_status {w : SuggestWorld} (h : suggestApi w body = .error reply) : reply.code ∈ statuses := by
  revert h
  fun_cases suggestApi w body <;> intro h <;> cases h <;> simp [statuses]

/-- What becomes of the result of an edit. -/
theorem editReply_status (notFound conflict : String) (e : RuleEdit) :
    (editReply notFound conflict e).code ∈ statuses := by
  cases e <;> simp [editReply, statuses]

theorem cloneReply_status (ioErr : String) (e : RuleEdit) : (cloneReply ioErr e).code ∈ statuses := by
  cases e <;> simp [cloneReply, statuses]

theorem ruleApi_status (body : Option Value) (topo : Option CpuTopology) (writeOk : Bool) (content : Option Str) :
    (ruleApi body topo writeOk content).reply.code ∈ statuses := by
  unfold ruleApi
  split
  · next reply hargs => exact ruleApiArgs_status hargs
  · split <;> simp [statuses]

theorem ruleDelApi_status {writeOk : Bool} {content : Option Str} {o : Outcome}
    (h : ruleDelApi fuel body writeOk content = some o) : o.reply.code ∈ statuses := by
  unfold ruleDelApi at h
  split at h
  · next reply hargs =>
    obtain rfl := Option.some.inj h
    exact ruleDelApiArgs_status hargs
  · obtain ⟨r, -, rfl⟩ := Option.map_eq_some_iff.mp h
    exact editReply_status _ _ _

theorem ruleRenameApi_status {writeOk : Bool} {content : Option Str} {o : Outcome}
    (h : ruleRenameApi fuel body writeOk content = some o) : o.reply.code ∈ statuses := by
  unfold ruleRenameApi at h
  split at h
  · next reply hargs =>
    obtain rfl := Option.some.inj h
    exact ruleRenameApiArgs_status hargs
  · obtain rfl := Option.some.inj h
    simp [statuses]
  · obtain ⟨r, -, rfl⟩ := Option.map_eq_some_iff.mp h
    exact editReply_status _ _ _

/-- A refusal by one of the two checks. -/
theorem cloneCheck_status {args : CloneArgs} (h : s.cloneCheck args = some reply) : reply.code ∈ statuses := by
  unfold Server.cloneCheck at h
  dsimp only at h
  split at h
  · split at h
    · split at h
      · exact absurd h (by simp)
      · obtain rfl := Option.some.inj h
        dsimp only
        split <;> simp [statuses]
    · exact absurd h (by simp)
  · obtain rfl := Option.some.inj h
    exact cloneReply_status _ _

/-- The end of a clone that the checks let through. -/
theorem cloneCommit_status (path : Str) (io : ServerIo) (args : CloneArgs) (s : Server) :
    (s.cloneCommit path io args).2.code ∈ statuses := by
  unfold Server.cloneCommit
  generalize (if args.copyCpu then
    ruleClone io.writeOk s.content args.source args.target args.cpuPackage args.cpuThreads
    else (.ok, s.content)) = r
  obtain ⟨result, content⟩ := r
  dsimp only
  split
  · split
    · split <;> simp [statuses]
    · simp [statuses]
  · exact cloneReply_status _ _

theorem ruleCloneApi_status (path : Str) (io : ServerIo) (body : Option Value) (s : Server) :
    (s.ruleCloneApi path io body).2.code ∈ statuses := by
  unfold Server.ruleCloneApi
  split
  · next reply hargs => exact ruleCloneApiArgs_status hargs
  · split
    · next reply hcheck => exact cloneCheck_status hcheck
    · exact cloneCommit_status _ _ _ _

theorem tuningSetApi_status (path : Str) (io : ServerIo) (body : Option Value) (s : Server) :
    (s.tuningSetApi path io body).2.code ∈ statuses := by
  unfold Server.tuningSetApi
  split
  · next reply hargs => exact tuningSetArgs_status hargs
  · split <;> simp [statuses]

theorem configSetApi_status (io : ServerIo) (body : Option Value) (s : Server) :
    (s.configSetApi io body).2.code ∈ statuses := by
  have hset : (configSetApi body s.daemon).1.code ∈ statuses := by
    fun_cases configSetApi body s.daemon <;> simp [statuses]
  unfold Server.configSetApi
  generalize configSetApi body s.daemon = r at hset
  obtain ⟨reply, daemon, saved⟩ := r
  cases saved with
  | none => exact hset
  | some saved => exact hset

theorem suggestAnswer_status (io : ServerIo) (body : Option Value) (s : Server) :
    (suggestAnswer io body s).1 ∈ statuses := by
  unfold suggestAnswer
  split
  · simp [statuses]
  · next reply hargs => exact suggestApi_status hargs

/-- One handler. -/
theorem serve_status {api : Option Api} {bytes content : List UInt8} {status : Nat}
    (h : serve env fuel io api bytes s = some (s', status, content)) : status ∈ statuses := by
  unfold serve at h
  cases api with
  | none =>
    obtain ⟨-, rfl⟩ := answered_eq (Option.some.inj h)
    simp [statuses]
  | some api =>
    cases api with
    | index | status | rules | config | tuning =>
      obtain ⟨-, rfl, -⟩ := by simpa only [Prod.mk.injEq] using Option.some.inj h
      simp [statuses]
    | suggest =>
      obtain ⟨-, rfl, -⟩ := by simpa only [Prod.mk.injEq] using Option.some.inj h
      exact suggestAnswer_status _ _ _
    | rule =>
      obtain ⟨-, rfl⟩ := answered_eq (Option.some.inj h)
      exact ruleApi_status _ _ _ _
    | ruleDel =>
      obtain ⟨r, hr, he⟩ := Option.map_eq_some_iff.mp h
      obtain ⟨o, ho, rfl⟩ := Option.map_eq_some_iff.mp hr
      obtain ⟨-, rfl⟩ := answered_eq he
      exact ruleDelApi_status ho
    | ruleRename =>
      obtain ⟨r, hr, he⟩ := Option.map_eq_some_iff.mp h
      obtain ⟨o, ho, rfl⟩ := Option.map_eq_some_iff.mp hr
      obtain ⟨-, rfl⟩ := answered_eq he
      exact ruleRenameApi_status ho
    | ruleClone =>
      obtain ⟨-, rfl⟩ := answered_eq (Option.some.inj h)
      exact ruleCloneApi_status _ _ _ _
    | configSet =>
      obtain ⟨-, rfl⟩ := answered_eq (Option.some.inj h)
      exact configSetApi_status _ _ _
    | tuningSet =>
      obtain ⟨-, rfl⟩ := answered_eq (Option.some.inj h)
      exact tuningSetApi_status _ _ _ _

/-- **Every response has a status that the page knows**, and one of two content types. -/
theorem dispatch_status {req : Request} {response : Response}
    (h : dispatch env fuel io s req = some (s', response)) : response.status ∈ statuses ∧
      (response.ctype = "application/json".toList ∨ response.ctype = "text/html; charset=utf-8".toList) := by
  unfold dispatch at h
  split at h
  · obtain ⟨-, rfl⟩ := Prod.mk.inj (Option.some.inj h)
    exact ⟨by simp [statuses], .inl rfl⟩
  · dsimp only at h
    obtain ⟨⟨next, status, bytes⟩, hserve, he⟩ := Option.map_eq_some_iff.mp h
    obtain ⟨-, rfl⟩ := Prod.mk.inj he
    refine ⟨serve_status hserve, ?_⟩
    dsimp only
    split
    · exact .inr rfl
    · exact .inl rfl

/-- **The handlers keep to what a client can read back**; that the body fits the memory is assumed. -/
theorem dispatch_clean {req : Request} {response : Response}
    (h : dispatch env fuel io s req = some (s', response)) (hbody : response.body.length < 2 ^ 64) :
    response.Clean := by
  obtain ⟨hstatus, htype⟩ := dispatch_status h
  have hlt : ∀ status ∈ statuses, status < 1000 := by decide
  refine ⟨hlt _ hstatus, ?_, ?_, ?_, hbody⟩ <;> rcases htype with htype | htype <;> rw [htype] <;> decide

/-! ## The server on a connection -/

/-- The server and what the system is going to answer, request by request. A request whose loops have not ended
    when the fuel is out gets a response that no handler gives. -/
def onConnection (env : ServerEnv) (fuel : Nat) (c : Server × List ServerIo) (req : Request) :
    (Server × List ServerIo) × Response :=
  match dispatch env fuel (c.2.headD {}) c.1 req with
  | some (s, response) => ((s, c.2.tail), response)
  | none => ((c.1, c.2.tail), ⟨500, [], [], true⟩)

/-- The step: a request on the connection is one of the run. -/
theorem onConnection_dispatch {ios : List ServerIo} {req : Request} {response : Response}
    (h : dispatch env fuel io s req = some (s', response)) :
    onConnection env fuel (s, io :: ios) req = ((s', ios), response) := by
  unfold onConnection
  rw [List.headD_cons, h]
  rfl

/-- The run: where the edits come to an end, the connection goes through the states of `serverRun`. -/
theorem serverRun_connection {reqs : List Request} {ios : List ServerIo} {responses : List Response}
    (hlen : reqs.length ≤ ios.length) (h : serverRun env fuel s (reqs.zip ios) = some (s', responses)) :
    (Mealy.final (connStep (onConnection env fuel)) (s, ios) reqs).1 = s' ∧
      Mealy.emit (connStep (onConnection env fuel)) (s, ios) reqs = responses := by
  induction reqs generalizing s ios responses with
  | nil =>
    obtain ⟨rfl, rfl⟩ := Prod.mk.inj (Option.some.inj h)
    exact ⟨rfl, rfl⟩
  | cons req reqs ih =>
    cases ios with
    | nil => exact absurd hlen (by simp)
    | cons io ios =>
      rw [List.zip_cons_cons] at h
      obtain ⟨next, response, rest, hstep, hrest, rfl⟩ := serverRun_cons h
      obtain ⟨hfinal, hemit⟩ := ih (by simpa using hlen) hrest
      rw [Mealy.final_cons, Mealy.emit_cons, connStep, onConnection_dispatch hstep]
      exact ⟨hfinal, congrArg (response :: ·) hemit⟩

/-- The responses of a run. -/
theorem serverRun_clean {reqs : List (Request × ServerIo)} {responses : List Response}
    (h : serverRun env fuel s reqs = some (s', responses)) (hbody : ∀ r ∈ responses, r.body.length < 2 ^ 64) :
    ∀ r ∈ responses, r.Clean := by
  induction reqs generalizing s responses with
  | nil =>
    obtain ⟨-, rfl⟩ := Prod.mk.inj (Option.some.inj h)
    simp
  | cons c reqs ih =>
    obtain ⟨req, io⟩ := c
    obtain ⟨next, response, rest, hstep, hrest, rfl⟩ := serverRun_cons h
    obtain ⟨hfirst, hothers⟩ := List.forall_mem_cons.mp hbody
    exact List.forall_mem_cons.mpr ⟨dispatch_clean hstep hfirst, ih hrest hothers⟩

/-- **The server answers what its client wrote.** A client that writes its requests at once leaves the server as a
    run of them does, up to the first that closes the connection, and reads the responses of that run. -/
theorem server_answers {rs : List ClientRequest} {ios : List ServerIo} {responses : List Response}
    (hok : ∀ r ∈ rs, r.Ok) (hlen : (throughClose (rs.map ClientRequest.meant)).length ≤ ios.length)
    (h : serverRun env fuel s ((throughClose (rs.map ClientRequest.meant)).zip ios) = some (s', responses))
    (hbody : ∀ r ∈ responses, r.body.length < 2 ^ 64) :
    (connHandle (onConnection env fuel) (s, ios) (rs.flatMap ClientRequest.bytes)).1.1 = s' ∧
      readResponses ((connHandle (onConnection env fuel) (s, ios) (rs.flatMap ClientRequest.bytes)).2.length + 1)
          (connHandle (onConnection env fuel) (s, ios) (rs.flatMap ClientRequest.bytes)).2
        = responses := by
  obtain ⟨hfinal, hemit⟩ := serverRun_connection hlen h
  rw [connHandle_written _ _ hok, hemit]
  exact ⟨hfinal, readResponses_sent (serverRun_clean h hbody) (Nat.lt_succ_self _)⟩

end AppOptR
