import AppOptR.Lib.Mealy
import AppOptR.Web.Http

/-!
# `Web.Correctness.Http` — where a request ends

The bytes of a stream fall into requests, and where one ends is a matter of its own bytes (`requestRead_own`): what
follows it cannot change it, and nothing of it is left for the next one. So a connection serves the requests of
its stream, one after the other (`connection_requests`).
-/

namespace AppOptR

open Text

variable {σ : Type} {dispatch : σ → Request → σ × Response} {stream rest head : List UInt8} {req : Request}

/-! ## The head -/

/-- The lines of a head as they are sent. -/
def crlfLines (ls : List Str) : Str := ls.flatMap (· ++ ['\r', '\n'])

theorem lines_crlf {ls : List Str} (h : ∀ l ∈ ls, '\n' ∉ l) : lines (crlfLines ls) = ls := by
  induction ls with
  | nil => exact lines_nil
  | cons l ls ih =>
    have hfree : '\n' ∉ l ++ ['\r'] := by simpa using h l (by simp)
    have hcr : stripCr (l ++ ['\r']) = l := by
      unfold stripCr
      rw [stripSuffix_eq_some.mpr rfl]
      rfl
    have hsplit : crlfLines (l :: ls) = (l ++ ['\r']) ++ '\n' :: crlfLines ls := by simp [crlfLines]
    rw [hsplit, lines_line hfree, hcr, ih fun m hm => h m (by simp [hm])]

/-- A head within the limit, through the blank line. -/
theorem readHead_crlf (head : List UInt8) {ls : List Str} (h : ∀ l ∈ ls, '\n' ∉ l ∧ l ≠ []) {fuel : Nat}
    (hfuel : ls.length < fuel) (hlimit : head.length + (utf8 (crlfLines ls)).length ≤ 8192) (rest : List UInt8) :
    readHead fuel head (utf8 (crlfLines ls) ++ 13 :: 10 :: rest) = some (head ++ utf8 (crlfLines ls), rest) := by
  induction ls generalizing fuel head with
  | nil =>
    cases fuel with
    | zero => exact absurd hfuel (by simp)
    | succ fuel => simp [readHead, crlfLines, readUntil]
  | cons l ls ih =>
    cases fuel with
    | zero => exact absurd hfuel (by simp)
    | succ fuel =>
      obtain ⟨hfree, hne⟩ := h l (by simp)
      have hcons : utf8 (crlfLines (l :: ls)) = utf8 (l ++ ['\r', '\n']) ++ utf8 (crlfLines ls) := by
        rw [crlfLines, List.flatMap_cons, utf8_append]
        rfl
      have hnil : utf8 (l ++ ['\r', '\n']) ≠ [] := fun hc => by
        have : (l ++ ['\r', '\n']) = [] := utf8_injective (hc.trans utf8_nil.symm)
        simp at this
      have hblank : ¬ (utf8 (l ++ ['\r', '\n']) = [13, 10] ∨ utf8 (l ++ ['\r', '\n']) = [10]) := by
        rintro (hc | hc)
        · have : l ++ ['\r', '\n'] = ['\r', '\n'] := utf8_injective hc
          exact hne (by simpa using this)
        · have : l ++ ['\r', '\n'] = ['\n'] := utf8_injective hc
          have := congrArg List.length this
          simp at this
      rw [hcons, List.length_append] at hlimit
      rw [hcons, List.append_assoc, readHead, readUntil_line hfree]
      dsimp only
      rw [if_neg hnil, if_neg hblank, if_neg (by rw [List.length_append]; omega)]
      rw [ih _ (fun m hm => h m (by simp [hm])) (by simpa using hfuel) (by rw [List.length_append]; omega)]
      simp

/-- **A head ends where its own bytes say**: the stream up to a blank line, whatever follows. -/
theorem readHead_own {fuel : Nat} {head₀ : List UInt8} (hlimit : head₀.length ≤ 8192)
    (h : readHead fuel head₀ stream = some (head, rest)) :
    ∃ own, stream = own ++ rest ∧ own ≠ [] ∧ head₀.length + own.length ≤ 8194 ∧
      ∀ fuel after, own.length < fuel → readHead fuel head₀ (own ++ after) = some (head, after) := by
  induction fuel generalizing head₀ stream with
  | zero => cases h
  | succ fuel ih =>
    unfold readHead at h
    dsimp only at h
    split at h
    · cases h
    next hline =>
    rcases readUntil_cases 10 stream with ⟨line, hfree, hstream, hread⟩ | ⟨hfree, hend⟩
    · rw [hread] at h hline
      have hnext : ∀ after, readUntil 10 (line ++ [10] ++ after) = (line ++ [10], after) := fun after => by
        rw [List.append_assoc, List.singleton_append, readUntil_found hfree]
      split at h
      · next hblank =>
        obtain ⟨rfl, rfl⟩ := Prod.mk.inj (Option.some.inj h)
        have hshort : (line ++ [10]).length ≤ 2 := by
          rcases hblank with hb | hb <;> simp [hb]
        refine ⟨line ++ [10], by simpa using hstream, hline, by omega, fun fuel' after hfuel => ?_⟩
        cases fuel' with
        | zero => exact absurd hfuel (by simp)
        | succ fuel' =>
          rw [readHead, hnext]
          dsimp only
          rw [if_neg hline, if_pos hblank]
      next hblank =>
      split at h
      · cases h
      next hroom =>
      obtain ⟨own, hrest, hne, hlen, hown⟩ := ih (by omega) h
      refine ⟨line ++ [10] ++ own, ?_, by simp, ?_, fun fuel' after hfuel => ?_⟩
      · rw [List.append_assoc, ← hrest, List.append_assoc, List.singleton_append]
        exact hstream
      · rw [List.length_append] at hlen ⊢
        omega
      · cases fuel' with
        | zero => exact absurd hfuel (by simp)
        | succ fuel' =>
          have hpos : 0 < (line ++ [10]).length := by simp
          rw [List.append_assoc, readHead, hnext]
          dsimp only
          rw [if_neg hline, if_neg hblank, if_neg hroom]
          exact hown fuel' after (by rw [List.length_append] at hfuel; omega)
    · -- the last line has no end: the next read finds nothing
      rw [hend] at h
      split at h
      · next hblank =>
        dsimp only at hblank
        rcases hblank with rfl | rfl <;> simp at hfree
      split at h
      · cases h
      · cases fuel <;> simp [readHead, readUntil] at h

/-! ## Requests -/

/-- **A request is what its own bytes say**: the same whatever follows, and within the limits. -/
theorem requestRead_own (h : requestRead stream = some (req, rest)) :
    ∃ own, stream = own ++ rest ∧ own ≠ [] ∧ own.length ≤ 8194 + req.body.length ∧ req.body.length ≤ 16384 ∧
      req.body <:+ own ∧ ∀ after, requestRead (own ++ after) = some (req, after) := by
  unfold requestRead at h
  obtain ⟨⟨head, behind⟩, hhead, h⟩ := Option.bind_eq_some_iff.mp h
  obtain ⟨⟨method, path, version, vars⟩, hparse, h⟩ := Option.bind_eq_some_iff.mp h
  dsimp only at h
  split at h
  · cases h
  next hlen =>
  rw [not_or, not_lt, not_lt] at hlen
  obtain ⟨rfl, rfl⟩ := Prod.mk.inj (Option.some.inj h)
  obtain ⟨own, hstream, hne, hshort, hown⟩ := readHead_own (by simp) hhead
  rw [List.length_nil, Nat.zero_add] at hshort
  have hbody : (behind.take vars.len).length = vars.len := by rw [List.length_take]; omega
  refine ⟨own ++ behind.take vars.len, ?_, by simp [hne], ?_, ?_, List.suffix_append _ _, fun after => ?_⟩
  · rw [List.append_assoc, List.take_append_drop]
    exact hstream
  · rw [List.length_append]
    exact Nat.add_le_add_right hshort _
  · dsimp only
    omega
  · have hread := hown ((own ++ behind.take vars.len ++ after).length + 1) (behind.take vars.len ++ after)
      (by simp only [List.length_append]; omega)
    unfold requestRead
    rw [← List.append_assoc] at hread
    rw [hread, Option.bind_some]
    dsimp only
    rw [hparse, Option.bind_some]
    dsimp only
    rw [if_neg (by rw [not_or, List.length_append, hbody]; omega), List.take_left' hbody, List.drop_left' hbody]

/-! ## Connections -/

/-- One request of a connection, and its response. -/
def connStep (dispatch : σ → Request → σ × Response) (s : σ) (req : Request) : σ × List Response :=
  ((dispatch s req).1, [(dispatch s req).2])

/-- The requests of a stream, each with its bytes. All but the last keep the connection open; where the last
    does too, what is left is no request. -/
inductive Requests : List UInt8 → List (List UInt8 × Request) → List UInt8 → Prop
  | none {stream : List UInt8} (h : requestRead stream = none) : Requests stream [] stream
  | last {own rest : List UInt8} {req : Request} (h : ∀ after, requestRead (own ++ after) = some (req, after))
      (hclose : req.keepAlive = false) : Requests (own ++ rest) [(own, req)] rest
  | next {own stream rest : List UInt8} {req : Request} {reqs : List (List UInt8 × Request)}
      (h : ∀ after, requestRead (own ++ after) = some (req, after)) (hopen : req.keepAlive = true)
      (hreqs : Requests stream reqs rest) : Requests (own ++ stream) ((own, req) :: reqs) rest

theorem connLoop_requests (dispatch : σ → Request → σ × Response) {fuel : Nat} (hfuel : stream.length < fuel) (s : σ) :
    ∃ reqs rest, Requests stream reqs rest ∧
      (∀ r ∈ reqs, r.1.length ≤ 8194 + r.2.body.length ∧ r.2.body.length ≤ 16384 ∧ r.2.body <:+ r.1) ∧
      connLoop dispatch fuel s stream = (Mealy.final (connStep dispatch) s (reqs.map (·.2)),
        (Mealy.emit (connStep dispatch) s (reqs.map (·.2))).flatMap respSend) := by
  induction fuel generalizing stream s with
  | zero => exact absurd hfuel (by simp)
  | succ fuel ih =>
    unfold connLoop
    cases hread : requestRead stream with
    | none => exact ⟨[], stream, .none hread, by simp, rfl⟩
    | some found =>
      obtain ⟨req, rest⟩ := found
      obtain ⟨own, rfl, hne, hlen, hbody, hsuffix, hown⟩ := requestRead_own hread
      have hpos := List.length_pos_of_ne_nil hne
      cases hkeep : req.keepAlive with
      | false =>
        refine ⟨[(own, req)], rest, .last hown hkeep, by simpa using ⟨hlen, hbody, hsuffix⟩, ?_⟩
        simp [connStep, hkeep]
      | true =>
        have hrest : rest.length < fuel := by
          rw [List.length_append] at hfuel
          omega
        obtain ⟨reqs, tail, hreqs, hbounds, hloop⟩ := ih hrest (dispatch s req).1
        refine ⟨(own, req) :: reqs, tail, .next hown hkeep hreqs, ?_, ?_⟩
        · intro r hr
          rcases List.mem_cons.mp hr with rfl | hr
          · exact ⟨hlen, hbody, hsuffix⟩
          · exact hbounds r hr
        · dsimp only
          rw [hloop]
          simp [connStep, hkeep]

/-- **A connection serves the requests of its stream**, whatever bytes the client sends: consecutive pieces of the
    stream, each of bounded length and a request by its own bytes alone, are dispatched in order and answered in
    order, up to the first that is not to keep the connection, or until what is left is no request. -/
theorem connection_requests (dispatch : σ → Request → σ × Response) (s : σ) (stream : List UInt8) :
    ∃ reqs rest, Requests stream reqs rest ∧
      (∀ r ∈ reqs, r.1.length ≤ 8194 + r.2.body.length ∧ r.2.body.length ≤ 16384 ∧ r.2.body <:+ r.1) ∧
      connHandle dispatch s stream = (Mealy.final (connStep dispatch) s (reqs.map (·.2)),
        (Mealy.emit (connStep dispatch) s (reqs.map (·.2))).flatMap respSend) :=
  connLoop_requests dispatch (Nat.lt_succ_self _) s

end AppOptR
