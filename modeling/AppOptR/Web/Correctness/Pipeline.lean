import AppOptR.Cpuset.Canonical
import AppOptR.Web.Correctness.Http

/-!
# `Web.Correctness.Pipeline` — what a client sends arrives, and what it gets can be read

A client writes requests one after the other, with the headers it likes in the order it likes, and reads the
responses by their `Content-Length`. Each request arrives as it was meant (`requestRead_written`), each response
is read as it was sent (`readResponse_sent`), and a client that sends many at once gets the answers that it would
get one at a time (`pipeline_answers`).
-/

namespace AppOptR

open Text

/-! ## The client's side -/

/-- A request as a client writes it. -/
structure ClientRequest where
  method : Str
  target : Str
  version : Str
  headers : List (Str × Str)
  body : List UInt8

namespace ClientRequest

/-- The request line and the headers. -/
def lines (r : ClientRequest) : List Str :=
  (r.method ++ ' ' :: r.target ++ ' ' :: r.version) :: r.headers.map fun h => h.1 ++ ':' :: ' ' :: h.2

/-- The request as it is written. -/
def bytes (r : ClientRequest) : List UInt8 := utf8 (crlfLines r.lines) ++ 13 :: 10 :: r.body

/-- The last header of a name, in any case; trimmed. -/
def header (r : ClientRequest) (name : String) : Option Str :=
  ((r.headers.filter fun h => toAsciiLowercase (trim h.1) = name.toList).getLast?).map fun h => trim h.2

/-- A value that is compared in lower case. -/
def lowerHeader (r : ClientRequest) (name : String) : Str := toAsciiLowercase ((r.header name).getD [])

/-- The length that is declared. -/
def contentLength (r : ClientRequest) : Nat :=
  ((r.header "content-length").map fun v => (parseUnsigned 64 v).getD (2 ^ 64 - 1)).getD 0

/-- What the server is to make of it. -/
def meant (r : ClientRequest) : Request where
  method := r.method
  path := r.target.takeWhile (· ≠ '?')
  host := r.lowerHeader "host"
  origin := r.lowerHeader "origin"
  fetchSite := r.lowerHeader "sec-fetch-site"
  contentType := r.lowerHeader "content-type"
  body := r.body
  keepAlive := keepsAlive r.version (r.lowerHeader "connection")

/-- A word of the request line. -/
def Token (s : Str) : Prop := s ≠ [] ∧ ∀ c ∈ s, isWhitespace c = false

/-- What HTTP asks of a request, and the limits of the server. -/
structure Ok (r : ClientRequest) : Prop where
  method : Token r.method
  target : Token r.target
  version : Token r.version
  names : ∀ h ∈ r.headers, ':' ∉ h.1 ∧ '\n' ∉ h.1
  values : ∀ h ∈ r.headers, '\n' ∉ h.2
  length : r.contentLength = r.body.length
  plain : r.header "transfer-encoding" = none
  head : (utf8 (crlfLines r.lines)).length ≤ 8192
  body : r.body.length ≤ 16384

end ClientRequest

/-! ## Requests arrive -/

variable {r : ClientRequest} {hs : List (Str × Str)}

/-- The variables after some headers. -/
def headerVars (r : ClientRequest) : HeaderVars where
  host := r.lowerHeader "host"
  origin := r.lowerHeader "origin"
  site := r.lowerHeader "sec-fetch-site"
  ctype := r.lowerHeader "content-type"
  len := r.contentLength
  conn := r.lowerHeader "connection"

theorem header_concat (r : ClientRequest) (h : Str × Str) (name : String) :
    { r with headers := r.headers ++ [h] }.header name
      = if toAsciiLowercase (trim h.1) = name.toList then some (trim h.2) else r.header name := by
  unfold ClientRequest.header
  rw [List.filter_append]
  split
  · next heq => simp [heq]
  · next hne => simp [hne]

theorem headerLine_vars (r : ClientRequest) (h : Str × Str) (hcolon : ':' ∉ h.1)
    (hplain : toAsciiLowercase (trim h.1) ≠ "transfer-encoding".toList) :
    headerLine (headerVars r) (h.1 ++ ':' :: ' ' :: h.2)
      = some (headerVars { r with headers := r.headers ++ [h] }) := by
  have hsplit : splitFirst ':' (h.1 ++ ':' :: ' ' :: h.2) = some (h.1, ' ' :: h.2) :=
    splitFirst_eq_some.mpr ⟨rfl, hcolon⟩
  have hblank : Blank [' '] := by
    intro c hc
    rw [List.mem_singleton.mp hc]
    decide
  have htrim : trim (' ' :: h.2) = trim h.2 := trim_blank_append hblank h.2
  unfold headerLine
  rw [hsplit]
  dsimp only
  rw [htrim]
  simp only [headerVars, ClientRequest.lowerHeader, ClientRequest.contentLength, header_concat]
  generalize toAsciiLowercase (trim h.1) = key at hplain
  by_cases hhost : key = "host".toList
  · subst hhost
    simp +decide only [if_true, if_false, Option.getD_some]
  by_cases horigin : key = "origin".toList
  · subst horigin
    simp +decide only [if_true, if_false, Option.getD_some]
  by_cases hsite : key = "sec-fetch-site".toList
  · subst hsite
    simp +decide only [if_true, if_false, Option.getD_some]
  by_cases hctype : key = "content-type".toList
  · subst hctype
    simp +decide only [if_true, if_false, Option.getD_some]
  by_cases hlen : key = "content-length".toList
  · subst hlen
    simp +decide only [if_true, if_false, Option.getD_some, Option.map_some]
  by_cases hconn : key = "connection".toList
  · subst hconn
    simp +decide only [if_true, if_false, Option.getD_some]
  simp only [hhost, horigin, hsite, hctype, hlen, hconn, hplain, if_false]

theorem headerLines_vars (r : ClientRequest) (pre : List (Str × Str)) (hs : List (Str × Str))
    (hnames : ∀ h ∈ hs, ':' ∉ h.1 ∧ toAsciiLowercase (trim h.1) ≠ "transfer-encoding".toList) :
    (hs.map fun h => h.1 ++ ':' :: ' ' :: h.2).foldlM headerLine (headerVars { r with headers := pre })
      = some (headerVars { r with headers := pre ++ hs }) := by
  induction hs generalizing pre with
  | nil => simp
  | cons h hs ih =>
    obtain ⟨hcolon, hplain⟩ := hnames h (by simp)
    have hstep := headerLine_vars { r with headers := pre } h hcolon hplain
    rw [List.map_cons, List.foldlM_cons, hstep, Option.bind_eq_bind, Option.bind_some]
    rw [ih (pre ++ [h]) fun g hg => hnames g (by simp [hg])]
    simp

/-- A word, and what follows the blank behind it. -/
theorem splitWhitespace_token {t : Str} (h : ClientRequest.Token t) (s : Str) :
    splitWhitespace (t ++ ' ' :: s) = t :: splitWhitespace s := by
  unfold splitWhitespace
  rw [List.splitOnP_append_cons_of_forall_mem h.2 ' ' (by decide) s]
  simp [h.1]

theorem splitWhitespace_single {t : Str} (h : ClientRequest.Token t) : splitWhitespace t = [t] := by
  unfold splitWhitespace
  rw [List.splitOnP_eq_singleton h.2]
  simp [h.1]

theorem Token.no_newline {t : Str} (h : ClientRequest.Token t) : '\n' ∉ t := fun hm => by
  have := h.2 _ hm
  simp [isWhitespace] at this

/-- The lines of a request are lines. -/
theorem ClientRequest.Ok.lines_free (h : r.Ok) : ∀ l ∈ r.lines, '\n' ∉ l ∧ l ≠ [] := by
  intro l hl
  rcases List.mem_cons.mp hl with rfl | hl
  · have hm := Token.no_newline h.method
    have ht := Token.no_newline h.target
    have hv := Token.no_newline h.version
    exact ⟨by simp [hm, ht, hv], by simp⟩
  · obtain ⟨header, hmem, rfl⟩ := List.mem_map.mp hl
    exact ⟨by simp [(h.names header hmem).2, h.values header hmem], by simp⟩

/-- No header of the request is refused. -/
theorem ClientRequest.Ok.not_chunked (h : r.Ok) :
    ∀ header ∈ r.headers, ':' ∉ header.1 ∧ toAsciiLowercase (trim header.1) ≠ "transfer-encoding".toList := by
  intro header hmem
  refine ⟨(h.names header hmem).1, fun hname => ?_⟩
  have hnone := h.plain
  unfold ClientRequest.header at hnone
  rw [Option.map_eq_none_iff, List.getLast?_eq_none_iff, List.filter_eq_nil_iff] at hnone
  exact hnone header hmem (decide_eq_true hname)

theorem crlfLines_length (ls : List Str) : ls.length ≤ (utf8 (crlfLines ls)).length := by
  induction ls with
  | nil => simp
  | cons l ls ih =>
    have hcons : utf8 (crlfLines (l :: ls)) = utf8 l ++ (13 :: 10 :: utf8 (crlfLines ls)) := by
      rw [crlfLines, List.flatMap_cons, utf8_append, utf8_append, List.append_assoc]
      rfl
    rw [hcons, List.length_append, List.length_cons, List.length_cons, List.length_cons]
    omega

/-- **A request arrives as it was meant**, and the stream is left where it ends. -/
theorem requestRead_written (h : r.Ok) (rest : List UInt8) : requestRead (r.bytes ++ rest) = some (r.meant, rest) := by
  have hlines := h.lines_free
  have hstream : r.bytes ++ rest = utf8 (crlfLines r.lines) ++ 13 :: 10 :: (r.body ++ rest) := by
    simp [ClientRequest.bytes]
  have hcount : r.lines.length < (r.bytes ++ rest).length + 1 := by
    rw [hstream, List.length_append]
    exact Nat.lt_succ_of_le ((crlfLines_length r.lines).trans (Nat.le_add_right _ _))
  have hhead := readHead_crlf [] hlines hcount (by simpa using h.head) (r.body ++ rest)
  have hparse : parseHead (crlfLines r.lines)
      = some (r.method, r.target.takeWhile (· ≠ '?'), r.version, headerVars r) := by
    have hvars := headerLines_vars r [] r.headers h.not_chunked
    unfold parseHead
    rw [lines_crlf fun l hl => (hlines l hl).1]
    unfold ClientRequest.lines
    dsimp only
    rw [List.append_assoc, List.cons_append, splitWhitespace_token h.method, splitWhitespace_token h.target,
      splitWhitespace_single h.version]
    dsimp only
    have hstart : headerVars { r with headers := [] } = {} := rfl
    rw [hstart, List.nil_append] at hvars
    rw [hvars]
    rfl
  unfold requestRead
  rw [hstream] at hhead ⊢
  rw [hhead, Option.bind_some]
  dsimp only
  rw [List.nil_append, fromUtf8Lossy_utf8, hparse, Option.bind_some]
  dsimp only
  have hlen : (headerVars r).len = r.body.length := h.length
  rw [hlen, if_neg (by have := h.body; rw [List.length_append]; omega), List.take_left, List.drop_left]
  rfl

/-! ## Responses arrive -/

/-- A response as a client reads it: the head, and as many bytes as it declares. -/
def readResponse (stream : List UInt8) : Option (Response × List UInt8) :=
  (readHead (stream.length + 1) [] stream).bind fun (head, rest) =>
    match lines (fromUtf8Lossy head) with
    | [] => none
    | first :: headers =>
      match splitWhitespace first with
      | _ :: code :: _ =>
        (headers.foldlM headerLine {}).bind fun vars =>
          if rest.length < vars.len then none
          else
            (parseUnsigned 16 code).map fun status =>
              ({ status, ctype := vars.ctype, body := rest.take vars.len, close := vars.conn = "close".toList },
                rest.drop vars.len)
      | _ => none

/-- What the handlers put into a response. -/
structure Response.Clean (r : Response) : Prop where
  status : r.status < 1000
  newline : '\n' ∉ r.ctype
  lower : toAsciiLowercase (trim r.ctype) = r.ctype
  short : byteLen r.ctype ≤ 1024
  body : r.body.length < 2 ^ 64

/-- The headers of `resp_send`. -/
def responseHeaders (r : Response) : List (Str × Str) :=
  [("Content-Type".toList, r.ctype), ("Content-Length".toList, Nat.toDigits 10 r.body.length),
    ("Cache-Control".toList, "no-store".toList),
    ("Connection".toList, if r.close then "close".toList else "keep-alive".toList)]

/-- The head of a response, line by line. -/
def responseLines (r : Response) : List Str :=
  ("HTTP/1.1".toList ++ ' ' :: (Nat.toDigits 10 r.status ++ ' ' :: reason r.status)) ::
    (responseHeaders r).map fun h => h.1 ++ ':' :: ' ' :: h.2

theorem respSend_lines (r : Response) : respSend r = utf8 (crlfLines (responseLines r)) ++ 13 :: 10 :: r.body := by
  have hstatus : "HTTP/1.1 ".toList = "HTTP/1.1".toList ++ [' '] := by decide
  have htype : "\r\nContent-Type: ".toList = '\r' :: '\n' :: ("Content-Type".toList ++ [':', ' ']) := by decide
  have hlength : "\r\nContent-Length: ".toList = '\r' :: '\n' :: ("Content-Length".toList ++ [':', ' ']) := by decide
  have hcache : "\r\nCache-Control: no-store\r\nConnection: ".toList
      = '\r' :: '\n' :: ("Cache-Control".toList ++ ':' :: ' ' :: ("no-store".toList ++
          '\r' :: '\n' :: ("Connection".toList ++ [':', ' ']))) := by decide
  have hend : "\r\n\r\n".toList = ['\r', '\n', '\r', '\n'] := by decide
  have hblank : (13 :: 10 :: r.body : List UInt8) = utf8 ['\r', '\n'] ++ r.body := rfl
  rw [hblank, ← List.append_assoc, ← utf8_append]
  unfold respSend
  dsimp only
  congr 2
  rw [hstatus, htype, hlength, hcache, hend]
  simp only [crlfLines, responseLines, responseHeaders, List.flatMap_cons, List.map_cons, List.map_nil,
    List.flatMap_nil, List.append_assoc, List.cons_append, List.nil_append, List.append_nil]

theorem parseUnsigned_printed {width n : Nat} (h : n < 2 ^ width) :
    parseUnsigned width (Nat.toDigits 10 n) = some n := by
  rw [parseUnsigned_digits (toDigits_allDigits n) Nat.toDigits_ne_nil, number_toDigits, if_pos h]

/-- A printed number is a word. -/
theorem digits_token (n : Nat) : ClientRequest.Token (Nat.toDigits 10 n) :=
  ⟨Nat.toDigits_ne_nil, fun _ hc => (digit_plain (List.all_eq_true.mp (toDigits_allDigits n) _ hc)).1⟩

/-- The variables that the headers of a response set. -/
theorem responseHeaders_vars {r : Response} (h : r.Clean) :
    ((responseHeaders r).map fun h => h.1 ++ ':' :: ' ' :: h.2).foldlM headerLine {}
      = some { ctype := r.ctype, len := r.body.length
               conn := if r.close then "close".toList else "keep-alive".toList } := by
  have hnames : ∀ h ∈ responseHeaders r, ':' ∉ h.1 ∧ toAsciiLowercase (trim h.1) ≠ "transfer-encoding".toList := by
    intro header hmem
    simp only [responseHeaders, List.mem_cons, List.not_mem_nil, or_false] at hmem
    rcases hmem with rfl | rfl | rfl | rfl <;> dsimp only <;> exact ⟨by decide, by decide⟩
  have hfold := headerLines_vars ⟨[], [], [], [], []⟩ [] (responseHeaders r) hnames
  rw [List.nil_append] at hfold
  refine hfold.trans (congrArg some ?_)
  have hlen : (parseUnsigned 64 (trim (Nat.toDigits 10 r.body.length))).getD (2 ^ 64 - 1) = r.body.length := by
    rw [trim_of_solid (fun c hc => (digits_token _).2 c (List.mem_of_mem_head? hc))
      fun c hc => (digits_token _).2 c (List.mem_of_getLast? hc), parseUnsigned_printed h.body]
    rfl
  have hconn : toAsciiLowercase (trim (if r.close then "close".toList else "keep-alive".toList))
      = if r.close then "close".toList else "keep-alive".toList := by
    cases r.close <;> decide
  simp +decide only [headerVars, ClientRequest.lowerHeader, ClientRequest.contentLength, ClientRequest.header,
    responseHeaders, List.filter_cons, List.filter_nil, if_true, if_false, List.getLast?_nil, List.getLast?_singleton,
    Option.map_none, Option.map_some, Option.getD_some, Option.getD_none, h.lower, hlen, hconn]
  rfl

theorem reason_free (status : Nat) : '\n' ∉ reason status ∧ byteLen (reason status) ≤ 11 := by
  unfold reason
  split <;> decide

theorem Response.Clean.lines_free {r : Response} (h : r.Clean) : ∀ l ∈ responseLines r, '\n' ∉ l ∧ l ≠ [] := by
  have hdigits : ∀ n, '\n' ∉ Nat.toDigits 10 n := fun n => Token.no_newline (digits_token n)
  have hheaders : ∀ header ∈ responseHeaders r, '\n' ∉ header.1 ∧ '\n' ∉ header.2 := by
    intro header hmem
    simp only [responseHeaders, List.mem_cons, List.not_mem_nil, or_false] at hmem
    rcases hmem with rfl | rfl | rfl | rfl <;> dsimp only
    · exact ⟨by decide, h.newline⟩
    · exact ⟨by decide, hdigits _⟩
    · exact ⟨by decide, by decide⟩
    · exact ⟨by decide, by cases r.close <;> decide⟩
  intro l hl
  rcases List.mem_cons.mp hl with rfl | hl
  · have hversion : '\n' ∉ "HTTP/1.1".toList := by decide
    generalize "HTTP/1.1".toList = version at hversion
    exact ⟨by simp [hversion, hdigits, (reason_free r.status).1], by simp⟩
  · obtain ⟨header, hmem, rfl⟩ := List.mem_map.mp hl
    exact ⟨by simp [(hheaders header hmem).1, (hheaders header hmem).2], by simp⟩

theorem byteLen_cons (c : Char) (s : Str) : byteLen (c :: s) = c.utf8Size + byteLen s := by simp [byteLen]

theorem byteLen_allDigits {s : Str} (h : allDigits s = true) : byteLen s = s.length := by
  induction s with
  | nil => rfl
  | cons c s ih =>
    rw [allDigits, List.all_cons, Bool.and_eq_true] at h
    rw [byteLen_cons, (digit_plain h.1).2.2.2, ih h.2, List.length_cons, Nat.add_comm]

theorem byteLen_toDigits {n k : Nat} (hk : 0 < k) (h : n < 10 ^ k) : byteLen (Nat.toDigits 10 n) ≤ k := by
  rw [byteLen_allDigits (toDigits_allDigits n)]
  exact (Nat.length_toDigits_le_iff (by omega) hk).mpr h

/-- The head of a response is within the limit. -/
theorem Response.Clean.head_short {r : Response} (h : r.Clean) :
    (utf8 (crlfLines (responseLines r))).length ≤ 8192 := by
  have hstatus : byteLen (Nat.toDigits 10 r.status) ≤ 3 := byteLen_toDigits (by omega) (by have := h.status; omega)
  have hlength : byteLen (Nat.toDigits 10 r.body.length) ≤ 20 := byteLen_toDigits (by omega) (by have := h.body; omega)
  have hreason := (reason_free r.status).2
  have htype := h.short
  have hconn : byteLen (if r.close then "close".toList else "keep-alive".toList) ≤ 10 := by cases r.close <;> decide
  have hnames : byteLen "HTTP/1.1".toList = 8 ∧ byteLen "Content-Type".toList = 12 ∧
      byteLen "Content-Length".toList = 14 ∧ byteLen "Cache-Control".toList = 13 ∧
      byteLen "no-store".toList = 8 ∧ byteLen "Connection".toList = 10 := by decide
  have hmarks : byteLen ['\r', '\n'] = 2 ∧ (':').utf8Size = 1 ∧ (' ').utf8Size = 1 := by decide
  rw [length_utf8]
  simp only [crlfLines, responseLines, responseHeaders, List.flatMap_cons, List.map_cons, List.map_nil,
    List.flatMap_nil, byteLen_append, byteLen_cons, hnames, hmarks]
  have hnil : byteLen [] = 0 := rfl
  omega

/-- **A response is read as it was sent**, and the stream is left where it ends. -/
theorem readResponse_sent {r : Response} (h : r.Clean) (rest : List UInt8) :
    readResponse (respSend r ++ rest) = some (r, rest) := by
  have hstream : respSend r ++ rest = utf8 (crlfLines (responseLines r)) ++ 13 :: 10 :: (r.body ++ rest) := by
    rw [respSend_lines]
    simp
  have hcount : (responseLines r).length < (respSend r ++ rest).length + 1 := by
    rw [hstream, List.length_append]
    exact Nat.lt_succ_of_le ((crlfLines_length _).trans (Nat.le_add_right _ _))
  have hhead := readHead_crlf [] h.lines_free hcount (by simpa using h.head_short) (r.body ++ rest)
  have hstatus : parseUnsigned 16 (Nat.toDigits 10 r.status) = some r.status :=
    parseUnsigned_printed (by have := h.status; omega)
  have hclose : decide ((if r.close then "close".toList else "keep-alive".toList) = "close".toList) = r.close := by
    cases r.close <;> decide
  have hversion : ClientRequest.Token "HTTP/1.1".toList := ⟨by decide, by simp [isWhitespace]⟩
  unfold readResponse
  rw [hstream] at hhead ⊢
  rw [hhead, Option.bind_some]
  dsimp only
  rw [List.nil_append, fromUtf8Lossy_utf8, lines_crlf fun l hl => (h.lines_free l hl).1]
  unfold responseLines
  dsimp only
  rw [splitWhitespace_token hversion, splitWhitespace_token (digits_token _), responseHeaders_vars h]
  dsimp only
  rw [Option.bind_some]
  dsimp only
  rw [if_neg (by rw [List.length_append]; omega), hstatus, List.take_left, List.drop_left, hclose]
  rfl

/-! ## Many at once -/

/-- All the responses of a stream. -/
def readResponses : Nat → List UInt8 → List Response
  | 0, _ => []
  | fuel + 1, stream =>
    match readResponse stream with
    | none => []
    | some (response, rest) => response :: readResponses fuel rest

/-- The requests up to the first that is not to keep the connection. -/
def throughClose : List Request → List Request
  | [] => []
  | req :: reqs => req :: if req.keepAlive then throughClose reqs else []

theorem respSend_ne_nil (r : Response) : respSend r ≠ [] := by
  rw [respSend_lines]
  simp

theorem readResponses_sent {rs : List Response} (h : ∀ r ∈ rs, r.Clean) {fuel : Nat}
    (hfuel : (rs.flatMap respSend).length < fuel) : readResponses fuel (rs.flatMap respSend) = rs := by
  induction rs generalizing fuel with
  | nil =>
    cases fuel with
    | zero => rfl
    | succ fuel => rfl
  | cons r rs ih =>
    cases fuel with
    | zero => exact absurd hfuel (by simp)
    | succ fuel =>
      have hpos := List.length_pos_of_ne_nil (respSend_ne_nil r)
      rw [List.flatMap_cons, List.length_append] at hfuel
      rw [List.flatMap_cons, readResponses, readResponse_sent (h r (by simp))]
      dsimp only
      rw [ih (fun q hq => h q (by simp [hq])) (by omega)]

theorem bytes_ne_nil (r : ClientRequest) : r.bytes ≠ [] := by simp [ClientRequest.bytes]

section
variable {σ : Type} {dispatch : σ → Request → σ × Response}

/-- The loop on the requests that a client has written. -/
theorem connLoop_written (dispatch : σ → Request → σ × Response) (s : σ) {rs : List ClientRequest}
    (hok : ∀ r ∈ rs, r.Ok) {fuel : Nat} (hfuel : (rs.flatMap ClientRequest.bytes).length < fuel) :
    connLoop dispatch fuel s (rs.flatMap ClientRequest.bytes)
      = (Mealy.final (connStep dispatch) s (throughClose (rs.map ClientRequest.meant)),
        (Mealy.emit (connStep dispatch) s (throughClose (rs.map ClientRequest.meant))).flatMap respSend) := by
  induction rs generalizing s fuel with
  | nil =>
    cases fuel with
    | zero => rfl
    | succ fuel => rfl
  | cons r rs ih =>
    cases fuel with
    | zero => exact absurd hfuel (by simp)
    | succ fuel =>
      have hpos := List.length_pos_of_ne_nil (bytes_ne_nil r)
      rw [List.flatMap_cons, List.length_append] at hfuel
      rw [List.flatMap_cons, connLoop, requestRead_written (hok r (by simp)), List.map_cons, throughClose]
      dsimp only
      rw [ih (dispatch s r.meant).1 (fun q hq => hok q (by simp [hq])) (by omega)]
      cases hkeep : r.meant.keepAlive with
      | true => simp [connStep]
      | false => simp [connStep]

theorem connHandle_written (dispatch : σ → Request → σ × Response) (s : σ) {rs : List ClientRequest}
    (hok : ∀ r ∈ rs, r.Ok) :
    connHandle dispatch s (rs.flatMap ClientRequest.bytes)
      = (Mealy.final (connStep dispatch) s (throughClose (rs.map ClientRequest.meant)),
        (Mealy.emit (connStep dispatch) s (throughClose (rs.map ClientRequest.meant))).flatMap respSend) :=
  connLoop_written dispatch s hok (Nat.lt_succ_self _)

theorem emit_clean (hclean : ∀ s req, (dispatch s req).2.Clean) (s : σ) (reqs : List Request) :
    ∀ r ∈ Mealy.emit (connStep dispatch) s reqs, r.Clean := by
  induction reqs generalizing s with
  | nil => simp
  | cons req reqs ih =>
    intro r hr
    rw [Mealy.emit_cons] at hr
    rcases List.mem_append.mp hr with hr | hr
    · exact List.mem_singleton.mp hr ▸ hclean s req
    · exact ih _ r hr

/-- **A client gets its answers in order**, however many requests it sends at once: the handlers see the requests
    it wrote, as it meant them, up to the first that closes the connection, and what it reads by the declared
    lengths are their responses. -/
theorem pipeline_answers (hclean : ∀ s req, (dispatch s req).2.Clean) (s : σ) (rs : List ClientRequest)
    (hok : ∀ r ∈ rs, r.Ok) :
    (connHandle dispatch s (rs.flatMap ClientRequest.bytes)).1
        = Mealy.final (connStep dispatch) s (throughClose (rs.map ClientRequest.meant)) ∧
      readResponses ((connHandle dispatch s (rs.flatMap ClientRequest.bytes)).2.length + 1)
          (connHandle dispatch s (rs.flatMap ClientRequest.bytes)).2
        = Mealy.emit (connStep dispatch) s (throughClose (rs.map ClientRequest.meant)) := by
  rw [connHandle_written dispatch s hok]
  exact ⟨rfl, readResponses_sent (emit_clean hclean s _) (Nat.lt_succ_self _)⟩

end

/-- Two requests, the second with a body and the last. -/
def twoRequests : List ClientRequest :=
  [⟨"GET".toList, "/api/rules".toList, "HTTP/1.1".toList, [("Host".toList, "localhost:8889".toList)], []⟩,
    ⟨"POST".toList, "/api/rule".toList, "HTTP/1.1".toList,
      [("content-length".toList, "2".toList), ("Connection".toList, "Close".toList)], [0x7b, 0x7d]⟩]

/-- A server that counts. -/
def countDispatch (n : Nat) (_ : Request) : Nat × Response :=
  (n + 1, ⟨200, "application/json".toList, [.ofNat n], false⟩)

theorem pipeline_answers_two :
    readResponses ((connHandle countDispatch 0 (twoRequests.flatMap ClientRequest.bytes)).2.length + 1)
        (connHandle countDispatch 0 (twoRequests.flatMap ClientRequest.bytes)).2
      = [⟨200, "application/json".toList, [0], false⟩, ⟨200, "application/json".toList, [1], false⟩] := by
  have hclean : ∀ n req, (countDispatch n req).2.Clean := fun n _ => by
    have hbody : [UInt8.ofNat n].length < 2 ^ 64 := by rw [List.length_singleton]; decide
    refine ⟨?_, ?_, ?_, ?_, hbody⟩ <;> simp only [countDispatch] <;> decide
  have hok : ∀ r ∈ twoRequests, r.Ok := by
    intro r hr
    simp only [twoRequests, List.mem_cons, List.not_mem_nil, or_false] at hr
    rcases hr with rfl | rfl
    · exact ⟨⟨by decide, by simp [isWhitespace]⟩, ⟨by decide, by simp [isWhitespace]⟩,
        ⟨by decide, by simp [isWhitespace]⟩, by simp, by simp, by decide, by decide, by decide, by decide⟩
    · exact ⟨⟨by decide, by simp [isWhitespace]⟩, ⟨by decide, by simp [isWhitespace]⟩,
        ⟨by decide, by simp [isWhitespace]⟩, by simp, by simp, by decide, by decide, by decide, by decide⟩
  exact (pipeline_answers hclean 0 twoRequests hok).2.trans (by decide)

end AppOptR
