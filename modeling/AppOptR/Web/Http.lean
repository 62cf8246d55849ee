import AppOptR.Cpuset.CoreTypes
import AppOptR.Lib.Lossy

/-!
# `Web.Http` — requests and responses on a connection

`request_read`, `resp_send` and the loop of `conn_handle` of `web.rs`. A stream is the bytes a client sends
before it closes, before the read times out or before it fails: at its end every read that needs more returns
an end of file or an error, and `request_read` gives up on both alike.
-/

namespace AppOptR

open Text

/-- `Request`: what the handlers see of a request. The header fields that count are lower case, and empty where
    the client left them out. -/
structure Request where
  method : Str
  path : Str
  host : Str
  origin : Str
  fetchSite : Str
  contentType : Str
  body : List UInt8
  keepAlive : Bool
  deriving DecidableEq

/-- `str::to_ascii_lowercase`. -/
def toAsciiLowercase (s : Str) : Str := s.map Char.toLower

/-- The loop that collects the lines of the head. -/
def readHead : Nat → List UInt8 → List UInt8 → Option (List UInt8 × List UInt8)
  | 0, _, _ => none
  | fuel + 1, head, stream =>
    let (line, rest) := readUntil 10 stream
    if line = [] then none
    else if line = [13, 10] ∨ line = [10] then some (head, rest)
    else if 8192 < (head ++ line).length then none
    else readHead fuel (head ++ line) rest

/-- The variables that the header lines set. -/
structure HeaderVars where
  host : Str := []
  origin : Str := []
  site : Str := []
  ctype : Str := []
  len : Nat := 0
  conn : Str := []

/-- One header line; nothing where the request is refused. -/
def headerLine (vars : HeaderVars) (line : Str) : Option HeaderVars :=
  match splitFirst ':' line with
  | none => some vars
  | some (key, value) =>
    let value := trim value
    let key := toAsciiLowercase (trim key)
    if key = "host".toList then some { vars with host := toAsciiLowercase value }
    else if key = "origin".toList then some { vars with origin := toAsciiLowercase value }
    else if key = "sec-fetch-site".toList then some { vars with site := toAsciiLowercase value }
    else if key = "content-type".toList then some { vars with ctype := toAsciiLowercase value }
    else if key = "content-length".toList then
      some { vars with len := (parseUnsigned 64 value).getD (2 ^ 64 - 1) }
    else if key = "connection".toList then some { vars with conn := toAsciiLowercase value }
    else if key = "transfer-encoding".toList then none
    else some vars

/-- Method, path, version and headers. -/
def parseHead (head : Str) : Option (Str × Str × Str × HeaderVars) :=
  match lines head with
  | [] => none
  | first :: rest =>
    match splitWhitespace first with
    | method :: target :: more =>
      (rest.foldlM headerLine {}).map fun vars =>
        (method, target.takeWhile (· ≠ '?'), more.headD "HTTP/1.1".toList, vars)
    | _ => none

/-- Whether the connection stays open: an HTTP/1.0 client has to ask for it, a later one to decline. -/
def keepsAlive (version conn : Str) : Bool :=
  if version = "HTTP/1.0".toList then containsStr "keep-alive".toList conn
  else !containsStr "close".toList conn

/-- `request_read`: a request, and the stream behind it. -/
def requestRead (stream : List UInt8) : Option (Request × List UInt8) :=
  (readHead (stream.length + 1) [] stream).bind fun (head, rest) =>
    (parseHead (fromUtf8Lossy head)).bind fun (method, path, version, vars) =>
      if 16384 < vars.len ∨ rest.length < vars.len then none
      else
        some ({ method, path, host := vars.host, origin := vars.origin, fetchSite := vars.site
                contentType := vars.ctype, body := rest.take vars.len, keepAlive := keepsAlive version vars.conn },
          rest.drop vars.len)

/-! ## Responses -/

/-- What `resp_send` is given; `close` says that it is the last one on its connection. -/
structure Response where
  status : Nat
  ctype : Str
  body : List UInt8
  close : Bool
  deriving DecidableEq

/-- The reason phrase of a status; there is one `Error` for all that are not listed. -/
def reason (status : Nat) : Str :=
  match status with
  | 200 => "OK".toList
  | 400 => "Bad Request".toList
  | 403 => "Forbidden".toList
  | 404 => "Not Found".toList
  | _ => "Error".toList

/-- `resp_send`. -/
def respSend (r : Response) : List UInt8 :=
  let head :=
    "HTTP/1.1 ".toList ++ Nat.toDigits 10 r.status ++ ' ' :: reason r.status ++ "\r\nContent-Type: ".toList ++
      r.ctype ++ "\r\nContent-Length: ".toList ++ Nat.toDigits 10 r.body.length ++
      "\r\nCache-Control: no-store\r\nConnection: ".toList ++
      (if r.close then "close".toList else "keep-alive".toList) ++ "\r\n\r\n".toList
  utf8 head ++ r.body

/-! ## Connections -/

section
variable {σ : Type} (dispatch : σ → Request → σ × Response)

/-- The loop of `conn_handle`: the requests are dispatched as they are read, until one of them is to be the
    last or there is no further one. -/
def connLoop : Nat → σ → List UInt8 → σ × List UInt8
  | 0, s, _ => (s, [])
  | fuel + 1, s, stream =>
    match requestRead stream with
    | none => (s, [])
    | some (req, rest) =>
      let (s, response) := dispatch s req
      if req.keepAlive then
        let (s, out) := connLoop fuel s rest
        (s, respSend response ++ out)
      else (s, respSend response)

/-- `conn_handle`: what is left of the state, and the bytes that are sent. -/
def connHandle (s : σ) (stream : List UInt8) : σ × List UInt8 := connLoop dispatch (stream.length + 1) s stream

end

end AppOptR
