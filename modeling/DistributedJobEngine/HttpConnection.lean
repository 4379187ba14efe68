import DistributedJobEngine.ApiJson
import DistributedJobEngine.HttpParser

/-! The two ends of an HTTP connection: `HttpServer::serve_connection` and `HttpClient::request`. A socket is
the list of what `recv` returns, with the end of the list read as the end of the stream; writes succeed, and
the server is not stopping. -/

namespace DistributedJobEngine

open LibText

/-- What one round of `poll` and `recv` brings. -/
inductive Recv where
  | data (chunk : Bytes)
  | closed
  | timeout

structure HttpResponse where
  status : Int := 200
  contentType : Bytes := text "application/json"
  headers : List (Bytes × Bytes) := []
  body : Bytes := []

namespace HttpResponse

def json (r : HttpResponse) (code : Int) (body : Bytes) : HttpResponse :=
  { r with status := code, contentType := text "application/json", body }

def text (r : HttpResponse) (code : Int) (body : Bytes) : HttpResponse :=
  { r with status := code, contentType := DistributedJobEngine.text "text/plain; charset=utf-8", body }

end HttpResponse

/-- The reason phrases of `http_reason`. -/
def reasons : List (Int × Bytes) :=
  [(200, text "OK"), (201, text "Created"), (202, text "Accepted"), (204, text "No Content"),
    (400, text "Bad Request"), (404, text "Not Found"), (405, text "Method Not Allowed"),
    (408, text "Request Timeout"), (409, text "Conflict"), (411, text "Length Required"),
    (413, text "Payload Too Large"), (414, text "URI Too Long"), (429, text "Too Many Requests"),
    (431, text "Request Header Fields Too Large"), (500, text "Internal Server Error"),
    (501, text "Not Implemented"), (503, text "Service Unavailable")]

def httpReason (status : Int) : Bytes :=
  ((reasons.find? fun kv => kv.1 = status).map Prod.snd).getD (text "Unknown")

/-! ### The server -/

namespace HttpServer

/-- The text of a response. -/
def writeResponse (res : HttpResponse) (keepAlive : Bool) : Bytes :=
  text "HTTP/1.1 " ++ num res.status ++ text " " ++ httpReason res.status ++
    text "\r\nContent-Type: " ++ res.contentType ++
    text "\r\nContent-Length: " ++ num res.body.length ++
    text "\r\nConnection: " ++ (if keepAlive then text "keep-alive" else text "close") ++
    text "\r\n" ++ (res.headers.map fun kv => kv.1 ++ text ": " ++ kv.2 ++ text "\r\n").flatten ++
    text "\r\n" ++ res.body

def errorBody (message : Bytes) : Bytes := text "\x7b\"error\":" ++ Json.escape message ++ text "\x7d"

/-- A handler fills a response and may throw, with what it has filled in still there. -/
abbrev Handler := HttpRequest → HttpResponse × Option Bytes

/-- The response to a request that was handed over. -/
def respond (handler : Handler) (req : HttpRequest) : HttpResponse :=
  match handler req with
  | (res, none) => res
  | (res, some what) => { res with status := 500, body := errorBody (text "handler threw: " ++ what) }

/-- The response to a request that could not be parsed. -/
def refuse (p : HttpRequestParser) : HttpResponse :=
  { status := p.errorStatus, body := errorBody (text p.errorMessage) }

/-- Reads until the parser has a verdict; what was not read stays on the socket. The status is `needMore`
where the connection was lost first. -/
def receive (p : HttpRequestParser) : List Recv → HttpStatus × HttpRequestParser × List Recv
  | .data chunk :: reads =>
      match p.feed chunk with
      | (.needMore, p) => receive p reads
      | (status, p) => (status, p, reads)
  | reads => (.needMore, p, reads)

/-- What a connection comes to: the requests handed over, each with the bytes of the response to it, and the
bytes of the refusal that ended it. -/
structure Served where
  handled : List (HttpRequest × Bytes) := []
  refused : Option Bytes := none

/-- `serve_connection`, from the point where `pendingInput` is left over, for at most `rounds` requests. -/
def serveConnection (handler : Handler) : ℕ → Bytes → List Recv → Served
  | 0, _, _ => {}
  | rounds + 1, pendingInput, reads =>
      match receive {} (if pendingInput.isEmpty then reads else .data pendingInput :: reads) with
      | (.needMore, _, _) => {}
      | (.error, p, _) => { refused := some (writeResponse (refuse p) false) }
      | (.complete, p, reads) =>
          let out := writeResponse (respond handler p.req) p.req.keepAlive
          if p.req.keepAlive then
            let later := serveConnection handler rounds p.leftover reads
            { later with handled := (p.req, out) :: later.handled }
          else { handled := [(p.req, out)] }

end HttpServer

/-! ### The client -/

structure HttpClientResponse where
  ok : Bool := false
  status : Int := 0
  body : Bytes := []
  error : String := ""

/-- A call of `HttpClient::request`. -/
structure HttpCall where
  host : Bytes
  port : Int
  method : Bytes
  path : Bytes
  body : Bytes := []
  contentType : Bytes := text "application/json"

namespace HttpClient

/-- The text of a request. -/
def writeRequest (c : HttpCall) : Bytes :=
  c.method ++ text " " ++ c.path ++ text " HTTP/1.1\r\nHost: " ++ c.host ++ text ":" ++ num c.port ++
    text "\r\nConnection: keep-alive\r\n" ++
    (if c.body.isEmpty then [] else text "Content-Type: " ++ c.contentType ++ text "\r\n") ++
    text "Content-Length: " ++ num c.body.length ++ text "\r\n\r\n" ++ c.body

/-- The end of an attempt: another one may be made, or there is an answer, after which the connection is
kept or not. -/
inductive Attempt where
  | transportFailed
  | answered (response : HttpClientResponse) (connected : Bool)

def failed (status : Int) (error : String) : Attempt := .answered { status, error } false

/-- The headers of a response as far as the client reads them. -/
structure ResponseHead where
  contentLength : Int := -1
  serverCloses : Bool := false

def readHeaderLine (h : ResponseHead) (line : Bytes) : ResponseHead :=
  match cut 58 (trim line) with
  | none => h
  | some (name, value) =>
      let name := toLower (trim name)
      let value := trim value
      if name = text "content-length" then { h with contentLength := (parseInt value).getD h.contentLength }
      else if name = text "connection" ∧ toLower value = text "close" then { h with serverCloses := true }
      else h

/-- The status code of a status line. -/
def readStatusLine (line : Bytes) : Except String Int :=
  match cut 32 (trim line) with
  | none => .error "malformed status line"
  | some (_, rest) =>
      let code := match cut 32 rest with
        | none => rest
        | some (code, _) => code
      match parseInt code with
      | none => .error "malformed status code"
      | some v => .ok (toInt32 v)

/-- The loop over the body. -/
def readBody (status : Int) (h : ResponseHead) (payload : Bytes) (reads : List Recv) : Attempt :=
  if h.contentLength ≤ payload.length then
    .answered { ok := true, status, body := payload.take h.contentLength.toNat } (!h.serverCloses)
  else
    match reads with
    | .data chunk :: reads => readBody status h (payload ++ chunk) reads
    | .timeout :: _ => failed status "body read timeout"
    | _ => failed status "connection closed mid-body"

def readHead (head payload : Bytes) (reads : List Recv) : Attempt :=
  match split head lf with
  | [] => failed 0 "empty response"
  | first :: lines =>
      match readStatusLine first with
      | .error e => failed 0 e
      | .ok status =>
          let h := lines.foldl readHeaderLine {}
          if h.contentLength < 0 then failed status "response has no Content-Length"
          else readBody status h payload reads

/-- The loop over the status line and the headers. -/
def readResponse (buffer : Bytes) : List Recv → Attempt
  | .data chunk :: reads =>
      let buffer := buffer ++ chunk
      if 2 ^ 22 < buffer.length then failed 0 "response headers too large"
      else
        match findSub HttpRequestParser.terminator buffer with
        | none => readResponse buffer reads
        | some stop => readHead (buffer.take stop) (buffer.drop (stop + 4)) reads
  | .timeout :: _ => failed 0 "response timeout"
  | _ => .transportFailed

/-- A connection for one attempt: it cannot be made, the request cannot be sent on it, or the request is sent
and something is read. -/
inductive Link where
  | refused (error : String)
  | sendFailed
  | sent (reads : List Recv)

/-- `request`: one transparent retry when the transport fails. -/
def request (first second : Link) : HttpClientResponse × Bool :=
  let again := match second with
    | .refused error => ({ error }, false)
    | .sendFailed => ({ error := "send failed" }, false)
    | .sent reads =>
        match readResponse [] reads with
        | .transportFailed => ({ error := "connection closed before a response was received" }, false)
        | .answered response connected => (response, connected)
  match first with
  | .refused error => ({ error }, false)
  | .sendFailed => again
  | .sent reads =>
      match readResponse [] reads with
      | .transportFailed => again
      | .answered response connected => (response, connected)

end HttpClient

end DistributedJobEngine
