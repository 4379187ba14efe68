import DistributedJobEngine.Text
import Mathlib.Data.List.AList

/-! The incremental request parser of the HTTP server. -/

namespace DistributedJobEngine

open LibText

structure HttpRequest where
  method : Bytes := []
  target : Bytes := []
  path : Bytes := []
  version : Bytes := []
  headers : List (Bytes × Bytes) := []
  query : AList (fun _ : Bytes => Bytes) := ∅
  body : Bytes := []
  keepAlive : Bool := true

/-- A refusal: the status of the response and its message. -/
structure HttpError where
  status : ℕ
  message : String
  deriving DecidableEq, Repr

def iequals (a b : Bytes) : Bool := decide (toLower a = toLower b)

/-- The value of the first header of that name, whatever its case; empty when there is none. -/
def HttpRequest.header (r : HttpRequest) (name : Bytes) : Bytes :=
  ((r.headers.find? fun h => iequals h.1 name).map Prod.snd).getD []

namespace HttpRequestParser

def maxHeaderBytes : ℕ := 16 * 1024

def maxBodyBytes : ℕ := 8 * 1024 * 1024

/-- The blank line after the headers. -/
def terminator : Bytes := [cr, lf, cr, lf]

def malformed : HttpError := ⟨400, "malformed request line"⟩

/-- `METHOD SP TARGET SP VERSION`. -/
def parseRequestLine (line : Bytes) : Except HttpError HttpRequest :=
  match cut 32 (trim line) with
  | none => .error malformed
  | some (method, rest) =>
      match cut 32 rest with
      | none => .error malformed
      | some (target, version) =>
          if method.isEmpty || target.isEmpty then .error malformed
          else if 4096 < target.length then .error ⟨414, "request target too long"⟩
          else if !startsWith version (text "HTTP/1.") then .error ⟨505, "unsupported HTTP version"⟩
          else .ok { method, target, version }

/-- One pair of the query string; an empty one is passed over. -/
def addQuery (query : AList (fun _ : Bytes => Bytes)) (pair : Bytes) : AList (fun _ : Bytes => Bytes) :=
  if pair.isEmpty then query
  else
    match cut 61 pair with
    | none => query.insert (urlDecode pair) []
    | some (key, value) => query.insert (urlDecode key) (urlDecode value)

/-- The target split into path and query string. -/
def parseTarget (r : HttpRequest) : Except HttpError HttpRequest :=
  let r := match cut 63 r.target with
    | none => { r with path := urlDecode r.target }
    | some (path, query) =>
        { r with path := urlDecode path, query := (split query 38).foldl addQuery r.query }
  if r.path.head? = some 47 then .ok r else .error ⟨400, "request path must be absolute"⟩

/-- One line of the header block; a blank one is passed over. -/
def parseHeaderLine (r : HttpRequest) (line : Bytes) : Except HttpError HttpRequest :=
  let line := trim line
  if line.isEmpty then .ok r
  else
    match cut 58 line with
    | none => .error ⟨400, "malformed header line"⟩
    | some (name, value) =>
        if (trim name).isEmpty then .error ⟨400, "empty header name"⟩
        else .ok { r with headers := r.headers ++ [(trim name, trim value)] }

/-- HTTP/1.1 defaults to keep-alive, HTTP/1.0 to close. -/
def setKeepAlive (r : HttpRequest) : HttpRequest :=
  let connection := toLower (r.header (text "Connection"))
  { r with
    keepAlive :=
      if connection = text "close" then false
      else if connection = text "keep-alive" then true
      else decide (r.version = text "HTTP/1.1") }

/-- The length of the body the headers announce. -/
def bodyLength (r : HttpRequest) : Except HttpError ℕ :=
  if !(toLower (r.header (text "Transfer-Encoding"))).isEmpty then
    .error ⟨411, "chunked transfer encoding is not supported; send Content-Length"⟩
  else
    let contentLength := r.header (text "Content-Length")
    if contentLength.isEmpty then .ok 0
    else
      match parseInt contentLength with
      | none => .error ⟨400, "invalid Content-Length"⟩
      | some v =>
          if v < 0 then .error ⟨400, "invalid Content-Length"⟩
          else if maxBodyBytes < v.toNat then .error ⟨413, "body exceeds 8388608 bytes"⟩
          else .ok v.toNat

/-- `parse_headers`, on the bytes before the blank line. -/
def parseHeaders (head : Bytes) : Except HttpError (HttpRequest × ℕ) :=
  match split head lf with
  | [] => .error ⟨400, "empty request"⟩
  | first :: lines => do
      let r ← parseRequestLine first
      let r ← parseTarget r
      let r ← lines.foldlM parseHeaderLine r
      let n ← bodyLength (setKeepAlive r)
      .ok (setKeepAlive r, n)

end HttpRequestParser

inductive HttpStatus where
  | needMore | complete | error
  deriving DecidableEq, Repr

/-- The state of a parser. A parser that has failed is not asked for its request again, so that the request
is left as it was where the source has filled a part of it. -/
structure HttpRequestParser where
  buffer : Bytes := []
  req : HttpRequest := {}
  headersDone : Bool := false
  bodyExpected : ℕ := 0
  bodyStart : ℕ := 0
  consumed : ℕ := 0
  errorStatus : ℕ := 400
  errorMessage : String := ""

namespace HttpRequestParser

def fail (p : HttpRequestParser) (e : HttpError) : HttpStatus × HttpRequestParser :=
  (.error, { p with errorStatus := e.status, errorMessage := e.message })

/-- The last part of `feed`: the body is there or not. -/
def finishBody (p : HttpRequestParser) : HttpStatus × HttpRequestParser :=
  if p.buffer.length - p.bodyStart < p.bodyExpected then (.needMore, p)
  else
    (.complete, { p with
      req := { p.req with body := (p.buffer.drop p.bodyStart).take p.bodyExpected }
      consumed := p.bodyStart + p.bodyExpected })

def feed (p : HttpRequestParser) (data : Bytes) : HttpStatus × HttpRequestParser :=
  let p := { p with buffer := p.buffer ++ data }
  if p.headersDone then p.finishBody
  else
    match findSub terminator p.buffer with
    | none =>
        if maxHeaderBytes < p.buffer.length then p.fail ⟨431, "request headers exceed 16384 bytes"⟩
        else (.needMore, p)
    | some stop =>
        if maxHeaderBytes < stop then p.fail ⟨431, "request headers too large"⟩
        else
          match parseHeaders (p.buffer.take stop) with
          | .error e => fail { p with bodyStart := stop + 4 } e
          | .ok (req, n) =>
              finishBody { p with bodyStart := stop + 4, req, bodyExpected := n, headersDone := true }

/-- Bytes that belong to the next request on the connection. -/
def leftover (p : HttpRequestParser) : Bytes := p.buffer.drop p.consumed

/-- Feeds chunks up to the first verdict. -/
def feedAll (p : HttpRequestParser) : List Bytes → HttpStatus × HttpRequestParser
  | [] => (.needMore, p)
  | chunk :: chunks =>
      match p.feed chunk with
      | (.needMore, p) => feedAll p chunks
      | done => done

end HttpRequestParser

/-- What a caller of the parser learns. -/
inductive HttpVerdict where
  | needMore
  | error (status : ℕ)
  | complete (request : HttpRequest) (consumed : ℕ)

namespace HttpRequestParser

def verdict : HttpStatus × HttpRequestParser → HttpVerdict
  | (.needMore, _) => .needMore
  | (.error, p) => .error p.errorStatus
  | (.complete, p) => .complete p.req p.consumed

end HttpRequestParser

end DistributedJobEngine
