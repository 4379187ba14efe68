import DistributedJobEngine.LibExcept
import DistributedJobEngine.HttpChunks
import DistributedJobEngine.HttpConnection

/-! Requests and responses cross a connection unchanged: the server's loop hands over exactly the requests a
client has written, however they are cut into chunks, and the client reads back the response the server has
written. -/

namespace DistributedJobEngine

open LibText HttpRequestParser

/-! ### Header blocks as both ends write them -/

/-- The lines of a block as `split` returns them. -/
def crLines : Bytes → List Bytes → List Bytes
  | first, [] => [first]
  | first, line :: lines => (first ++ [cr]) :: crLines line lines

theorem split_block {first : Bytes} {lines : List Bytes} (hfirst : lf ∉ first)
    (hlines : ∀ line ∈ lines, lf ∉ line) : split (block first lines) lf = crLines first lines := by
  induction lines generalizing first with
  | nil =>
      rw [block, List.map_nil, List.flatten_nil, List.append_nil, split, List.splitOn_eq_singleton hfirst]
      rfl
  | cons line lines ih =>
      rw [List.forall_mem_cons] at hlines
      have hcr : lf ∉ first ++ [cr] := by
        rw [List.mem_append, not_or]
        exact ⟨hfirst, by decide⟩
      have hblock : block first (line :: lines) = (first ++ [cr]) ++ lf :: block line lines := by
        simp [block, crlf]
      rw [hblock, split, List.splitOn_append_cons_self_of_not_mem hcr, crLines, ← ih hlines.1 hlines.2]
      rfl

theorem trim_cr (s : Bytes) : trim (s ++ [cr]) = trim s := trimBy_concat rfl

/-- A fold that trims the lines does not see the CR at their ends. -/
theorem foldlM_crLines {m : Type → Type} [Monad m] {β : Type} {f : β → Bytes → m β}
    (hf : ∀ b line, f b (line ++ [cr]) = f b line) (first : Bytes) (lines : List Bytes) (b : β) :
    (crLines first lines).foldlM f b = (first :: lines).foldlM f b := by
  induction lines generalizing first b with
  | nil => rfl
  | cons line lines ih =>
      rw [crLines, List.foldlM_cons, List.foldlM_cons, hf]
      exact bind_congr fun b => ih line b

/-- A header line. -/
def headerLine (name value : Bytes) : Bytes := name ++ text ": " ++ value

def headerLines (fields : List (Bytes × Bytes)) : List Bytes := fields.map fun kv => headerLine kv.1 kv.2

/-- What the name of a header looks like. -/
structure FieldName (name : Bytes) : Prop where
  ne_nil : name ≠ []
  tight : Tight isSpace name
  noColon : 58 ∉ name
  noCr : cr ∉ name
  noLf : lf ∉ name

theorem cut_headerLine {name : Bytes} (h : FieldName name) (value : Bytes) :
    cut 58 (trim (headerLine name value)) = some (name, (32 :: value).rdropWhile isSpace) := by
  have hline : headerLine name value = name ++ 58 :: 32 :: value := by
    rw [headerLine, List.append_assoc]
    rfl
  obtain ⟨c, rest, hname⟩ := List.exists_cons_of_ne_nil h.ne_nil
  have hc : isSpace c = false := h.tight.1 c (by rw [hname]; rfl)
  have htrim : trim (headerLine name value) = name ++ 58 :: (32 :: value).rdropWhile isSpace := by
    rw [hline, trim, trimBy]
    rw [show (name ++ 58 :: 32 :: value).dropWhile isSpace = name ++ 58 :: 32 :: value by
      rw [hname, List.cons_append, List.dropWhile_cons_of_neg (by simp [hc])]]
    exact rdropWhile_append_cons (by decide)
  rw [htrim, cut_append h.noColon]

theorem trim_value (value : Bytes) : trim ((32 :: value).rdropWhile isSpace) = trim value := by
  rw [trim, trimBy_rdropWhile, trimBy_cons (by decide), trim]

theorem parseHeaderLine_headerLine {name : Bytes} (h : FieldName name) (value : Bytes) (r : HttpRequest) :
    parseHeaderLine r (headerLine name value) = .ok { r with headers := r.headers ++ [(name, trim value)] } := by
  have hcut := cut_headerLine h value
  have hline : (trim (headerLine name value)).isEmpty = false := by
    rw [List.isEmpty_eq_false_iff]
    intro hnil
    rw [hnil] at hcut
    cases hcut
  have hname : trim name = name := trimBy_of_tight h.tight
  have hne : name.isEmpty = false := List.isEmpty_eq_false_iff.mpr h.ne_nil
  unfold parseHeaderLine
  simp only [hline, hcut, hname, hne, trim_value, Bool.false_eq_true, if_false]

theorem foldlM_headerLines {fields : List (Bytes × Bytes)} (h : ∀ kv ∈ fields, FieldName kv.1) (r : HttpRequest) :
    (headerLines fields).foldlM parseHeaderLine r =
      .ok { r with headers := r.headers ++ fields.map fun kv => (kv.1, trim kv.2) } := by
  induction fields generalizing r with
  | nil => simp [headerLines, pure, Except.pure]
  | cons kv fields ih =>
      rw [List.forall_mem_cons] at h
      rw [headerLines, List.map_cons, List.foldlM_cons, parseHeaderLine_headerLine h.1]
      refine (ih h.2 _).trans ?_
      simp

theorem readHeaderLine_headerLine {name : Bytes} (h : FieldName name) (value : Bytes)
    (head : HttpClient.ResponseHead) :
    HttpClient.readHeaderLine head (headerLine name value) =
      if toLower name = text "content-length" then
        { head with contentLength := (parseInt (trim value)).getD head.contentLength }
      else if toLower name = text "connection" ∧ toLower (trim value) = text "close" then
        { head with serverCloses := true }
      else head := by
  have hname : trim name = name := trimBy_of_tight h.tight
  unfold HttpClient.readHeaderLine
  rw [cut_headerLine h value]
  simp only [hname, trim_value]

/-- Header lines can be found again: they are not empty and have no CR. -/
theorem headerLines_clean {fields : List (Bytes × Bytes)}
    (h : ∀ kv ∈ fields, FieldName kv.1 ∧ cr ∉ kv.2 ∧ lf ∉ kv.2) :
    ∀ line ∈ headerLines fields, line ≠ [] ∧ cr ∉ line ∧ lf ∉ line := by
  intro line hline
  obtain ⟨kv, hkv, rfl⟩ := List.mem_map.mp hline
  obtain ⟨hname, hcr, hlf⟩ := h kv hkv
  refine ⟨?_, ?_, ?_⟩
  · exact List.append_ne_nil_of_left_ne_nil (List.append_ne_nil_of_left_ne_nil hname.ne_nil _) _
  · rw [headerLine, List.mem_append, List.mem_append, not_or, not_or]
    exact ⟨⟨hname.noCr, by decide⟩, hcr⟩
  · rw [headerLine, List.mem_append, List.mem_append, not_or, not_or]
    exact ⟨⟨hname.noLf, by decide⟩, hlf⟩

theorem mem_num {v : Int} {c : UInt8} (h : c ∈ num v) : isDigit c = true ∨ c = 45 := by
  unfold num at h
  split at h
  · rcases List.mem_cons.mp h with h | h
    · exact Or.inr h
    · exact Or.inl (isDigit_of_mem_decimal c h)
  · exact Or.inl (isDigit_of_mem_decimal c h)

theorem num_clean (v : Int) : cr ∉ num v ∧ lf ∉ num v := by
  refine ⟨fun h => ?_, fun h => ?_⟩
  · rcases mem_num h with h | h <;> exact absurd h (by decide)
  · rcases mem_num h with h | h <;> exact absurd h (by decide)

theorem length_num_le {v : Int} (h : v.natAbs ≤ int64Max) : (num v).length ≤ 20 := by
  have hdecimal := length_decimal_le (n := v.natAbs) (k := 18) (by unfold int64Max at h; omega)
  unfold num
  split
  · rw [List.length_cons]
    omega
  · omega

theorem trim_num (v : Int) : trim (num v) = num v := trimBy_of_tight (tight_num v)

/-- The names of the headers that both ends write. -/
theorem fieldName_of_mem {name : Bytes}
    (h : name ∈ [text "Host", text "Connection", text "Content-Type", text "Content-Length"]) : FieldName name := by
  simp only [List.mem_cons, List.not_mem_nil, or_false] at h
  rcases h with rfl | rfl | rfl | rfl
  all_goals exact ⟨by decide, by unfold Tight; decide +kernel, by decide, by decide, by decide⟩

/-! ### A request -/

namespace HttpCall

def requestLine (c : HttpCall) : Bytes := c.method ++ 32 :: (c.path ++ 32 :: text "HTTP/1.1")

/-- The headers of a request. -/
def fields (c : HttpCall) : List (Bytes × Bytes) :=
  [(text "Host", c.host ++ text ":" ++ num c.port), (text "Connection", text "keep-alive")] ++
    (if c.body.isEmpty then [] else [(text "Content-Type", c.contentType)]) ++
    [(text "Content-Length", num c.body.length)]

/-- The limits of the server, and nothing in the request line or the host that could end it. -/
structure Framed (c : HttpCall) : Prop where
  method_ne : c.method ≠ []
  method_clean : 32 ∉ c.method ∧ cr ∉ c.method ∧ lf ∉ c.method
  path_absolute : c.path.head? = some 47
  path_clean : 32 ∉ c.path ∧ cr ∉ c.path ∧ lf ∉ c.path
  path_length : c.path.length ≤ 4096
  host_clean : cr ∉ c.host ∧ lf ∉ c.host
  head_length : (HttpClient.writeRequest c).length ≤ maxHeaderBytes + c.body.length
  body_length : c.body.length ≤ maxBodyBytes

/-- A request that can cross the wire: the method does not start with a tab, which the server would trim, and
the content type cannot end its header line. -/
structure Valid (c : HttpCall) : Prop extends Framed c where
  method_tab : c.method.head? ≠ some 9
  type_clean : cr ∉ c.contentType ∧ lf ∉ c.contentType

variable {c : HttpCall}

theorem writeRequest_eq (c : HttpCall) :
    HttpClient.writeRequest c = block c.requestLine (headerLines c.fields) ++ (terminator ++ c.body) := by
  have hhost : text " HTTP/1.1\r\nHost: " = 32 :: text "HTTP/1.1" ++ crlf ++ text "Host" ++ text ": " := by decide
  have hconnection : text "\r\nConnection: keep-alive\r\n" =
      crlf ++ (text "Connection" ++ (text ": " ++ text "keep-alive")) ++ crlf := by decide
  have htype : text "Content-Type: " = text "Content-Type" ++ text ": " := by decide
  have hlength : text "Content-Length: " = text "Content-Length" ++ text ": " := by decide
  have hcrlf : text "\r\n" = crlf := by decide
  have hblank : text "\r\n\r\n" = terminator := by decide
  have hspace : text " " = [32] := by decide
  unfold HttpClient.writeRequest block fields requestLine headerLines headerLine
  rw [hhost, hconnection, htype, hlength, hcrlf, hblank, hspace]
  by_cases hbody : c.body.isEmpty
  · simp [hbody]
  · simp [hbody]

theorem tight_requestLine (h : c.Valid) : Tight isSpace c.requestLine := by
  constructor
  · intro x hx
    obtain ⟨y, rest, hmethod⟩ := List.exists_cons_of_ne_nil h.method_ne
    rw [requestLine, hmethod, List.cons_append, List.head?_cons, Option.mem_some_iff] at hx
    subst hx
    have hmem : y ∈ c.method := by
      rw [hmethod]
      exact List.mem_cons_self
    have htab : y ≠ 9 := fun heq => h.method_tab (by rw [hmethod, heq]; rfl)
    obtain ⟨hspace, hcr, hlf⟩ := h.method_clean
    simp only [isSpace, Bool.or_eq_false_iff, beq_eq_false_iff_ne]
    have hne : ∀ b, b ∉ c.method → y ≠ b := fun b hb heq => hb (heq ▸ hmem)
    exact ⟨⟨⟨hne 32 hspace, htab⟩, hne cr hcr⟩, hne lf hlf⟩
  · intro x hx
    have hlast : c.requestLine = (c.method ++ 32 :: (c.path ++ 32 :: text "HTTP/1.")) ++ [49] := by
      have hversion : text "HTTP/1.1" = text "HTTP/1." ++ [49] := by decide
      simp [requestLine, hversion]
    rw [hlast, List.getLast?_concat, Option.mem_some_iff] at hx
    subst hx
    decide

theorem parseRequestLine_requestLine (h : c.Valid) :
    parseRequestLine c.requestLine =
      .ok { method := c.method, target := c.path, version := text "HTTP/1.1" } := by
  have hmethod : c.method.isEmpty = false := List.isEmpty_eq_false_iff.mpr h.method_ne
  have hpath : c.path.isEmpty = false := by
    rw [List.isEmpty_eq_false_iff]
    intro hnil
    have habsolute := h.path_absolute
    rw [hnil] at habsolute
    cases habsolute
  have hversion : startsWith (text "HTTP/1.1") (text "HTTP/1.") = true := by decide
  unfold parseRequestLine
  rw [trim, trimBy_of_tight (tight_requestLine h), requestLine, cut_append h.method_clean.1]
  simp only
  rw [cut_append h.path_clean.1]
  simp only [hmethod, hpath, hversion, Nat.not_lt.mpr h.path_length, Bool.or_self, Bool.false_eq_true, if_false,
    Bool.not_true]

theorem head_urlDecode (s : Bytes) : (urlDecode (47 :: s)).head? = some 47 := by
  match s with
  | [] => rfl
  | [a] => rfl
  | a :: b :: s => rw [urlDecode]; rfl

/-- An absolute target has an absolute path. -/
theorem parseTarget_ok {r : HttpRequest} (h : r.target.head? = some 47) :
    ∃ path query, parseTarget r = .ok { r with path, query } := by
  obtain ⟨s, hs⟩ : ∃ s, r.target = 47 :: s := by
    cases htarget : r.target with
    | nil =>
        rw [htarget] at h
        cases h
    | cons x s =>
        rw [htarget, List.head?_cons, Option.some.injEq] at h
        exact ⟨s, by rw [h]⟩
  unfold parseTarget
  cases hcut : cut 63 r.target with
  | none =>
      refine ⟨urlDecode r.target, r.query, ?_⟩
      simp only [hs, head_urlDecode, if_true]
  | some parts =>
      obtain ⟨path, query⟩ := parts
      obtain ⟨htarget, -⟩ := cut_eq_some.mp hcut
      have hpath : ∃ t, path = 47 :: t := by
        cases path with
        | nil =>
            rw [hs] at htarget
            cases htarget
        | cons x t =>
            rw [hs] at htarget
            cases htarget
            exact ⟨t, rfl⟩
      obtain ⟨t, rfl⟩ := hpath
      refine ⟨urlDecode (47 :: t), (split query 38).foldl addQuery r.query, ?_⟩
      simp only [head_urlDecode, if_true]

theorem fields_clean (h : c.Valid) : ∀ kv ∈ c.fields, FieldName kv.1 ∧ cr ∉ kv.2 ∧ lf ∉ kv.2 := by
  intro kv hkv
  have hport := num_clean c.port
  have hlength := num_clean c.body.length
  simp only [fields, List.mem_append, List.mem_cons, List.not_mem_nil, or_false] at hkv
  rcases hkv with ((rfl | rfl) | hkv) | rfl
  · refine ⟨fieldName_of_mem (by simp), ?_, ?_⟩
    · simp only [List.mem_append, not_or]
      exact ⟨⟨h.host_clean.1, by decide⟩, hport.1⟩
    · simp only [List.mem_append, not_or]
      exact ⟨⟨h.host_clean.2, by decide⟩, hport.2⟩
  · exact ⟨fieldName_of_mem (by simp), by decide, by decide⟩
  · split at hkv
    · cases hkv
    · rw [List.mem_singleton] at hkv
      subst hkv
      exact ⟨fieldName_of_mem (by simp), h.type_clean⟩
  · exact ⟨fieldName_of_mem (by simp), hlength⟩

/-- A request as it is parsed, before its body is there. -/
def parsed (c : HttpCall) (path : Bytes) (query : AList (fun _ : Bytes => Bytes)) : HttpRequest where
  method := c.method
  target := c.path
  path := path
  version := text "HTTP/1.1"
  headers := c.fields.map fun kv => (kv.1, trim kv.2)
  query := query

/-- What the parser looks up in the headers of a request. -/
theorem header_parsed (c : HttpCall) (path : Bytes) (query : AList (fun _ : Bytes => Bytes)) :
    (c.parsed path query).header (text "Connection") = text "keep-alive" ∧
      (c.parsed path query).header (text "Transfer-Encoding") = [] ∧
      (c.parsed path query).header (text "Content-Length") = num c.body.length := by
  have hiequals : iequals (text "Host") (text "Connection") = false ∧
      iequals (text "Connection") (text "Connection") = true ∧
      iequals (text "Host") (text "Transfer-Encoding") = false ∧
      iequals (text "Connection") (text "Transfer-Encoding") = false ∧
      iequals (text "Content-Type") (text "Transfer-Encoding") = false ∧
      iequals (text "Content-Length") (text "Transfer-Encoding") = false ∧
      iequals (text "Host") (text "Content-Length") = false ∧
      iequals (text "Connection") (text "Content-Length") = false ∧
      iequals (text "Content-Type") (text "Content-Length") = false ∧
      iequals (text "Content-Length") (text "Content-Length") = true := by decide
  have hkeep : trim (text "keep-alive") = text "keep-alive" := by decide
  unfold HttpRequest.header
  rw [parsed, fields]
  by_cases hbody : c.body.isEmpty
  · simp [hbody, hiequals, hkeep, trim_num]
  · simp [hbody, hiequals, hkeep, trim_num]

theorem setKeepAlive_parsed (c : HttpCall) (path : Bytes) (query : AList (fun _ : Bytes => Bytes)) :
    setKeepAlive (c.parsed path query) = c.parsed path query := by
  have hkeep : toLower (text "keep-alive") ≠ text "close" ∧ toLower (text "keep-alive") = text "keep-alive" := by
    decide
  unfold setKeepAlive
  rw [(header_parsed c path query).1]
  simp only [if_neg hkeep.1, if_pos hkeep.2]
  rfl

theorem bodyLength_parsed (h : c.Valid) (path : Bytes) (query : AList (fun _ : Bytes => Bytes)) :
    bodyLength (c.parsed path query) = .ok c.body.length := by
  obtain ⟨-, hencoding, hlength⟩ := header_parsed c path query
  have hfits : (c.body.length : Int).natAbs ≤ int64Max := by
    have hmax : maxBodyBytes ≤ int64Max := by decide
    have hle := h.body_length
    omega
  have hne : (num (c.body.length : Int)).isEmpty = false := by
    rw [List.isEmpty_eq_false_iff]
    intro hnil
    have hparse := parseInt_num hfits
    rw [hnil] at hparse
    cases hparse
  unfold bodyLength
  rw [hencoding, hlength]
  simp only [hne, parseInt_num hfits]
  simp [toLower, Nat.not_lt.mpr h.body_length]

/-- **A request that was written is parsed.** -/
theorem parseHeaders_call (h : c.Valid) :
    ∃ path query, parseHeaders (block c.requestLine (headerLines c.fields)) =
      .ok (c.parsed path query, c.body.length) := by
  have hfirst : lf ∉ c.requestLine := by
    simp only [requestLine, List.mem_append, List.mem_cons, not_or]
    exact ⟨h.method_clean.2.2, by decide, h.path_clean.2.2, by decide, by decide⟩
  have hclean := headerLines_clean (fields_clean h)
  obtain ⟨line, lines, hlines⟩ : ∃ line lines, headerLines c.fields = line :: lines := ⟨_, _, rfl⟩
  have hrequest : parseRequestLine (c.requestLine ++ [cr]) = parseRequestLine c.requestLine := by
    unfold parseRequestLine
    rw [trim_cr]
  have hheader : ∀ r l, parseHeaderLine r (l ++ [cr]) = parseHeaderLine r l := by
    intro r l
    unfold parseHeaderLine
    rw [trim_cr]
  obtain ⟨path, query, htarget⟩ := parseTarget_ok
    (r := { method := c.method, target := c.path, version := text "HTTP/1.1" }) h.path_absolute
  have hfold := foldlM_headerLines (fun kv hkv => (fields_clean h kv hkv).1)
    { method := c.method, target := c.path, version := text "HTTP/1.1", path, query }
  refine ⟨path, query, ?_⟩
  unfold parseHeaders
  rw [split_block hfirst fun l hl => (hclean l hl).2.2, hlines, crLines]
  simp only
  rw [hrequest, parseRequestLine_requestLine h]
  simp only [bind, Except.bind, htarget]
  rw [foldlM_crLines hheader, ← hlines, hfold]
  simp only
  rw [show ({ method := c.method, target := c.path, version := text "HTTP/1.1", path, query
              headers := [] ++ c.fields.map fun kv => (kv.1, trim kv.2) } : HttpRequest) =
                c.parsed path query from rfl,
    setKeepAlive_parsed, bodyLength_parsed h]

theorem length_writeRequest (c : HttpCall) :
    (HttpClient.writeRequest c).length = (block c.requestLine (headerLines c.fields)).length + 4 + c.body.length := by
  rw [writeRequest_eq, List.length_append, List.length_append, Nat.add_assoc]
  rfl

theorem findSub_call (h : c.Valid) (rest : Bytes) :
    findSub terminator (HttpClient.writeRequest c ++ rest) =
      some (block c.requestLine (headerLines c.fields)).length := by
  have hfirst : cr ∉ c.requestLine := by
    simp only [requestLine, List.mem_append, List.mem_cons, not_or]
    exact ⟨h.method_clean.2.1, by decide, h.path_clean.2.1, by decide, by decide⟩
  have hclean := headerLines_clean (fields_clean h)
  rw [writeRequest_eq, List.append_assoc, List.append_assoc]
  exact findSub_block hfirst (fun l hl => ⟨(hclean l hl).1, (hclean l hl).2.1⟩) (c.body ++ rest)

/-- The verdict on a stream that begins with a request: the request, all of it, and nothing more. -/
theorem verdictOf_call (h : c.Valid) :
    ∃ path query, ∀ rest, verdictOf (HttpClient.writeRequest c ++ rest) =
      .complete { c.parsed path query with body := c.body } (HttpClient.writeRequest c).length := by
  obtain ⟨path, query, hparse⟩ := parseHeaders_call h
  refine ⟨path, query, fun rest => ?_⟩
  have hlength := length_writeRequest c
  have hstop : (block c.requestLine (headerLines c.fields)).length ≤ maxHeaderBytes := by
    have hhead := h.head_length
    omega
  have htake : (HttpClient.writeRequest c ++ rest).take (block c.requestLine (headerLines c.fields)).length =
      block c.requestLine (headerLines c.fields) := by
    rw [writeRequest_eq, List.append_assoc, List.take_left]
  have hdrop : (HttpClient.writeRequest c ++ rest).drop ((block c.requestLine (headerLines c.fields)).length + 4) =
      c.body ++ rest := by
    rw [writeRequest_eq, List.append_assoc, ← List.drop_drop, List.drop_left, List.append_assoc]
    rfl
  rw [verdictOf_eq, findSub_call h rest]
  simp only
  rw [headVerdict_of_ok hstop (by rw [htake]; exact hparse), bodyVerdict, hdrop, List.take_left, if_neg, hlength]
  rw [List.length_append]
  omega

end HttpCall

/-! ### The server's loop -/

namespace HttpServer

theorem buffer_finishBody (p : HttpRequestParser) : p.finishBody.2.buffer = p.buffer := by
  unfold finishBody
  split <;> rfl

theorem buffer_feed (p : HttpRequestParser) (d : Bytes) : (p.feed d).2.buffer = p.buffer ++ d := by
  unfold feed
  dsimp only
  split
  · exact buffer_finishBody _
  · split
    · split <;> rfl
    · split
      · rfl
      · split
        · rfl
        · exact buffer_finishBody _

/-- A verdict that falls before all chunks are read is the one on the whole stream: the blank line ends within
the header limit, so that no chunk can end late. -/
theorem verdictOf_call_early {c : HttpCall} (h : c.Valid) {s rest : Bytes} {chunks : List Bytes}
    (hstream : s ++ chunks.flatten = HttpClient.writeRequest c ++ rest) (hfinal : verdictOf s ≠ .needMore) :
    verdictOf s = verdictOf (HttpClient.writeRequest c ++ rest) := by
  rw [← hstream]
  refine (verdictOf_eq_iff hfinal chunks).mpr ?_
  rintro ⟨n, stop, hfind, -, hlong, hinside⟩
  rw [hstream, HttpCall.findSub_call h, Option.some.injEq] at hfind
  have hlength := HttpCall.length_writeRequest c
  have hhead := h.head_length
  omega

/-- Where a verdict hands over a request, the headers before the blank line have announced its body. -/
theorem verdictOf_complete {s : Bytes} {req : HttpRequest} {n : ℕ} (h : verdictOf s = .complete req n) :
    ∃ stop r len, findSub terminator s = some stop ∧ parseHeaders (s.take stop) = .ok (r, len) ∧
      len ≤ s.length - (stop + 4) ∧ req = { r with body := (s.drop (stop + 4)).take len } ∧
      n = stop + 4 + len := by
  rw [verdictOf_eq] at h
  cases hfind : findSub terminator s with
  | none =>
      rw [hfind] at h
      simp only at h
      split at h <;> cases h
  | some stop =>
      rw [hfind] at h
      simp only [headVerdict] at h
      split at h
      · cases h
      · cases hparse : parseHeaders (s.take stop) with
        | error e =>
            rw [hparse] at h
            cases h
        | ok r =>
            rw [hparse] at h
            simp only [bodyVerdict] at h
            split at h
            · cases h
            · next hlen =>
              cases h
              exact ⟨stop, r.1, r.2, rfl, hparse, Nat.le_of_not_lt hlen, rfl, rfl⟩

theorem consumed_le {s : Bytes} {req : HttpRequest} {n : ℕ} (h : verdictOf s = .complete req n) : n ≤ s.length := by
  obtain ⟨stop, -, len, hfind, -, hlen, -, rfl⟩ := verdictOf_complete h
  have hlength := findSub_length hfind
  have hfour : terminator.length = 4 := rfl
  omega

theorem bodyLength_le {r : HttpRequest} {n : ℕ} (h : bodyLength r = .ok n) : n ≤ maxBodyBytes := by
  unfold bodyLength at h
  dsimp only at h
  split at h
  · cases h
  · split at h
    · cases h
      exact Nat.zero_le _
    · split at h
      · cases h
      · split at h
        · cases h
        · split at h
          · cases h
          · next hle =>
            cases h
            exact Nat.le_of_not_lt hle

/-- **The limit on bodies.** No request with a longer body is handed over. -/
theorem body_le_of_complete {s : Bytes} {req : HttpRequest} {n : ℕ} (h : verdictOf s = .complete req n) :
    req.body.length ≤ maxBodyBytes := by
  obtain ⟨stop, r, len, -, hparse, -, rfl, -⟩ := verdictOf_complete h
  have hlen : len ≤ maxBodyBytes := by
    unfold parseHeaders at hparse
    split at hparse
    · cases hparse
    · obtain ⟨_, -, hparse⟩ := LibExcept.bind_eq_ok.mp hparse
      obtain ⟨_, -, hparse⟩ := LibExcept.bind_eq_ok.mp hparse
      obtain ⟨r', -, hparse⟩ := LibExcept.bind_eq_ok.mp hparse
      obtain ⟨n', hbody, hparse⟩ := LibExcept.bind_eq_ok.mp hparse
      cases hparse
      exact bodyLength_le hbody
  exact (List.length_take_le _ _).trans hlen

/-- Reading stops with the request at the front of the stream, whatever the chunks are; what follows it is
left over or still on the socket. -/
theorem receive_call {c : HttpCall} (h : c.Valid) (rest : Bytes) :
    ∃ path query, ∀ (chunks : List Bytes) (p : HttpRequestParser) (s : Bytes), Fed p s →
      s ++ chunks.flatten = HttpClient.writeRequest c ++ rest →
      ∃ (p' : HttpRequestParser) (later : List Bytes),
        receive p (chunks.map .data) = (.complete, p', later.map .data) ∧
        p'.req = { c.parsed path query with body := c.body } ∧ p'.leftover ++ later.flatten = rest := by
  obtain ⟨path, query, hverdict⟩ := HttpCall.verdictOf_call h
  refine ⟨path, query, fun chunks => ?_⟩
  induction chunks with
  | nil =>
      intro p s hfed hstream
      rw [List.flatten_nil, List.append_nil] at hstream
      have hwaits := hfed.waits
      rw [hstream, hverdict] at hwaits
      cases hwaits
  | cons chunk chunks ih =>
      intro p s hfed hstream
      rw [List.flatten_cons, ← List.append_assoc] at hstream
      rw [List.map_cons, receive]
      have hfeed := hfed.verdict_feed chunk
      have hfinal (hne : (p.feed chunk).1 ≠ .needMore) : verdictOf (s ++ chunk) =
          .complete { c.parsed path query with body := c.body } (HttpClient.writeRequest c).length := by
        rw [verdictOf_call_early h hstream, hverdict]
        rw [← hfeed]
        exact fun hwaits => hne (verdict_eq_needMore.mp hwaits)
      cases hstatus : (p.feed chunk).1 with
      | needMore =>
          rw [show p.feed chunk = (.needMore, (p.feed chunk).2) from Prod.ext hstatus rfl]
          exact ih _ _ (hfed.next hstatus) hstream
      | complete =>
          have hwhole := hfinal (by simp [hstatus])
          have hread := consumed_le hwhole
          rw [hwhole, show p.feed chunk = (.complete, (p.feed chunk).2) from Prod.ext hstatus rfl] at hfeed
          simp only [verdict, HttpVerdict.complete.injEq] at hfeed
          rw [show p.feed chunk = (.complete, (p.feed chunk).2) from Prod.ext hstatus rfl]
          refine ⟨_, chunks, rfl, hfeed.1, ?_⟩
          rw [leftover, hfeed.2, buffer_feed, hfed.buffer, ← List.drop_append_of_le_length hread, hstream,
            List.drop_left]
      | error =>
          rw [hfinal (by simp [hstatus]),
            show p.feed chunk = (.error, (p.feed chunk).2) from Prod.ext hstatus rfl] at hfeed
          cases hfeed

/-- Nothing comes of a stream that ends. -/
theorem receive_nothing {chunks : List Bytes} (h : chunks.flatten = []) {p : HttpRequestParser} {s : Bytes}
    (hfed : Fed p s) : (receive p (chunks.map .data)).1 = .needMore := by
  induction chunks generalizing p s with
  | nil => rfl
  | cons chunk chunks ih =>
      rw [List.flatten_cons, List.append_eq_nil_iff] at h
      have hstatus : (p.feed chunk).1 = .needMore := by
        rw [← verdict_eq_needMore, hfed.verdict_feed, h.1, List.append_nil]
        exact hfed.waits
      rw [List.map_cons, receive, show p.feed chunk = (.needMore, (p.feed chunk).2) from Prod.ext hstatus rfl]
      exact ih h.2 (hfed.next hstatus)

/-- What the handler is given of a request. -/
def essence (req : HttpRequest) : Bytes × Bytes × Bytes := (req.method, req.target, req.body)

/-- **The loop hands over the requests of a stream**, from any cut between what is left over and what is still
on the socket. -/
theorem serveConnection_calls (handler : Handler) {calls : List HttpCall} (hvalid : ∀ c ∈ calls, c.Valid)
    {rounds : ℕ} (hrounds : calls.length ≤ rounds) {pendingInput : Bytes} {chunks : List Bytes}
    (hstream : pendingInput ++ chunks.flatten = (calls.map HttpClient.writeRequest).flatten) :
    (serveConnection handler rounds pendingInput (chunks.map .data)).handled.map (fun x => essence x.1) =
        calls.map (fun c => (c.method, c.path, c.body)) ∧
      (serveConnection handler rounds pendingInput (chunks.map .data)).refused = none := by
  induction calls generalizing rounds pendingInput chunks with
  | nil =>
      rw [List.map_nil, List.flatten_nil, List.append_eq_nil_iff] at hstream
      cases rounds with
      | zero => exact ⟨rfl, rfl⟩
      | succ rounds =>
          have hnothing := receive_nothing hstream.2 fed_nil
          rw [serveConnection, hstream.1, List.isEmpty_nil, if_pos rfl]
          obtain ⟨p, later, hreceive⟩ : ∃ p later, receive {} (chunks.map .data) = (.needMore, p, later) :=
            ⟨_, _, Prod.ext hnothing rfl⟩
          rw [hreceive]
          exact ⟨rfl, rfl⟩
  | cons c calls ih =>
      cases rounds with
      | zero => exact absurd hrounds (by simp)
      | succ rounds =>
          rw [List.forall_mem_cons] at hvalid
          rw [List.map_cons, List.flatten_cons] at hstream
          obtain ⟨path, query, hreceive⟩ := receive_call hvalid.1 (calls.map HttpClient.writeRequest).flatten
          have hreads : (if pendingInput.isEmpty then chunks.map .data else .data pendingInput :: chunks.map .data) =
              (if pendingInput.isEmpty then chunks else pendingInput :: chunks).map Recv.data := by
            split <;> rfl
          have hflatten : [] ++ (if pendingInput.isEmpty then chunks else pendingInput :: chunks).flatten =
              HttpClient.writeRequest c ++ (calls.map HttpClient.writeRequest).flatten := by
            rw [← hstream, List.nil_append]
            split
            · next hempty => rw [List.isEmpty_iff.mp hempty, List.nil_append]
            · rfl
          obtain ⟨p, later, hcomplete, hreq, hrest⟩ := hreceive _ _ _ fed_nil hflatten
          obtain ⟨hhandled, hrefused⟩ := ih hvalid.2 (Nat.le_of_succ_le_succ hrounds) hrest
          have hkeep : p.req.keepAlive = true := by rw [hreq]; rfl
          rw [serveConnection, hreads, hcomplete]
          simp only [hkeep, if_true, List.map_cons, hhandled, hrefused, and_true]
          rw [hreq]
          rfl

/-- A request that reading stops with is the verdict on what was read. -/
theorem verdictOf_of_receive {reads later : List Recv} {p p' : HttpRequestParser} {s : Bytes} (hfed : Fed p s)
    (h : receive p reads = (.complete, p', later)) : ∃ t n, verdictOf t = .complete p'.req n := by
  induction reads generalizing p s with
  | nil => cases h
  | cons read reads ih =>
      cases read with
      | data chunk =>
          rw [receive] at h
          have hfeed := hfed.verdict_feed chunk
          cases hstatus : (p.feed chunk).1 with
          | needMore =>
              rw [show p.feed chunk = (.needMore, (p.feed chunk).2) from Prod.ext hstatus rfl] at h
              exact ih (hfed.next hstatus) h
          | complete =>
              rw [show p.feed chunk = (.complete, (p.feed chunk).2) from Prod.ext hstatus rfl] at h hfeed
              cases h
              exact ⟨_, _, hfeed.symm⟩
          | error =>
              rw [show p.feed chunk = (.error, (p.feed chunk).2) from Prod.ext hstatus rfl] at h
              cases h
      | timeout => cases h
      | closed => cases h

/-- **The handler never sees a body beyond the limit**, whatever is read from a connection. -/
theorem body_le_of_handled (handler : Handler) {rounds : ℕ} {pendingInput : Bytes} {reads : List Recv} :
    ∀ x ∈ (serveConnection handler rounds pendingInput reads).handled, x.1.body.length ≤ maxBodyBytes := by
  induction rounds generalizing pendingInput reads with
  | zero => simp [serveConnection]
  | succ rounds ih =>
      rw [serveConnection]
      split
      · simp
      · simp
      · next p later hreceive =>
        obtain ⟨t, n, hverdict⟩ := verdictOf_of_receive fed_nil hreceive
        dsimp only
        split
        · rw [List.forall_mem_cons]
          exact ⟨body_le_of_complete hverdict, ih⟩
        · rw [List.forall_mem_singleton]
          exact body_le_of_complete hverdict

end HttpServer

/-! ### A response -/

/-- A response as handlers make them: both setters, no further headers. -/
structure HttpResponse.Plain (res : HttpResponse) : Prop where
  made : res = HttpResponse.json {} res.status res.body ∨ res = HttpResponse.text {} res.status res.body
  status : -2 ^ 31 ≤ res.status ∧ res.status < 2 ^ 31
  body : res.body.length ≤ int64Max

namespace HttpServer

variable {res : HttpResponse} {keepAlive : Bool}

def statusLine (res : HttpResponse) : Bytes :=
  text "HTTP/1.1" ++ 32 :: (num res.status ++ 32 :: httpReason res.status)

def responseFields (res : HttpResponse) (keepAlive : Bool) : List (Bytes × Bytes) :=
  [(text "Content-Type", res.contentType), (text "Content-Length", num res.body.length),
    (text "Connection", if keepAlive then text "keep-alive" else text "close")]

theorem writeResponse_eq (h : res.headers = []) (keepAlive : Bool) :
    writeResponse res keepAlive =
      block (statusLine res) (headerLines (responseFields res keepAlive)) ++ (terminator ++ res.body) := by
  have hversion : text "HTTP/1.1 " = text "HTTP/1.1" ++ [32] := by decide
  have htype : text "\r\nContent-Type: " = crlf ++ (text "Content-Type" ++ text ": ") := by decide
  have hlength : text "\r\nContent-Length: " = crlf ++ (text "Content-Length" ++ text ": ") := by decide
  have hconnection : text "\r\nConnection: " = crlf ++ (text "Connection" ++ text ": ") := by decide
  have hcrlf : text "\r\n" = crlf := by decide
  have hblank : terminator = crlf ++ crlf := by decide
  have hspace : text " " = [32] := by decide
  unfold writeResponse block responseFields statusLine headerLines headerLine
  rw [hversion, htype, hlength, hconnection, hcrlf, hblank, hspace, h]
  simp

/-- The reason phrases. -/
theorem httpReason_spec (status : Int) :
    cr ∉ httpReason status ∧ lf ∉ httpReason status ∧ (httpReason status).length ≤ 31 ∧
      httpReason status ≠ [] ∧ ∀ x ∈ (httpReason status).getLast?, isSpace x = false := by
  have hreasons : ∀ kv ∈ reasons, cr ∉ kv.2 ∧ lf ∉ kv.2 ∧ kv.2.length ≤ 31 ∧ kv.2 ≠ [] ∧
      ∀ x ∈ kv.2.getLast?, isSpace x = false := by
    decide +kernel
  unfold httpReason
  cases hfind : reasons.find? fun kv => kv.1 = status with
  | none => decide +kernel
  | some kv => exact hreasons kv (List.mem_of_find?_eq_some hfind)

theorem contentType_spec (h : res.Plain) :
    cr ∉ res.contentType ∧ lf ∉ res.contentType ∧ res.contentType.length ≤ 25 := by
  have htype : res.contentType = text "application/json" ∨ res.contentType = text "text/plain; charset=utf-8" :=
    h.made.imp (congrArg HttpResponse.contentType) (congrArg HttpResponse.contentType)
  rcases htype with htype | htype
  · rw [htype]
    decide
  · rw [htype]
    decide

theorem headers_of_plain (h : res.Plain) : res.headers = [] :=
  h.made.elim (congrArg HttpResponse.headers) (congrArg HttpResponse.headers)

theorem responseFields_clean (h : res.Plain) (keepAlive : Bool) :
    ∀ kv ∈ responseFields res keepAlive, FieldName kv.1 ∧ cr ∉ kv.2 ∧ lf ∉ kv.2 := by
  obtain ⟨hcr, hlf, -⟩ := contentType_spec h
  intro kv hkv
  simp only [responseFields, List.mem_cons, List.not_mem_nil, or_false] at hkv
  rcases hkv with rfl | rfl | rfl
  · exact ⟨fieldName_of_mem (by simp), hcr, hlf⟩
  · exact ⟨fieldName_of_mem (by simp), num_clean res.body.length⟩
  · refine ⟨fieldName_of_mem (by simp), ?_⟩
    cases keepAlive
    · exact ⟨by decide, by decide⟩
    · exact ⟨by decide, by decide⟩

theorem statusLine_clean (res : HttpResponse) : cr ∉ statusLine res ∧ lf ∉ statusLine res := by
  obtain ⟨hcr, hlf, -⟩ := httpReason_spec res.status
  have hnum := num_clean res.status
  simp only [statusLine, List.mem_append, List.mem_cons, not_or]
  exact ⟨⟨by decide, by decide, hnum.1, by decide, hcr⟩, ⟨by decide, by decide, hnum.2, by decide, hlf⟩⟩

theorem tight_statusLine (res : HttpResponse) : Tight isSpace (statusLine res) := by
  obtain ⟨-, -, -, hne, hlast⟩ := httpReason_spec res.status
  constructor
  · intro x hx
    cases hx
    decide
  · intro x hx
    have hline : statusLine res = (text "HTTP/1.1" ++ 32 :: (num res.status ++ [32])) ++ httpReason res.status := by
      simp [statusLine]
    rw [hline, List.getLast?_append_of_ne_nil _ hne] at hx
    exact hlast x hx

theorem readStatusLine_statusLine (h : res.Plain) :
    HttpClient.readStatusLine (statusLine res ++ [cr]) = .ok res.status := by
  have hspace : (32 : UInt8) ∉ num res.status := fun hmem => by
    rcases mem_num hmem with h | h <;> exact absurd h (by decide)
  have hfits : res.status.natAbs ≤ int64Max := by
    have hstatus := h.status
    unfold int64Max
    omega
  have hint : toInt32 res.status = res.status := by
    have hstatus := h.status
    exact Int.bmod_eq_of_le (by omega) (by omega)
  unfold HttpClient.readStatusLine
  rw [trim_cr, trim, trimBy_of_tight (tight_statusLine res), statusLine, cut_append (by decide)]
  simp only
  rw [cut_append hspace]
  simp only
  rw [parseInt_num hfits]
  simp only [hint]

/-- What the client takes from the headers of a response. -/
theorem foldl_responseFields (h : res.Plain) (keepAlive : Bool) :
    (headerLines (responseFields res keepAlive)).foldl HttpClient.readHeaderLine {} =
      { contentLength := res.body.length, serverCloses := !keepAlive } := by
  have hfits : (res.body.length : Int).natAbs ≤ int64Max := by
    have hbody := h.body
    omega
  have hnames : toLower (text "Content-Type") ≠ text "content-length" ∧
      toLower (text "Content-Type") ≠ text "connection" ∧
      toLower (text "Content-Length") = text "content-length" ∧
      text "connection" ≠ text "content-length" ∧ toLower (text "Connection") = text "connection" := by
    decide
  have hclose : toLower (trim (text "close")) = text "close" ∧
      toLower (trim (text "keep-alive")) ≠ text "close" := by decide
  rw [headerLines, responseFields]
  simp only [List.map_cons, List.map_nil, List.foldl_cons, List.foldl_nil]
  rw [readHeaderLine_headerLine (fieldName_of_mem (by simp)), readHeaderLine_headerLine (fieldName_of_mem (by simp)),
    readHeaderLine_headerLine (fieldName_of_mem (by simp)), trim_num, parseInt_num hfits]
  simp only [hnames, if_true, if_false, false_and, true_and, Option.getD_some]
  cases keepAlive
  · simp [hclose]
  · simp [hclose]

theorem length_block_le (h : res.Plain) (keepAlive : Bool) :
    (block (statusLine res) (headerLines (responseFields res keepAlive))).length ≤ 300 := by
  obtain ⟨-, -, htype⟩ := contentType_spec h
  obtain ⟨-, -, hreason, -⟩ := httpReason_spec res.status
  have hstatus := length_num_le (v := res.status) (by have hstatus := h.status; unfold int64Max; omega)
  have hlength := length_num_le (v := res.body.length) (by have hbody := h.body; omega)
  have hconnection : (if keepAlive then text "keep-alive" else text "close").length ≤ 10 := by
    cases keepAlive <;> decide
  have hnames : (text "HTTP/1.1").length = 8 ∧ (text "Content-Type").length = 12 ∧
      (text "Content-Length").length = 14 ∧ (text "Connection").length = 10 ∧ (text ": ").length = 2 ∧
      crlf.length = 2 := by decide
  simp only [block, statusLine, headerLines, responseFields, headerLine, List.map_cons, List.map_nil,
    List.flatten_cons, List.flatten_nil, List.length_append, List.length_cons, List.length_nil, hnames]
  omega

end HttpServer

/-! ### The client's loops -/

namespace HttpClient

open HttpServer

variable {res : HttpResponse} {keepAlive : Bool}

theorem readBody_data {h : ResponseHead} {body : Bytes} (hlength : h.contentLength = body.length) (status : Int)
    {chunks : List Bytes} {payload : Bytes} (hstream : payload ++ chunks.flatten = body) :
    readBody status h payload (chunks.map .data) = .answered { ok := true, status, body } (!h.serverCloses) := by
  induction chunks generalizing payload with
  | nil =>
      rw [List.flatten_nil, List.append_nil] at hstream
      unfold readBody
      rw [hlength, hstream, if_pos (Int.le_refl _), Int.toNat_natCast, List.take_length]
  | cons chunk chunks ih =>
      rw [List.flatten_cons, ← List.append_assoc] at hstream
      rw [List.map_cons]
      unfold readBody
      rw [hlength]
      split
      · next henough =>
          have hwhole : payload = body := by
            refine List.IsPrefix.eq_of_length_le ?_ (by omega)
            rw [← hstream, List.append_assoc]
            exact List.prefix_append _ _
          rw [hwhole, Int.toNat_natCast, List.take_length]
      · exact ih hstream

/-- A head is read as it was written. -/
theorem readHead_block (h : res.Plain) (payload : Bytes) (reads : List Recv) :
    readHead (block (statusLine res) (headerLines (responseFields res keepAlive))) payload reads =
      readBody res.status { contentLength := res.body.length, serverCloses := !keepAlive } payload reads := by
  have hclean := headerLines_clean (responseFields_clean h keepAlive)
  have hline : ∀ head l, readHeaderLine head (l ++ [cr]) = readHeaderLine head l := by
    intro head l
    unfold readHeaderLine
    rw [trim_cr]
  obtain ⟨line, lines, hlines⟩ : ∃ line lines, headerLines (responseFields res keepAlive) = line :: lines :=
    ⟨_, _, rfl⟩
  have hfold : (crLines line lines).foldl readHeaderLine {} = (line :: lines).foldl readHeaderLine {} := by
    have hfoldM := foldlM_crLines (m := Id) (f := fun head l => pure (readHeaderLine head l))
      (fun head l => congrArg pure (hline head l)) line lines {}
    rw [List.foldlM_pure, List.foldlM_pure] at hfoldM
    exact hfoldM
  unfold readHead
  rw [split_block (statusLine_clean res).2 fun l hl => (hclean l hl).2.2, hlines, crLines]
  simp only
  rw [readStatusLine_statusLine h, hfold, ← hlines, foldl_responseFields h]
  simp only
  rw [if_neg (by omega)]

theorem readResponse_data (h : res.Plain) {chunks : List Bytes} (hsize : ∀ chunk ∈ chunks, chunk.length ≤ 16384)
    {buffer : Bytes} (hbuffer : findSub terminator buffer = none)
    (hstream : buffer ++ chunks.flatten = writeResponse res keepAlive) :
    readResponse buffer (chunks.map .data) =
      .answered { ok := true, status := res.status, body := res.body } keepAlive := by
  have hclean := headerLines_clean (responseFields_clean h keepAlive)
  have hbound := length_block_le h keepAlive
  have hwhole := writeResponse_eq (headers_of_plain h) keepAlive
  have hfound := findSub_block (statusLine_clean res).1 (fun l hl => ⟨(hclean l hl).1, (hclean l hl).2.1⟩) res.body
  have hfour : terminator.length = 4 := rfl
  rw [← hwhole] at hfound
  induction chunks generalizing buffer with
  | nil =>
      rw [List.flatten_nil, List.append_nil] at hstream
      rw [hstream, hfound] at hbuffer
      cases hbuffer
  | cons chunk chunks ih =>
      rw [List.forall_mem_cons] at hsize
      have hshort : buffer.length <
          (block (statusLine res) (headerLines (responseFields res keepAlive))).length + 4 := by
        refine hfour ▸ lt_of_findSub_append hbuffer (t := (chunk :: chunks).flatten) ?_
        rw [hstream, hfound]
      rw [List.flatten_cons, ← List.append_assoc] at hstream
      rw [List.map_cons, readResponse, if_neg (by rw [List.length_append]; omega)]
      cases hfind : findSub terminator (buffer ++ chunk) with
      | none => exact ih hsize.2 hfind hstream
      | some stop =>
          simp only
          have hlength := findSub_length hfind
          have hstop : stop = (block (statusLine res) (headerLines (responseFields res keepAlive))).length := by
            have happend := findSub_append (t := chunks.flatten) hfind
            rw [hstream, hfound, Option.some.injEq] at happend
            exact happend.symm
          have htake : (buffer ++ chunk).take stop =
              block (statusLine res) (headerLines (responseFields res keepAlive)) := by
            rw [← List.take_append_of_le_length (by omega), hstream, hwhole, hstop, List.take_left]
          have hdrop : (buffer ++ chunk).drop (stop + 4) ++ chunks.flatten = res.body := by
            rw [← List.drop_append_of_le_length (by omega), hstream, hwhole, hstop, ← List.drop_drop, List.drop_left]
            rfl
          rw [htake, readHead_block h, readBody_data rfl res.status hdrop, Bool.not_not]

end HttpClient

open HttpServer HttpClient

/-- **The wire.** However the bytes of any number of requests are cut into chunks, the server's loop hands over
exactly these requests in their order; and however the bytes of a response are cut, the client returns its
status and body. -/
theorem wire_round_trip :
    (∀ (handler : Handler) (calls : List HttpCall) (chunks : List Bytes) (rounds : ℕ),
      (∀ c ∈ calls, c.Valid) → calls.length ≤ rounds →
      chunks.flatten = (calls.map writeRequest).flatten →
      (serveConnection handler rounds [] (chunks.map .data)).handled.map (fun x => essence x.1) =
          calls.map (fun c => (c.method, c.path, c.body)) ∧
        (serveConnection handler rounds [] (chunks.map .data)).refused = none) ∧
    ∀ (res : HttpResponse) (keepAlive : Bool) (chunks : List Bytes) (retry : Link),
      res.Plain → (∀ chunk ∈ chunks, chunk.length ≤ 16384) →
      chunks.flatten = writeResponse res keepAlive →
      request (.sent (chunks.map .data)) retry =
        ({ ok := true, status := res.status, body := res.body }, keepAlive) := by
  refine ⟨fun handler calls chunks rounds hvalid hrounds hstream => ?_,
    fun res keepAlive chunks retry hplain hsize hstream => ?_⟩
  · exact serveConnection_calls handler hvalid hrounds hstream
  · have hanswer : readResponse [] (chunks.map .data) = _ := readResponse_data hplain hsize rfl hstream
    simp only [request, hanswer]

/-- Two requests in one stream. -/
def pipelined : List HttpCall :=
  [{ host := text "h", port := 80, method := text "POST", path := text "/jobs",
     body := text "a\r\n\r\nGET / HTTP/1.1" },
    { host := text "h", port := 80, method := text "GET", path := text "/jobs?state=QUEUED" }]

theorem pipelined_valid : ∀ c ∈ pipelined, c.Valid := by
  unfold pipelined
  rw [List.forall_mem_cons, List.forall_mem_singleton]
  constructor
  · exact ⟨⟨by decide, by decide, by decide, by decide, by decide, by decide, by decide +kernel, by decide⟩,
      by decide, by decide⟩
  · exact ⟨⟨by decide, by decide, by decide, by decide, by decide, by decide, by decide +kernel, by decide⟩,
      by decide, by decide⟩

theorem wire_round_trip_pipelined :
    ((serveConnection (fun _ => ({}, none)) 2 []
      [.data (pipelined.map writeRequest).flatten]).handled.map (fun x => essence x.1) =
        pipelined.map (fun c => (c.method, c.path, c.body))) ∧
    request (.sent [.data (writeResponse { status := 202, body := text "\x7b\x7d" } true)]) .sendFailed =
      ({ ok := true, status := 202, body := text "\x7b\x7d" }, true) := by
  constructor
  · exact (wire_round_trip.1 (fun _ => ({}, none)) pipelined [(pipelined.map writeRequest).flatten] 2
      pipelined_valid (by decide) (by simp)).1
  · exact wire_round_trip.2 { status := 202, body := text "\x7b\x7d" } true
      [writeResponse { status := 202, body := text "\x7b\x7d" } true] .sendFailed
      ⟨Or.inl rfl, by decide, by decide⟩ (by decide) (by simp)

/-- A method that starts with a tab. -/
def tabCall : HttpCall := { host := text "h", port := 80, method := 9 :: text "GET", path := text "/" }

/-- A content type that ends its header line. -/
def splitCall : HttpCall :=
  { host := text "h", port := 80, method := text "POST", path := text "/jobs", body := text "a"
    contentType := text "text/plain\r\nTransfer-Encoding: chunked" }

/-- Within the limits alone a request may arrive as another one, or be refused. -/
theorem wire_round_trip_rewritten :
    (tabCall.Framed ∧
      (serveConnection (fun _ => ({}, none)) 2 [] [.data (writeRequest tabCall)]).handled.map (fun x => essence x.1) ≠
        [(tabCall.method, tabCall.path, tabCall.body)]) ∧
    splitCall.Framed ∧
      (serveConnection (fun _ => ({}, none)) 2 [] [.data (writeRequest splitCall)]).handled.map
        (fun x => essence x.1) ≠
        [(splitCall.method, splitCall.path, splitCall.body)] := by
  refine ⟨⟨?_, by decide +kernel⟩, ?_, by decide +kernel⟩
  · exact ⟨by decide, by decide, by decide, by decide, by decide, by decide, by decide +kernel, by decide⟩
  · exact ⟨by decide, by decide, by decide, by decide, by decide, by decide, by decide +kernel, by decide⟩

end DistributedJobEngine
