import DistributedJobEngine.HttpParser
import DistributedJobEngine.JsonNumbers
import DistributedJobEngine.LibExcept
import DistributedJobEngine.TextInteger
import DistributedJobEngine.WorkerWire

/-! The requests of the API router that carry numbers, up to the call of the engine or the store, and which numbers
arrive there as they are written. Some are cast to `int`, with or without a check of their range before it. -/

namespace DistributedJobEngine

open LibExcept

namespace Api

variable (libc : Libc)

/-- `post_jobs`. -/
def postJobs (body : Bytes) : Except (ℕ × String) SubmitRequest := do
  let body ← parseBody libc body
  match readSubmitRequest libc body with
  | .error err => .error (400, err)
  | .ok req => .ok req

def readNode (n : Json) : Except (ℕ × String) WorkflowNodeSpec :=
  let name := n.getString (text "name") []
  if !n.isObject then .error (400, "every node must be an object")
  else if name.isEmpty then .error (400, "every node needs a non-empty 'name'")
  else
    match readSubmitRequest libc n with
    | .error err => .error (400, "node '" ++ ofBytes name ++ "': " ++ err)
    | .ok request => .ok { name := ofBytes name, request }

def readEdge (e : Json) : Except (ℕ × String) (String × String) :=
  let source := e.getString (text "from") []
  let target := e.getString (text "to") []
  if !e.isObject then .error (400, "every edge must be an object")
  else if source.isEmpty || target.isEmpty then .error (400, "every edge needs non-empty 'from' and 'to'")
  else .ok (ofBytes source, ofBytes target)

def readEdges (body : Json) : Except (ℕ × String) (List (String × String)) :=
  match body.find (text "edges") with
  | none => .ok []
  | some (.array items) => items.mapM readEdge
  | some _ => .error (400, "field 'edges' must be an array")

/-- The arguments of `submit_workflow`. -/
structure WorkflowCall where
  name : String
  nodes : List WorkflowNodeSpec
  edges : List (String × String)

/-- `post_workflows`. -/
def postWorkflows (body : Bytes) : Except (ℕ × String) WorkflowCall := do
  let body ← parseBody libc body
  match body.find (text "nodes") with
  | some (.array (n :: items)) =>
      let nodes ← (n :: items).mapM (readNode libc)
      let edges ← readEdges body
      .ok { name := ofBytes (body.getString (text "name") (text "workflow")), nodes, edges }
  | _ => .error (400, "field 'nodes' must be a non-empty array")

/-- `worker_register`: the capacity is cast before its range is checked. -/
def workerRegister (body : Bytes) : Except (ℕ × String) (Bytes × Int) := do
  let body ← parseBody libc body
  let capacity := toInt32 (body.getInt libc (text "capacity") 1)
  if capacity < 1 ∨ 1024 < capacity then .error (400, "field 'capacity' must be between 1 and 1024")
  else .ok (body.getString (text "name") (text "worker"), capacity)

/-- The arguments of `claim`. -/
structure ClaimCall where
  workerId : Bytes
  maxJobs : Int
  waitMs : Int

/-- `worker_claim`. -/
def workerClaim (body : Bytes) : Except (ℕ × String) ClaimCall := do
  let body ← parseBody libc body
  let maxJobs := body.getInt libc (text "max_jobs") 1
  let waitMs := body.getInt libc (text "wait_ms") 0
  if maxJobs < 1 ∨ 256 < maxJobs then .error (400, "field 'max_jobs' must be between 1 and 256")
  else if waitMs < 0 ∨ 60000 < waitMs then .error (400, "field 'wait_ms' must be between 0 and 60000")
  else .ok { workerId := body.getString (text "worker_id") [], maxJobs, waitMs }

/-- `query_param`: empty if there is none. -/
def queryParam (query : AList fun _ : Bytes => Bytes) (name : Bytes) : Bytes := (query.lookup name).getD []

/-- An optional parameter: the default if it is empty, none if it is no integer or not `ok`. -/
def readParam (param : Bytes) (default : Int) (ok : Int → Bool) : Option Int :=
  if param.isEmpty then some default else (parseInt param).filter ok

/-- The arguments with which `list_jobs` calls the store. -/
structure ListCall where
  filter : Option JobState
  limit : Int
  offset : Int

/-- `list_jobs`. -/
def listJobs (query : AList fun _ : Bytes => Bytes) : Except (ℕ × String) ListCall :=
  let state := ofBytes (queryParam query (text "state"))
  if !state.isEmpty && (JobState.fromString state).isNone then .error (400, "unknown state filter: " ++ state)
  else
    match readParam (queryParam query (text "limit")) 50 fun v => decide (1 ≤ v ∧ v ≤ 1000) with
    | none => .error (400, "limit must be an integer between 1 and 1000")
    | some limit =>
        match readParam (queryParam query (text "offset")) 0 fun v => decide (0 ≤ v) with
        | none => .error (400, "offset must be a non-negative integer")
        | some offset =>
            .ok { filter := JobState.fromString state, limit := toInt32 limit, offset := toInt32 offset }

end Api

/-! ### What is written and what is passed on -/

inductive ApiRequest where
  | postJobs (body : Bytes)
  | postWorkflows (body : Bytes)
  | workerRegister (body : Bytes)
  | workerClaim (body : Bytes)
  | workerComplete (body : Bytes)
  | listJobs (query : AList fun _ : Bytes => Bytes)

/-- Where a request has a number: a member of its body, a member of a node of a workflow, a query parameter. -/
inductive Place where
  | member (key : Bytes)
  | node (i : ℕ) (key : Bytes)
  | param (name : Bytes)

namespace ApiRequest

def body : ApiRequest → Bytes
  | postJobs body | postWorkflows body | workerRegister body | workerClaim body | workerComplete body => body
  | listJobs _ => []

def query : ApiRequest → AList fun _ : Bytes => Bytes
  | listJobs query => query
  | _ => ∅

/-- The integer that a text with an optional sign stands for, without the blanks around it. -/
def writtenInt (s : Bytes) : Int :=
  match trim s with
  | [] => 0
  | c :: rest => if c == 45 then -(digitsValue rest : Int) else if c == 43 then digitsValue rest else
      digitsValue (c :: rest)

def nodeMember (i : ℕ) (key : Bytes) (body : Json) : Option Json := do
  let nodes ← body.find (text "nodes")
  let node ← nodes.items[i]?
  node.find key

/-- The request has the number `n` at the given place. -/
def Writes (r : ApiRequest) : Place → Numeral → Prop
  | .member key, n => ∀ libc, ∃ j, Json.parse libc r.body = .ok j ∧ j.find key = some (n.toJson libc)
  | .node i key, n => ∀ libc, ∃ j, Json.parse libc r.body = .ok j ∧ nodeMember i key j = some (n.toJson libc)
  | .param name, n => Api.queryParam r.query name ≠ [] ∧ n = .int (writtenInt (Api.queryParam r.query name))

end ApiRequest

/-- The numbers of a submission, with their names in the body and the width they are cast to unchecked. -/
def SubmitRequest.numbers (req : SubmitRequest) : List (Bytes × ℕ × Int) :=
  [(text "priority", 32, req.priority), (text "max_attempts", 64, req.retry.maxAttempts),
    (text "backoff_base_ms", 64, req.retry.backoffBaseMs), (text "backoff_max_ms", 64, req.retry.backoffMaxMs),
    (text "timeout_ms", 64, req.timeoutMs), (text "delay_ms", 64, req.delayMs)]

/-- The request is accepted, and the integer that is passed on for the given place. -/
inductive Passes (libc : Libc) : ApiRequest → Place → ℕ → Int → Prop where
  | job {body : Bytes} {req : SubmitRequest} {key : Bytes} {bits : ℕ} {v : Int} (h : Api.postJobs libc body = .ok req)
      (hv : (key, bits, v) ∈ req.numbers) : Passes libc (.postJobs body) (.member key) bits v
  | node {body : Bytes} {call : Api.WorkflowCall} {i : ℕ} {node : WorkflowNodeSpec} {key : Bytes} {bits : ℕ} {v : Int}
      (h : Api.postWorkflows libc body = .ok call) (hnode : call.nodes[i]? = some node)
      (hv : (key, bits, v) ∈ node.request.numbers) : Passes libc (.postWorkflows body) (.node i key) bits v
  | capacity {body name : Bytes} {capacity : Int} (h : Api.workerRegister libc body = .ok (name, capacity)) :
      Passes libc (.workerRegister body) (.member (text "capacity")) 32 capacity
  | maxJobs {body : Bytes} {call : Api.ClaimCall} (h : Api.workerClaim libc body = .ok call) :
      Passes libc (.workerClaim body) (.member (text "max_jobs")) 64 call.maxJobs
  | waitMs {body : Bytes} {call : Api.ClaimCall} (h : Api.workerClaim libc body = .ok call) :
      Passes libc (.workerClaim body) (.member (text "wait_ms")) 64 call.waitMs
  | attempt {body : Bytes} {call : Api.CompleteCall} (h : Api.readComplete libc body = .ok call) :
      Passes libc (.workerComplete body) (.member (text "attempt")) 32 call.attempt
  | limit {query : AList fun _ : Bytes => Bytes} {call : Api.ListCall} (h : Api.listJobs query = .ok call) :
      Passes libc (.listJobs query) (.param (text "limit")) 64 call.limit
  | offset {query : AList fun _ : Bytes => Bytes} {call : Api.ListCall} (h : Api.listJobs query = .ok call) :
      Passes libc (.listJobs query) (.param (text "offset")) 32 call.offset

/-- The integer that `as_int` makes of the number, for one of the small defaults, cast to the given width. -/
def Taken (libc : Libc) (bits : ℕ) (n : Numeral) (v : Int) : Prop :=
  ∃ default : Int, default.natAbs < 2 ^ 53 ∧
    (bits = 64 ∧ v = (n.toJson libc).asInt libc default ∨
      bits = 32 ∧ v = toInt32 ((n.toJson libc).asInt libc default))

variable {libc : Libc} {r : ApiRequest} {p : Place} {bits : ℕ} {n : Numeral} {v : Int}

theorem Taken.eq_iff (h : Taken libc bits n v) (hlibc : libc.Converts)
    (hint : ∀ w, n = .int w → JsonParser.InInt64 w) : n.Defined libc ∧ (v : ℚ) = n.value ↔ n.Fits bits := by
  obtain ⟨default, hdefault, ⟨rfl, rfl⟩ | ⟨rfl, rfl⟩⟩ := h
  · exact Numeral.asInt_eq_iff hlibc hdefault hint
  · exact Numeral.toInt32_eq_iff hlibc hdefault hint

theorem getInt_of_find {j : Json} {key : Bytes} (h : j.find key = some (n.toJson libc)) (default : Int) :
    j.getInt libc key default = (n.toJson libc).asInt libc default := by
  rw [Json.getInt, h]

theorem taken_wide {j : Json} {key : Bytes} (h : j.find key = some (n.toJson libc)) {default : Int}
    (hdefault : default.natAbs < 2 ^ 53) : Taken libc 64 n (j.getInt libc key default) :=
  ⟨default, hdefault, .inl ⟨rfl, getInt_of_find h default⟩⟩

theorem taken_narrow {j : Json} {key : Bytes} (h : j.find key = some (n.toJson libc)) {default : Int}
    (hdefault : default.natAbs < 2 ^ 53) : Taken libc 32 n (toInt32 (j.getInt libc key default)) :=
  ⟨default, hdefault, .inr ⟨rfl, by rw [getInt_of_find h default]⟩⟩

theorem Api.SubmitRead.taken {j : Json} {req : SubmitRequest} {key : Bytes} (h : SubmitRead libc j req)
    (hv : (key, bits, v) ∈ req.numbers) (hfind : j.find key = some (n.toJson libc)) : Taken libc bits n v := by
  simp only [SubmitRequest.numbers, List.mem_cons, Prod.mk.injEq, List.not_mem_nil, or_false] at hv
  rcases hv with ⟨rfl, rfl, rfl⟩ | ⟨rfl, rfl, rfl⟩ | ⟨rfl, rfl, rfl⟩ | ⟨rfl, rfl, rfl⟩ | ⟨rfl, rfl, rfl⟩ |
    ⟨rfl, rfl, rfl⟩
  · rw [h.priority]
    exact taken_narrow hfind (by decide)
  · rw [h.retry.maxAttempts]
    exact taken_wide hfind (by decide)
  · rw [h.retry.backoffBaseMs]
    exact taken_wide hfind (by decide)
  · rw [h.retry.backoffMaxMs]
    exact taken_wide hfind (by decide)
  · rw [h.timeoutMs]
    exact taken_wide hfind (by decide)
  · rw [h.delayMs]
    exact taken_wide hfind (by decide)

namespace Api

theorem postJobs_ok {body : Bytes} {req : SubmitRequest} (h : postJobs libc body = .ok req) :
    ∃ j, Json.parse libc body = .ok j ∧ SubmitRead libc j req := by
  obtain ⟨j, hbody, h⟩ := bind_eq_ok.mp h
  cases hread : readSubmitRequest libc j with
  | error e =>
      rw [hread] at h
      cases h
  | ok req' =>
      rw [hread] at h
      cases h
      exact ⟨j, (parseBody_ok hbody).1, readSubmitRequest_ok hread⟩

theorem readNode_ok {item : Json} {node : WorkflowNodeSpec} (h : readNode libc item = .ok node) :
    SubmitRead libc item node.request := by
  unfold readNode at h
  dsimp only at h
  split_ifs at h
  cases hread : readSubmitRequest libc item with
  | error e =>
      rw [hread] at h
      cases h
  | ok req =>
      rw [hread] at h
      cases h
      exact readSubmitRequest_ok hread

theorem postWorkflows_ok {body : Bytes} {call : WorkflowCall} (h : postWorkflows libc body = .ok call) :
    ∃ j items, Json.parse libc body = .ok j ∧ j.find (text "nodes") = some (.array items) ∧
      items.mapM (readNode libc) = .ok call.nodes := by
  obtain ⟨j, hbody, h⟩ := bind_eq_ok.mp h
  split at h
  · next item items hnodes =>
      obtain ⟨nodes, hread, h⟩ := bind_eq_ok.mp h
      obtain ⟨edges, -, h⟩ := bind_eq_ok.mp h
      cases h
      exact ⟨j, _, (parseBody_ok hbody).1, hnodes, hread⟩
  · cases h

theorem workerRegister_ok {body name : Bytes} {capacity : Int} (h : workerRegister libc body = .ok (name, capacity)) :
    ∃ j, Json.parse libc body = .ok j ∧ capacity = toInt32 (j.getInt libc (text "capacity") 1) := by
  obtain ⟨j, hbody, h⟩ := bind_eq_ok.mp h
  dsimp only at h
  split_ifs at h
  cases h
  exact ⟨j, (parseBody_ok hbody).1, rfl⟩

theorem workerClaim_ok {body : Bytes} {call : ClaimCall} (h : workerClaim libc body = .ok call) :
    ∃ j, Json.parse libc body = .ok j ∧ call.maxJobs = j.getInt libc (text "max_jobs") 1 ∧
      call.waitMs = j.getInt libc (text "wait_ms") 0 := by
  obtain ⟨j, hbody, h⟩ := bind_eq_ok.mp h
  dsimp only at h
  split_ifs at h
  cases h
  exact ⟨j, (parseBody_ok hbody).1, rfl, rfl⟩

theorem readComplete_ok {body : Bytes} {call : CompleteCall} (h : readComplete libc body = .ok call) :
    ∃ j, Json.parse libc body = .ok j ∧ call.attempt = toInt32 (j.getInt libc (text "attempt") 0) := by
  obtain ⟨j, hbody, h⟩ := bind_eq_ok.mp h
  dsimp only at h
  split_ifs at h
  cases h
  exact ⟨j, (parseBody_ok hbody).1, rfl⟩

end Api

/-- **`parse_int` gives the integer that is written.** -/
theorem parseInt_eq_some {s : Bytes} (h : parseInt s = some v) :
    v = ApiRequest.writtenInt s ∧ JsonParser.InInt64 v := by
  unfold parseInt at h
  unfold ApiRequest.writtenInt
  cases htrim : trim s with
  | nil =>
      rw [htrim] at h
      cases h
  | cons c rest =>
      rw [htrim] at h
      dsimp only at h ⊢
      obtain ⟨digits, hdigits⟩ : ∃ digits, (if c == 45 || c == 43 then rest else c :: rest) = digits := ⟨_, rfl⟩
      rw [hdigits] at h
      by_cases hempty : digits.isEmpty = true
      · rw [if_pos hempty] at h
        cases h
      · rw [if_neg hempty] at h
        obtain ⟨w, hw, rfl⟩ := Option.map_eq_some_iff.mp h
        obtain ⟨-, hvalue, hle⟩ := foldlM_pushDigit_zero.mp hw
        rw [hvalue] at hle ⊢
        unfold int64Max at hle
        unfold JsonParser.InInt64
        by_cases hminus : (c == 45) = true
        · simp only [hminus, Bool.true_or, if_true] at hdigits ⊢
          exact ⟨by rw [hdigits], by omega, by omega⟩
        · by_cases hplus : (c == 43) = true
          · simp only [hminus, hplus, Bool.or_true, Bool.false_eq_true, if_true, if_false] at hdigits ⊢
            exact ⟨by rw [hdigits], by omega, by omega⟩
          · simp only [hminus, hplus, Bool.or_self, Bool.false_eq_true, if_false] at hdigits ⊢
            exact ⟨by rw [hdigits], by omega, by omega⟩

theorem Api.readParam_eq_some {param : Bytes} {default w : Int} {ok : Int → Bool}
    (h : readParam param default ok = some w) (hparam : param ≠ []) : parseInt param = some w ∧ ok w = true := by
  unfold readParam at h
  rw [if_neg (by rwa [List.isEmpty_iff])] at h
  exact Option.filter_eq_some_iff.mp h

theorem Api.listJobs_ok {query : AList fun _ : Bytes => Bytes} {call : ListCall} (h : listJobs query = .ok call) :
    ∃ limit offset, readParam (queryParam query (text "limit")) 50 (fun v => decide (1 ≤ v ∧ v ≤ 1000)) = some limit ∧
      readParam (queryParam query (text "offset")) 0 (fun v => decide (0 ≤ v)) = some offset ∧
      call.limit = toInt32 limit ∧ call.offset = toInt32 offset := by
  unfold listJobs at h
  dsimp only at h
  split_ifs at h
  split at h
  · cases h
  · next limit hlimit =>
      split at h
      · cases h
      · next offset hoffset =>
          cases h
          exact ⟨limit, offset, hlimit, hoffset, rfl, rfl⟩

/-! ### The numbers that arrive -/

theorem inInt64_of_find {j : Json} {key : Bytes} (hplain : j.Plain) (h : j.find key = some (n.toJson libc)) :
    ∀ w, n = .int w → JsonParser.InInt64 w := by
  rintro w rfl
  cases (Api.plain_find hplain h).1 with
  | int _ hw => exact hw

/-- The parser finds a number where it is written. -/
theorem ApiRequest.Writes.find {key : Bytes} {j : Json} (hn : r.Writes (.member key) n)
    (hparse : Json.parse libc r.body = .ok j) :
    j.find key = some (n.toJson libc) ∧ ∀ w, n = .int w → JsonParser.InInt64 w := by
  obtain ⟨j', hparse', hfind⟩ := hn libc
  obtain rfl := Except.ok.inj (hparse.symm.trans hparse')
  exact ⟨hfind, inInt64_of_find (Json.parse_ok hparse).1 hfind⟩

theorem ApiRequest.Writes.find_node {i : ℕ} {key : Bytes} {j item : Json} {items : List Json}
    (hn : r.Writes (.node i key) n) (hparse : Json.parse libc r.body = .ok j)
    (hnodes : j.find (text "nodes") = some (.array items)) (hitem : items[i]? = some item) :
    item.find key = some (n.toJson libc) ∧ ∀ w, n = .int w → JsonParser.InInt64 w := by
  obtain ⟨j', hparse', hfind⟩ := hn libc
  obtain rfl := Except.ok.inj (hparse.symm.trans hparse')
  have hitems : (Json.array items).items[i]? = some item := hitem
  rw [nodeMember, hnodes, Option.bind_eq_bind, Option.bind_some, hitems] at hfind
  replace hfind : item.find key = some (n.toJson libc) := hfind
  have hplain : item.Plain := by
    cases (Api.plain_find (Json.parse_ok hparse).1 hnodes).1 with
    | array _ h => exact h item (List.mem_of_getElem? hitem)
  exact ⟨hfind, inInt64_of_find hplain hfind⟩

/-- The parameter holds the integer that is written there. -/
theorem ApiRequest.Writes.parseInt_eq {name : Bytes} {default w : Int} {ok : Int → Bool}
    (hn : r.Writes (.param name) n)
    (h : Api.readParam (Api.queryParam r.query name) default ok = some w) :
    n = .int w ∧ JsonParser.InInt64 w ∧ ok w = true := by
  obtain ⟨hparam, rfl⟩ := hn
  obtain ⟨hparse, hok⟩ := Api.readParam_eq_some h hparam
  obtain ⟨hw, hint⟩ := parseInt_eq_some hparse
  exact ⟨by rw [hw], hint, hok⟩

/-- A number is taken over as `as_int` reads it, and if need be as the cast leaves it. -/
theorem Passes.taken (h : Passes libc r p bits v) (hn : r.Writes p n) :
    Taken libc bits n v ∧ ∀ w, n = .int w → JsonParser.InInt64 w := by
  cases h with
  | job h hv =>
      obtain ⟨j, hparse, hread⟩ := Api.postJobs_ok h
      obtain ⟨hfind, hint⟩ := hn.find hparse
      exact ⟨hread.taken hv hfind, hint⟩
  | node h hnode hv =>
      obtain ⟨j, items, hparse, hnodes, hread⟩ := Api.postWorkflows_ok h
      obtain ⟨item, hitem, hok⟩ := getElem?_of_mapM hread hnode
      obtain ⟨hfind, hint⟩ := hn.find_node hparse hnodes hitem
      exact ⟨(Api.readNode_ok hok).taken hv hfind, hint⟩
  | capacity h =>
      obtain ⟨j, hparse, rfl⟩ := Api.workerRegister_ok h
      obtain ⟨hfind, hint⟩ := hn.find hparse
      exact ⟨taken_narrow hfind (by decide), hint⟩
  | maxJobs h =>
      obtain ⟨j, hparse, hmax, -⟩ := Api.workerClaim_ok h
      obtain ⟨hfind, hint⟩ := hn.find hparse
      exact ⟨hmax ▸ taken_wide hfind (by decide), hint⟩
  | waitMs h =>
      obtain ⟨j, hparse, -, hwait⟩ := Api.workerClaim_ok h
      obtain ⟨hfind, hint⟩ := hn.find hparse
      exact ⟨hwait ▸ taken_wide hfind (by decide), hint⟩
  | attempt h =>
      obtain ⟨j, hparse, hattempt⟩ := Api.readComplete_ok h
      obtain ⟨hfind, hint⟩ := hn.find hparse
      exact ⟨hattempt ▸ taken_narrow hfind (by decide), hint⟩
  | limit h =>
      obtain ⟨limit, offset, hlimit, -, hcall, -⟩ := Api.listJobs_ok h
      obtain ⟨rfl, hint, hok⟩ := hn.parseInt_eq hlimit
      have hrange := of_decide_eq_true hok
      rw [hcall, Api.toInt32_of_mem (by omega) (by omega)]
      exact ⟨⟨0, by decide, .inl ⟨rfl, rfl⟩⟩, fun w hw => by cases hw; exact hint⟩
  | offset h =>
      obtain ⟨limit, offset, -, hoffset, -, hcall⟩ := Api.listJobs_ok h
      obtain ⟨rfl, hint, -⟩ := hn.parseInt_eq hoffset
      rw [hcall]
      exact ⟨⟨0, by decide, .inr ⟨rfl, rfl⟩⟩, fun w hw => by cases hw; exact hint⟩

/-- **A number arrives as it is written** when it is an integer of the width it is cast to, and has a
representation as a `double` if it is not written as an integer that fits `int64_t`; otherwise it does not. -/
theorem Passes.kept_iff (hlibc : libc.Converts) (h : Passes libc r p bits v) (hn : r.Writes p n) :
    n.Defined libc ∧ (v : ℚ) = n.value ↔ n.Fits bits :=
  (h.taken hn).1.eq_iff hlibc (h.taken hn).2

/-- A C library that converts as documented. -/
noncomputable def exactLibc : Libc where
  formatDouble := fun _ => text "0"
  strtod := fun raw => Classical.epsilon fun b => LibDouble.Finite b ∧ LibDouble.value b = numeral raw
  toRat := LibDouble.value
  truncate := fun b => truncRat (LibDouble.value b)

theorem exactLibc_converts : exactLibc.Converts where
  strtod _ h := Classical.epsilon_spec h
  truncate _ _ _ _ := rfl

/-- A worker registers with room for four jobs. -/
def registerFour : Bytes := text "\x7b\"capacity\":4\x7d"

theorem Passes.kept_register :
    Passes exactLibc (.workerRegister registerFour) (.member (text "capacity")) 32 4 ∧
      ApiRequest.Writes (.workerRegister registerFour) (.member (text "capacity")) (.int 4) ∧
        (Numeral.int 4).Defined exactLibc ∧ ((4 : Int) : ℚ) = Numeral.value (.int 4) := by
  have hparse : ∀ libc, Json.parse libc registerFour = .ok (.object [(text "capacity", .int 4)]) := by
    intro libc
    rfl
  have hpass : Passes exactLibc (.workerRegister registerFour) (.member (text "capacity")) 32 4 := by
    refine @Passes.capacity _ _ (text "worker") _ ?_
    rw [Api.workerRegister, Api.parseBody, hparse]
    rfl
  have hwrites : ApiRequest.Writes (.workerRegister registerFour) (.member (text "capacity")) (.int 4) :=
    fun libc => ⟨_, hparse libc, rfl⟩
  have hfits : Numeral.Fits 32 (.int 4) := ⟨4, rfl, by norm_num, by norm_num, trivial⟩
  exact ⟨hpass, hwrites, (Passes.kept_iff exactLibc_converts hpass hwrites).mpr hfits⟩

set_option maxRecDepth 4000 in
/-- The priority `2^31` is accepted and becomes the lowest there is. -/
theorem Passes.priority_wraps :
    Passes exactLibc (.postJobs (text "\x7b\"type\":\"t\",\"priority\":2147483648\x7d"))
      (.member (text "priority")) 32
        (-2147483648) ∧
      ApiRequest.Writes (.postJobs (text "\x7b\"type\":\"t\",\"priority\":2147483648\x7d"))
        (.member (text "priority"))
        (.int 2147483648) := by
  have hparse : ∀ libc, Json.parse libc (text "\x7b\"type\":\"t\",\"priority\":2147483648\x7d") =
      .ok (.object [(text "type", .str (text "t")), (text "priority", .int 2147483648)]) := by
    intro libc
    rfl
  refine ⟨@Passes.job _ _ { type := "t", priority := -2147483648 } _ _ _ ?_ List.mem_cons_self,
    fun libc => ⟨_, hparse libc, rfl⟩⟩
  rw [Api.postJobs, Api.parseBody, hparse]
  rfl

end DistributedJobEngine
