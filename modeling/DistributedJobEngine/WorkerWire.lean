import DistributedJobEngine.ApiJson
import DistributedJobEngine.HttpRoundTrip

/-! The texts that a coordinator and a remote worker exchange about leases: the reply to `/internal/claim`,
what `RemoteWorker` takes from it, the body it then posts to `/internal/complete`, and what the coordinator
takes from that, with the HTTP connection between them. -/

namespace DistributedJobEngine

structure LeasedJob where
  jobId : Bytes
  type : Bytes
  payload : Json
  attempt : Int
  leaseToken : UInt64
  timeoutMs : Int
  leaseExpiresMs : Int

namespace LeasedJob

/-- A lease token is a full 64-bit value and travels as a decimal string. -/
def toJson (lj : LeasedJob) : Json :=
  Json.build [(text "job_id", .str lj.jobId), (text "type", .str lj.type), (text "payload", lj.payload),
    (text "attempt", .int lj.attempt), (text "lease_token", .str (decimal lj.leaseToken.toNat)),
    (text "timeout_ms", .int lj.timeoutMs), (text "lease_expires_ms", .int lj.leaseExpiresMs)]

end LeasedJob

namespace Api

/-- The body of a successful reply to `/internal/claim`. -/
def claimReply (libc : Libc) (leased : List LeasedJob) : Bytes :=
  (Json.build [(text "jobs", .array (leased.map LeasedJob.toJson)), (text "count", .int leased.length)]).dump libc

/-- `strtoull` with base 10: blanks, a sign, digits; a value out of range is the largest one. -/
def stringToU64 (s : Bytes) : UInt64 :=
  let s := s.dropWhile fun c => c == 32 || (9 ≤ c && c ≤ 13)
  let negative := s.head? = some 45
  let digits := (JsonParser.skipSign s).takeWhile isDigit
  let n := digitsValue digits
  if 2 ^ 64 ≤ n then UInt64.ofNat (2 ^ 64 - 1)
  else if negative then -UInt64.ofNat n
  else UInt64.ofNat n

/-- The arguments with which `worker_complete` calls `JobEngine::complete`. -/
structure CompleteCall where
  workerId : Bytes
  jobId : Bytes
  attempt : Int
  leaseToken : UInt64
  status : Bytes
  result : Json
  error : Bytes

/-- `worker_complete` up to the call of the engine. -/
def readComplete (libc : Libc) (body : Bytes) : Except (ℕ × String) CompleteCall := do
  let body ← parseBody libc body
  let status := body.getString (text "status") []
  if status ∉ [text "SUCCEEDED", text "FAILED", text "TIMED_OUT", text "CANCELLED"] then
    .error (400, "field 'status' must be one of SUCCEEDED, FAILED, TIMED_OUT, CANCELLED")
  else
    .ok
      { workerId := body.getString (text "worker_id") []
        jobId := body.getString (text "job_id") []
        attempt := toInt32 (body.getInt libc (text "attempt") 0)
        leaseToken := stringToU64 (body.getString (text "lease_token") (text "0"))
        status
        result := (body.find (text "result")).getD (.object [])
        error := body.getString (text "error") [] }

end Api

namespace RemoteWorker

/-- What `poll_loop` takes from one item of the reply; the token stays the string it came as. -/
structure WorkItem where
  jobId : Bytes
  type : Bytes
  leaseToken : Bytes
  attempt : Int
  timeoutMs : Int
  payload : Json

def readItem (libc : Libc) (j : Json) : WorkItem where
  jobId := j.getString (text "job_id") []
  type := j.getString (text "type") []
  leaseToken := j.getString (text "lease_token") (text "0")
  attempt := toInt32 (j.getInt libc (text "attempt") 1)
  timeoutMs := j.getInt libc (text "timeout_ms") 0
  payload := (j.find (text "payload")).getD (.object [])

/-- A reply that does not parse, or has no array of jobs, is taken for one without jobs. -/
def readClaim (libc : Libc) (body : Bytes) : List WorkItem :=
  match (Json.parseOrNull libc body).find (text "jobs") with
  | some (.array items) => items.map (readItem libc)
  | _ => []

/-- How the attempt ended on the worker. -/
inductive Status where
  | succeeded | failed | timedOut
  deriving DecidableEq, Repr

def Status.toBytes : Status → Bytes
  | succeeded => text "SUCCEEDED"
  | failed => text "FAILED"
  | timedOut => text "TIMED_OUT"

structure Outcome where
  status : Status := .succeeded
  result : Json := .object []
  error : Bytes := []

def completeJson (workerId : Bytes) (item : WorkItem) (outcome : Outcome) : Json :=
  Json.build [(text "worker_id", .str workerId), (text "job_id", .str item.jobId),
    (text "attempt", .int item.attempt), (text "lease_token", .str item.leaseToken),
    (text "status", .str outcome.status.toBytes), (text "result", outcome.result),
    (text "error", .str outcome.error)]

/-- The body posted to `/internal/complete`. -/
def completeRequest (libc : Libc) (workerId : Bytes) (item : WorkItem) (outcome : Outcome) : Bytes :=
  (completeJson workerId item outcome).dump libc

end RemoteWorker

namespace Json

theorem foldl_set (rest acc : List (Bytes × Json)) (h : ((acc ++ rest).map Prod.fst).Nodup) :
    rest.foldl (fun (j : Json) m => j.set m.1 m.2) (Json.object acc) = Json.object (acc ++ rest) := by
  induction rest generalizing acc with
  | nil =>
      rw [List.append_nil]
      rfl
  | cons m rest ih =>
      have hfresh : m.1 ∉ acc.map Prod.fst := by
        rw [List.map_append, List.map_cons] at h
        exact fun hmem => List.disjoint_of_nodup_append h hmem List.mem_cons_self
      rw [List.foldl_cons, set, JsonParser.setMember_of_notMem _ hfresh, ih (acc ++ [m]) (by simpa using h),
        List.append_assoc]
      rfl

theorem build_eq {members : List (Bytes × Json)} (h : (members.map Prod.fst).Nodup) :
    build members = .object members :=
  foldl_set members [] h

end Json

/-- The object of a lease, member by member. -/
theorem LeasedJob.toJson_eq (lj : LeasedJob) :
    lj.toJson = .object [(text "job_id", .str lj.jobId), (text "type", .str lj.type), (text "payload", lj.payload),
      (text "attempt", .int lj.attempt), (text "lease_token", .str (decimal lj.leaseToken.toNat)),
      (text "timeout_ms", .int lj.timeoutMs), (text "lease_expires_ms", .int lj.leaseExpiresMs)] :=
  Json.build_eq (by simp only [List.map_cons, List.map_nil]; decide)

theorem RemoteWorker.completeJson_eq (workerId : Bytes) (item : WorkItem) (outcome : Outcome) :
    completeJson workerId item outcome = .object [(text "worker_id", .str workerId), (text "job_id", .str item.jobId),
      (text "attempt", .int item.attempt), (text "lease_token", .str item.leaseToken),
      (text "status", .str outcome.status.toBytes), (text "result", outcome.result),
      (text "error", .str outcome.error)] :=
  Json.build_eq (by simp only [List.map_cons, List.map_nil]; decide)

/-- The payload of a row that was written and read back: `payload.dump()`, then `parse_or_null`. -/
def storedPayload (libc : Libc) (payload : Json) : Json :=
  let read := Json.parseOrNull libc (payload.dump libc)
  if read.isNull then .object [] else read

/-- A lease that `claim` issues for a job that `POST /jobs` accepted and whose payload holds no number but
integers: it carries the type, payload and timeout of the request, the payload perhaps by way of a row of
the store. `attempt` is an `int`, the two times are `int64_t`. -/
structure Issued (libc : Libc) (lj : LeasedJob) : Prop where
  accepted : ∃ body j req, Api.parseBody libc body = .ok j ∧ Api.readSubmitRequest libc j = .ok req ∧
    req.payload.Integral ∧ ofBytes lj.type = req.type ∧ lj.timeoutMs = req.timeoutMs ∧
    (lj.payload = req.payload ∨ lj.payload = storedPayload libc req.payload)
  attempt : toInt32 lj.attempt = lj.attempt
  timeoutMs : JsonParser.InInt64 lj.timeoutMs
  leaseExpiresMs : JsonParser.InInt64 lj.leaseExpiresMs

namespace Api

theorem parseBody_ok {libc : Libc} {body : Bytes} {j : Json} (h : parseBody libc body = .ok j) :
    Json.parse libc body = .ok j ∧ j.isObject = true := by
  unfold parseBody at h
  split at h
  · cases h
  · cases hparse : Json.parse libc body with
    | error e =>
        rw [hparse] at h
        cases h
    | ok j' =>
        rw [hparse] at h
        simp only at h
        split at h
        · next hobject =>
            cases h
            exact ⟨rfl, hobject⟩
        · cases h

theorem find_object {members : List (Bytes × Json)} {key : Bytes} {v : Json}
    (h : (Json.object members).find key = some v) : (key, v) ∈ members := by
  rw [Json.find, Option.map_eq_some_iff] at h
  obtain ⟨m, hm, rfl⟩ := h
  have hkey := List.find?_some hm
  simp only [decide_eq_true_eq] at hkey
  rw [← hkey]
  exact List.mem_of_find?_eq_some hm

/-- A member of a well-formed object is well formed and nested one level less. -/
theorem plain_find {j v : Json} {key : Bytes} (h : j.Plain) (hfind : j.find key = some v) :
    v.Plain ∧ v.height < j.height := by
  cases h with
  | object members hmembers hkeys =>
      have hmem := find_object hfind
      exact ⟨hmembers _ hmem, Json.heightMembers_lt.mp (Nat.lt_succ_self _) _ hmem⟩
  | _ => cases hfind

theorem readPayload_ok {j payload : Json} (h : readPayload j = .ok payload) :
    payload = .object [] ∨ (j.find (text "payload") = some payload ∧ payload.isObject = true) := by
  unfold readPayload at h
  cases hfind : j.find (text "payload") with
  | none =>
      rw [hfind] at h
      cases h
      exact .inl rfl
  | some v =>
      rw [hfind] at h
      simp only at h
      split at h
      · next hobject =>
          cases h
          exact .inr ⟨rfl, hobject⟩
      · cases h

/-- The payload of an accepted request is a well-formed object that is nested one level less than the
request may be. -/
theorem payload_of_accepted {libc : Libc} {body : Bytes} {j : Json} {req : SubmitRequest}
    (hbody : parseBody libc body = .ok j) (hreq : readSubmitRequest libc j = .ok req) :
    req.payload.Plain ∧ req.payload.height < JsonParser.maxDepth ∧ req.payload.isObject = true := by
  obtain ⟨hparse, -⟩ := parseBody_ok hbody
  obtain ⟨hplain, hheight⟩ := Json.parse_ok hparse
  rcases readPayload_ok (readSubmitRequest_ok hreq).payload with hempty | ⟨hfind, hobject⟩
  · rw [hempty]
    exact ⟨.object [] (by simp) List.nodup_nil, by decide, rfl⟩
  · obtain ⟨hplain', hlt⟩ := plain_find hplain hfind
    exact ⟨hplain', Nat.lt_of_lt_of_le hlt hheight, hobject⟩

end Api

variable {libc : Libc}

/-- **A payload survives the store**, when it is nested no deeper than the parser allows. -/
theorem storedPayload_eq (hlibc : libc.PrintsNumbers) {payload : Json} (hplain : payload.Plain)
    (hintegral : payload.Integral) (hheight : payload.height ≤ JsonParser.maxDepth)
    (hobject : payload.isObject = true) : storedPayload libc payload = payload := by
  have hread : Json.parseOrNull libc (payload.dump libc) = payload := by
    rw [Json.parseOrNull, Json.dump, Json.parse_dumpInto hlibc 0 hplain hheight, hintegral.reread_eq]
  rw [storedPayload, hread]
  cases payload with
  | object members => rfl
  | _ => cases hobject

/-- What a lease carries is well formed. -/
theorem Issued.payload (hlibc : libc.PrintsNumbers) {lj : LeasedJob} (h : Issued libc lj) :
    lj.payload.Plain ∧ lj.payload.Integral := by
  obtain ⟨body, j, req, hbody, hreq, hintegral, -, -, hpayload⟩ := h.accepted
  obtain ⟨hplain, hheight, hobject⟩ := Api.payload_of_accepted hbody hreq
  rw [storedPayload_eq hlibc hplain hintegral (Nat.le_of_lt hheight) hobject, or_self] at hpayload
  rw [hpayload]
  exact ⟨hplain, hintegral⟩

namespace RemoteWorker

/-- The work a lease stands for, as a worker sees it. -/
def WorkItem.ofLease (lj : LeasedJob) : WorkItem where
  jobId := lj.jobId
  type := lj.type
  leaseToken := decimal lj.leaseToken.toNat
  attempt := lj.attempt
  timeoutMs := lj.timeoutMs
  payload := lj.payload

theorem readItem_toJson {lj : LeasedJob} (hattempt : toInt32 lj.attempt = lj.attempt) :
    readItem libc lj.toJson = .ofLease lj := by
  have hread : readItem libc lj.toJson = { WorkItem.ofLease lj with attempt := toInt32 lj.attempt } := by
    rw [LeasedJob.toJson_eq]
    rfl
  rw [hread, hattempt]
  rfl

end RemoteWorker

theorem inInt64_of_toInt32 {v : Int} (h : toInt32 v = v) : JsonParser.InInt64 v := by
  have hle := Int.le_bmod (x := v) (m := 2 ^ 32) (by norm_num)
  have hlt := Int.bmod_lt (x := v) (m := 2 ^ 32) (by norm_num)
  unfold toInt32 at h
  rw [h] at hle hlt
  unfold JsonParser.InInt64
  omega

theorem LeasedJob.height_toJson (lj : LeasedJob) : lj.toJson.height = lj.payload.height + 1 := by
  rw [toJson_eq]
  simp only [Json.height, Json.heightMembers]
  omega

theorem Issued.plain_toJson (hlibc : libc.PrintsNumbers) {lj : LeasedJob} (h : Issued libc lj) :
    lj.toJson.Plain ∧ lj.toJson.Integral := by
  obtain ⟨hplain, hintegral⟩ := h.payload hlibc
  rw [LeasedJob.toJson_eq]
  constructor
  · refine .object _ ?_ (by simp only [List.map_cons, List.map_nil]; decide)
    simp only [List.forall_mem_cons]
    exact ⟨.str _, .str _, hplain, .int _ (inInt64_of_toInt32 h.attempt), .str _, .int _ h.timeoutMs,
      .int _ h.leaseExpiresMs, by simp⟩
  · refine .object _ ?_
    simp only [List.forall_mem_cons]
    exact ⟨.str _, .str _, hintegral, .int _, .str _, .int _, .int _, by simp⟩

namespace Api

theorem claimReply_eq (leased : List LeasedJob) :
    claimReply libc leased = (Json.object [(text "jobs", .array (leased.map LeasedJob.toJson)),
      (text "count", .int leased.length)]).dump libc := by
  rw [claimReply, Json.build_eq (by simp only [List.map_cons, List.map_nil]; decide)]

/-- The reply nests each payload three levels deep. -/
theorem height_claimReply (leased : List LeasedJob) :
    (Json.object [(text "jobs", .array (leased.map LeasedJob.toJson)),
      (text "count", .int leased.length)]).height ≤ JsonParser.maxDepth ↔ ∀ lj ∈ leased, lj.payload.height ≤ 61 := by
  have hitems : Json.heightItems (leased.map LeasedJob.toJson) < 64 ↔ ∀ lj ∈ leased, lj.payload.height ≤ 61 := by
    rw [Json.heightItems_lt, List.forall_mem_map]
    refine forall₂_congr fun lj _ => ?_
    rw [lj.height_toJson]
    omega
  rw [← hitems]
  simp only [Json.height, Json.heightMembers, JsonParser.maxDepth]
  omega

end Api

/-- **A batch of leases reaches the worker** exactly when no payload is nested more than 61 levels deep. -/
theorem RemoteWorker.readClaim_claimReply (hlibc : libc.PrintsNumbers) (leased : List LeasedJob)
    (hissued : ∀ lj ∈ leased, Issued libc lj) (hlength : leased.length ≤ 256) :
    readClaim libc (Api.claimReply libc leased) = leased.map WorkItem.ofLease ↔
      ∀ lj ∈ leased, lj.payload.height ≤ 61 := by
  have hplain : (Json.object [(text "jobs", .array (leased.map LeasedJob.toJson)),
      (text "count", .int leased.length)]).Plain := by
    refine .object _ ?_ (by simp only [List.map_cons, List.map_nil]; decide)
    simp only [List.forall_mem_cons]
    refine ⟨.array _ ?_, .int _ ?_, by simp⟩
    · rw [List.forall_mem_map]
      exact fun lj hlj => ((hissued lj hlj).plain_toJson hlibc).1
    · unfold JsonParser.InInt64
      omega
  have hintegral : (Json.object [(text "jobs", .array (leased.map LeasedJob.toJson)),
      (text "count", .int leased.length)]).Integral := by
    refine .object _ ?_
    simp only [List.forall_mem_cons]
    refine ⟨.array _ ?_, .int _, by simp⟩
    rw [List.forall_mem_map]
    exact fun lj hlj => ((hissued lj hlj).plain_toJson hlibc).2
  rw [← Api.height_claimReply, Api.claimReply_eq]
  constructor
  · intro hread
    by_contra hdeep
    obtain ⟨e, he⟩ := Json.parse_dumpInto_deep hlibc 0 hplain (Nat.lt_of_not_le hdeep)
    have hnone : readClaim libc ((Json.object [(text "jobs", .array (leased.map LeasedJob.toJson)),
        (text "count", .int leased.length)]).dump libc) = [] := by
      rw [readClaim, Json.parseOrNull, Json.dump, he]
      rfl
    -- an empty batch is never nested too deep
    rw [hnone] at hread
    rw [List.map_eq_nil_iff.mp hread.symm] at hdeep
    exact hdeep (by decide)
  · intro hheight
    rw [readClaim, Json.parseOrNull, Json.dump, Json.parse_dumpInto hlibc 0 hplain hheight, hintegral.reread_eq]
    have hjobs : (Json.object [(text "jobs", .array (leased.map LeasedJob.toJson)),
        (text "count", .int leased.length)]).find (text "jobs") = some (.array (leased.map LeasedJob.toJson)) := rfl
    simp only [hjobs, List.map_map]
    exact List.map_congr_left fun lj hlj => readItem_toJson (hissued lj hlj).attempt

/-- **Tokens written are read back**, all 64 bits of them. -/
theorem Api.stringToU64_decimal (token : UInt64) : stringToU64 (decimal token.toNat) = token := by
  obtain ⟨c, ds, hdigits⟩ := List.exists_cons_of_ne_nil (decimal_ne_nil token.toNat)
  have hall : ∀ d ∈ c :: ds, isDigit d = true := hdigits ▸ isDigit_of_mem_decimal
  have hc : (c == 32 || (decide (9 ≤ c) && decide (c ≤ 13))) = false ∧ c ≠ 45 ∧ ¬(c = 43 ∨ c = 45) :=
    forall_byte (P := fun c => isDigit c = true →
      (c == 32 || (decide (9 ≤ c) && decide (c ≤ 13))) = false ∧ c ≠ 45 ∧ ¬(c = 43 ∨ c = 45))
      (by decide +kernel) c (hall c List.mem_cons_self)
  have hdrop : (c :: ds).dropWhile (fun c => c == 32 || (decide (9 ≤ c) && decide (c ≤ 13))) = c :: ds :=
    List.dropWhile_cons_of_neg (by rw [hc.1]; exact Bool.false_ne_true)
  have hsign : JsonParser.skipSign (c :: ds) = c :: ds := if_neg hc.2.2
  have htake : (c :: ds).takeWhile isDigit = c :: ds := List.takeWhile_eq_self_iff.mpr hall
  have hhead : ¬(c :: ds).head? = some 45 := by simpa using hc.2.1
  have hvalue : digitsValue (c :: ds) = token.toNat := by
    rw [← hdigits]
    exact JsonParser.digitsValue_decimal _
  have hlt : ¬2 ^ 64 ≤ token.toNat := Nat.not_le.mpr token.toNat_lt
  rw [hdigits, stringToU64]
  simp only [hdrop, hsign, htake, hvalue, hlt, if_false, hhead]
  exact UInt64.ofNat_toNat

namespace RemoteWorker

theorem plain_completeJson (workerId : Bytes) {item : WorkItem} {outcome : Outcome}
    (hattempt : JsonParser.InInt64 item.attempt) (hresult : outcome.result.Plain) :
    (completeJson workerId item outcome).Plain := by
  rw [completeJson_eq]
  refine .object _ ?_ (by simp only [List.map_cons, List.map_nil]; decide)
  simp only [List.forall_mem_cons]
  exact ⟨.str _, .str _, .int _ hattempt, .str _, .str _, hresult, .str _, by simp⟩

theorem height_completeJson (workerId : Bytes) (item : WorkItem) (outcome : Outcome) :
    (completeJson workerId item outcome).height ≤ JsonParser.maxDepth ↔ outcome.result.height ≤ 63 := by
  rw [completeJson_eq]
  simp only [Json.height, Json.heightMembers, JsonParser.maxDepth]
  omega

theorem completeRequest_ne_nil (workerId : Bytes) (item : WorkItem) (outcome : Outcome) :
    (completeRequest libc workerId item outcome).isEmpty = false := by
  rw [completeRequest, completeJson_eq]
  rfl

/-- What the coordinator takes from the body that reports an outcome. -/
theorem readComplete_of_parse {workerId : Bytes} {item : WorkItem} {outcome : Outcome} (result : Json)
    (h : Json.parse libc (completeRequest libc workerId item outcome) =
      .ok (completeJson workerId item { outcome with result })) :
    Api.readComplete libc (completeRequest libc workerId item outcome) =
      .ok { workerId, jobId := item.jobId, attempt := toInt32 item.attempt,
            leaseToken := Api.stringToU64 item.leaseToken, status := outcome.status.toBytes, result,
            error := outcome.error } := by
  have hbody : Api.parseBody libc (completeRequest libc workerId item outcome) =
      .ok (completeJson workerId item { outcome with result }) := by
    rw [Api.parseBody, completeRequest_ne_nil, h]
    rw [completeJson_eq]
    rfl
  rw [Api.readComplete, hbody, completeJson_eq]
  cases outcome.status <;> rfl

/-- **A result reaches the coordinator** under the lease it was made for, exactly when it is nested at most 63
levels deep. -/
theorem readComplete_completeRequest (hlibc : libc.PrintsNumbers) (workerId : Bytes) {lj : LeasedJob}
    (hissued : Issued libc lj) {outcome : Outcome} (hresult : outcome.result.Plain) :
    (∃ call, Api.readComplete libc (completeRequest libc workerId (.ofLease lj) outcome) = .ok call ∧
        call.workerId = workerId ∧ call.jobId = lj.jobId ∧ call.attempt = lj.attempt ∧
        call.leaseToken = lj.leaseToken) ↔
      outcome.result.height ≤ 63 := by
  have hplain : (completeJson workerId (.ofLease lj) outcome).Plain :=
    plain_completeJson workerId (inInt64_of_toInt32 hissued.attempt) hresult
  rw [← height_completeJson workerId (.ofLease lj)]
  constructor
  · rintro ⟨call, hcall, -⟩
    by_contra hdeep
    obtain ⟨e, he⟩ := Json.parse_dumpInto_deep hlibc 0 hplain (Nat.lt_of_not_le hdeep)
    have hbody : Api.parseBody libc (completeRequest libc workerId (.ofLease lj) outcome) =
        .error (400, "invalid JSON: " ++ e) := by
      rw [Api.parseBody, completeRequest_ne_nil, completeRequest, Json.dump, he]
      rfl
    rw [Api.readComplete, hbody] at hcall
    cases hcall
  · intro hheight
    have hparse := Json.parse_dumpInto hlibc 0 hplain hheight
    refine ⟨_, readComplete_of_parse (outcome.result.reread libc) ?_, rfl, rfl, hissued.attempt,
      Api.stringToU64_decimal _⟩
    rw [completeRequest, Json.dump, hparse, completeJson_eq, completeJson_eq]
    rfl

end RemoteWorker

/-! ### The connection -/

/-- Where a coordinator listens: a host name, of the length that can be looked up, and a port. -/
structure Address where
  host : Bytes
  port : Int
  host_clean : cr ∉ host ∧ lf ∉ host
  host_length : host.length ≤ 1024
  port_range : 0 ≤ port ∧ port < 65536

namespace RemoteWorker

open HttpServer HttpClient HttpRequestParser

/-- The call that reports an outcome. -/
def completeCall (libc : Libc) (addr : Address) (workerId : Bytes) (item : WorkItem) (outcome : Outcome) :
    HttpCall where
  host := addr.host
  port := addr.port
  method := text "POST"
  path := text "/internal/complete"
  body := completeRequest libc workerId item outcome

/-- However the bytes of the reply are cut on the way, the worker takes these leases from it. -/
def ClaimArrives (libc : Libc) (leased : List LeasedJob) : Prop :=
  ∀ (keepAlive : Bool) (chunks : List Bytes) (retry : Link), (∀ chunk ∈ chunks, chunk.length ≤ 16384) →
    chunks.flatten = writeResponse (HttpResponse.json {} 200 (Api.claimReply libc leased)) keepAlive →
    ∃ body connected, request (.sent (chunks.map .data)) retry = ({ ok := true, status := 200, body }, connected) ∧
      readClaim libc body = leased.map .ofLease

/-- However the bytes of the report are cut on the way, the coordinator's handler is given this one request
and takes the worker and the lease from its body. -/
def ReportArrives (libc : Libc) (addr : Address) (workerId : Bytes) (lj : LeasedJob) (outcome : Outcome) : Prop :=
  ∀ (handler : Handler) (rounds : ℕ) (chunks : List Bytes), 0 < rounds →
    chunks.flatten = writeRequest (completeCall libc addr workerId (.ofLease lj) outcome) →
    ∃ req out call, (serveConnection handler rounds [] (chunks.map .data)).handled = [(req, out)] ∧
      essence req = (text "POST", text "/internal/complete", completeRequest libc workerId (.ofLease lj) outcome) ∧
      Api.readComplete libc req.body = .ok call ∧ call.workerId = workerId ∧ call.jobId = lj.jobId ∧
      call.attempt = lj.attempt ∧ call.leaseToken = lj.leaseToken

/-- A reply arrives if its body can be read. -/
theorem claimArrives_iff {leased : List LeasedJob} (hreply : (Api.claimReply libc leased).length ≤ int64Max) :
    ClaimArrives libc leased ↔ readClaim libc (Api.claimReply libc leased) = leased.map .ofLease := by
  have hplain : (HttpResponse.json {} 200 (Api.claimReply libc leased)).Plain :=
    ⟨.inl rfl, (by decide : -2 ^ 31 ≤ (200 : Int) ∧ (200 : Int) < 2 ^ 31), hreply⟩
  have hrequest {keepAlive : Bool} {chunks : List Bytes} (retry : Link)
      (hsize : ∀ chunk ∈ chunks, chunk.length ≤ 16384)
      (hstream : chunks.flatten = writeResponse (HttpResponse.json {} 200 (Api.claimReply libc leased)) keepAlive) :
      request (.sent (chunks.map .data)) retry =
        ({ ok := true, status := 200, body := Api.claimReply libc leased }, keepAlive) := by
    have hanswer : readResponse [] (chunks.map .data) = _ := readResponse_data hplain hsize rfl hstream
    simp only [request, hanswer]
    rfl
  constructor
  · intro harrives
    -- one byte at a time
    have hflatten (s : Bytes) : (s.map fun c => [c]).flatten = s := by
      rw [← List.flatMap_def, List.flatMap_singleton']
    have hsize (s : Bytes) : ∀ chunk ∈ s.map fun c => [c], chunk.length ≤ 16384 := by
      rw [List.forall_mem_map]
      exact fun _ _ => by simp
    obtain ⟨body, connected, hbody, hread⟩ := harrives true _ .sendFailed (hsize _) (hflatten _)
    rw [hrequest .sendFailed (hsize _) (hflatten _)] at hbody
    cases hbody
    exact hread
  · exact fun hread keepAlive chunks retry hsize hstream => ⟨_, _, hrequest retry hsize hstream, hread⟩

theorem completeCall_valid (addr : Address) (workerId : Bytes) (item : WorkItem) (outcome : Outcome)
    (h : (completeRequest libc workerId item outcome).length ≤ maxBodyBytes) :
    (completeCall libc addr workerId item outcome).Valid where
  method_ne := (by decide : text "POST" ≠ [])
  method_clean := (by decide : 32 ∉ text "POST" ∧ cr ∉ text "POST" ∧ lf ∉ text "POST")
  path_absolute := (by decide : (text "/internal/complete").head? = some 47)
  path_clean := (by decide : 32 ∉ text "/internal/complete" ∧ cr ∉ text "/internal/complete" ∧
    lf ∉ text "/internal/complete")
  path_length := (by decide : (text "/internal/complete").length ≤ 4096)
  host_clean := addr.host_clean
  head_length := by
    have hport := length_num_le (v := addr.port) (by have hport := addr.port_range; unfold int64Max; omega)
    have hlength := length_num_le (v := (completeRequest libc workerId item outcome).length) (by
      have hmax : maxBodyBytes ≤ int64Max := by decide
      omega)
    have hhost := addr.host_length
    have hnames : (text "POST").length = 4 ∧ (text "/internal/complete").length = 18 ∧
        (text "HTTP/1.1").length = 8 ∧ (text "Host").length = 4 ∧ (text ":").length = 1 ∧
        (text "Connection").length = 10 ∧ (text "keep-alive").length = 10 ∧ (text "Content-Type").length = 12 ∧
        (text "application/json").length = 16 ∧ (text "Content-Length").length = 14 ∧ (text ": ").length = 2 ∧
        crlf.length = 2 ∧ maxHeaderBytes = 16384 := by decide
    rw [HttpCall.length_writeRequest]
    simp only [completeCall, HttpCall.requestLine, HttpCall.fields, completeRequest_ne_nil, block, headerLines,
      headerLine, Bool.false_eq_true, if_false, List.map_cons, List.map_nil, List.cons_append,
      List.nil_append, List.flatten_cons, List.flatten_nil, List.length_append, List.length_cons, List.length_nil,
      hnames]
    omega
  body_length := h
  method_tab := (by decide : (text "POST").head? ≠ some 9)
  type_clean := (by decide : cr ∉ text "application/json" ∧ lf ∉ text "application/json")

/-- A report arrives if its text is within the server's limit on bodies and can be read. -/
theorem reportArrives_iff (hlibc : libc.PrintsNumbers) (addr : Address) (workerId : Bytes) {lj : LeasedJob}
    (hissued : Issued libc lj) {outcome : Outcome} (hresult : outcome.result.Plain) :
    ReportArrives libc addr workerId lj outcome ↔
      outcome.result.height ≤ 63 ∧ (completeRequest libc workerId (.ofLease lj) outcome).length ≤ maxBodyBytes := by
  rw [← readComplete_completeRequest hlibc workerId hissued hresult]
  constructor
  · intro harrives
    obtain ⟨req, out, call, hhandled, hessence, hread⟩ := harrives (fun _ => ({}, none)) 1
      [writeRequest (completeCall libc addr workerId (.ofLease lj) outcome)] one_pos (by simp)
    have hbody : req.body = completeRequest libc workerId (.ofLease lj) outcome :=
      congrArg (fun e => e.2.2) hessence
    have hle := body_le_of_handled _ (req, out) (by rw [hhandled]; exact List.mem_cons_self)
    rw [hbody] at hle hread
    exact ⟨⟨call, hread⟩, hle⟩
  · rintro ⟨⟨call, hread⟩, hle⟩ handler rounds chunks hrounds hstream
    have hvalid := completeCall_valid addr workerId (.ofLease lj) outcome hle
    obtain ⟨hhandled, -⟩ := @serveConnection_calls handler [_] (List.forall_mem_singleton.mpr hvalid) rounds hrounds
      [] chunks (by simpa using hstream)
    obtain ⟨⟨req, out⟩, hone, hessence⟩ := List.map_eq_singleton_iff.mp hhandled
    have hbody : req.body = completeRequest libc workerId (.ofLease lj) outcome :=
      congrArg (fun e => e.2.2) hessence
    exact ⟨req, out, call, hone, hessence, by rwa [hbody]⟩

/-- **A lease crosses the wire and comes back** for every job of a batch, exactly when the payloads are nested at
most 61 levels deep, the results at most 63, and no report is longer than the server reads. -/
theorem lease_crosses_wire_iff (hlibc : libc.PrintsNumbers) (addr : Address) (workerId : Bytes)
    (batch : List (LeasedJob × Outcome)) (hissued : ∀ p ∈ batch, Issued libc p.1)
    (hresults : ∀ p ∈ batch, p.2.result.Plain) (hlength : batch.length ≤ 256)
    (hreply : (Api.claimReply libc (batch.map Prod.fst)).length ≤ int64Max) :
    (ClaimArrives libc (batch.map Prod.fst) ∧ ∀ p ∈ batch, ReportArrives libc addr workerId p.1 p.2) ↔
      ∀ p ∈ batch, p.1.payload.height ≤ 61 ∧ p.2.result.height ≤ 63 ∧
        (completeRequest libc workerId (.ofLease p.1) p.2).length ≤ maxBodyBytes := by
  have hclaim := readClaim_claimReply hlibc (batch.map Prod.fst) (by rwa [List.forall_mem_map])
    (by rwa [List.length_map])
  rw [List.forall_mem_map] at hclaim
  rw [claimArrives_iff hreply, hclaim, ← forall₂_and]
  refine forall₂_congr fun p hp => and_congr_right fun _ => ?_
  exact reportArrives_iff hlibc addr workerId (hissued p hp) (hresults p hp)

/-- The lease of a job submitted with an argument. -/
def echoLease : LeasedJob where
  jobId := text "j_1"
  type := text "echo"
  payload := .object [(text "n", .int 7)]
  attempt := 1
  leaseToken := 18446744073709551615
  timeoutMs := 0
  leaseExpiresMs := 30000

theorem echoLease_issued : Issued zeroLibc echoLease where
  accepted := by
    refine ⟨text "\x7b\"type\":\"echo\",\"payload\":\x7b\"n\":7\x7d\x7d", _, _, rfl, rfl,
      .object [(text "n", .int 7)] fun m hm => ?_, rfl, rfl, .inl rfl⟩
    rw [List.mem_singleton.mp hm]
    exact .int 7
  attempt := rfl
  timeoutMs := by decide
  leaseExpiresMs := by decide

/-- A coordinator on this machine. -/
def localhost : Address where
  host := text "127.0.0.1"
  port := 8080
  host_clean := by decide
  host_length := by decide
  port_range := by decide

/-- The handler gives the payload back. -/
def echoed : Outcome where
  result := .object [(text "n", .int 7)]

theorem lease_crosses_wire_echo :
    ClaimArrives zeroLibc [echoLease, echoLease] ∧
      ReportArrives zeroLibc localhost (text "w_1") echoLease echoed ∧
      ReportArrives zeroLibc localhost (text "w_1") echoLease { status := .failed, error := text "\"x\"" } := by
  have hempty : (Json.object []).Plain := .object [] (by simp) List.nodup_nil
  have hechoed : echoed.result.Plain := .object _ (by simpa using Json.Plain.int 7 (by decide)) (by simp)
  have hwire := lease_crosses_wire_iff zeroLibc_printsNumbers localhost (text "w_1")
    [(echoLease, echoed), (echoLease, { status := .failed, error := text "\"x\"" })]
    (by simpa using echoLease_issued) (by simpa using ⟨hechoed, hempty⟩) (by decide) (by decide +kernel)
  obtain ⟨hclaim, hreports⟩ := hwire.mpr (by decide +kernel)
  rw [List.forall_mem_cons, List.forall_mem_singleton] at hreports
  exact ⟨hclaim, hreports⟩

theorem plain_nested (n : ℕ) : (Json.nested n).Plain ∧ (Json.nested n).Integral ∧ (Json.nested n).height = n := by
  induction n with
  | zero => exact ⟨.array [] (by simp), .array [] (by simp), rfl⟩
  | succ n ih =>
      refine ⟨.array [Json.nested n] (by simpa using ih.1), .array [Json.nested n] (by simpa using ih.2.1), ?_⟩
      rw [Json.nested, Json.height, Json.heightItems, Json.heightItems, ih.2.2]
      omega

/-- A payload that holds sixty-two brackets, one in the other. -/
def deepPayload : Json := .object [(text "n", Json.nested 61)]

def deepRequest : Json := .object [(text "type", .str (text "echo")), (text "payload", deepPayload)]

def deepLease : LeasedJob := { echoLease with payload := deepPayload }

theorem deepPayload_integral : deepPayload.Integral :=
  .object _ (by simpa using (plain_nested 61).2.1)

theorem deepPayload_plain : deepPayload.Plain :=
  .object _ (by simpa using (plain_nested 61).1) (by simp)

theorem deepPayload_height : deepPayload.height = 62 := by
  rw [deepPayload, Json.height, Json.heightMembers, Json.heightMembers, (plain_nested 61).2.2]
  rfl

/-- The request is accepted: its text is nested to the limit. -/
theorem parse_deepRequest : Json.parse zeroLibc (deepRequest.dump zeroLibc) = .ok deepRequest := by
  have hplain : deepRequest.Plain := by
    refine .object _ ?_ (by simp only [List.map_cons, List.map_nil]; decide)
    simp only [List.forall_mem_cons]
    exact ⟨.str _, deepPayload_plain, by simp⟩
  have hintegral : deepRequest.Integral := by
    refine .object _ ?_
    simp only [List.forall_mem_cons]
    exact ⟨.str _, deepPayload_integral, by simp⟩
  have hheight : deepRequest.height ≤ JsonParser.maxDepth := by
    rw [deepRequest, Json.height, Json.heightMembers, Json.heightMembers, Json.heightMembers, deepPayload_height]
    decide
  rw [Json.dump, Json.parse_dumpInto zeroLibc_printsNumbers 0 hplain hheight, hintegral.reread_eq]

theorem deepLease_issued : Issued zeroLibc deepLease where
  accepted := by
    have hbody : Api.parseBody zeroLibc (deepRequest.dump zeroLibc) = .ok deepRequest := by
      rw [Api.parseBody, parse_deepRequest]
      rfl
    exact ⟨_, _, _, hbody, rfl, deepPayload_integral, rfl, rfl, .inl rfl⟩
  attempt := rfl
  timeoutMs := by decide
  leaseExpiresMs := by decide

/-- A worker that is given this lease and another one in the same reply sees no job at all. -/
theorem lease_crosses_wire_deep :
    Issued zeroLibc deepLease ∧ Issued zeroLibc echoLease ∧ ¬ ClaimArrives zeroLibc [deepLease, echoLease] := by
  refine ⟨deepLease_issued, echoLease_issued, fun harrives => ?_⟩
  have hissued : ∀ lj ∈ [deepLease, echoLease], Issued zeroLibc lj := by
    simp only [List.forall_mem_cons]
    exact ⟨deepLease_issued, echoLease_issued, by simp⟩
  have hread := (claimArrives_iff (by decide +kernel)).mp harrives
  have hheight := (readClaim_claimReply zeroLibc_printsNumbers [deepLease, echoLease] hissued (by decide)).mp hread
    deepLease List.mem_cons_self
  rw [deepLease, deepPayload_height] at hheight
  exact absurd hheight (by decide)

end RemoteWorker

end DistributedJobEngine
