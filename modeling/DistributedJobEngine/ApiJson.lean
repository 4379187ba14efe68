import DistributedJobEngine.EngineSubmit
import DistributedJobEngine.JsonShape

/-! Typed access to JSON values, and how the API router reads the body of a request. The strings of the
engine's model stand for byte strings, one character for each byte. -/

namespace DistributedJobEngine

/-- The string of the given bytes. -/
def ofBytes (s : Bytes) : String := String.ofList (s.map fun c => Char.ofNat c.toNat)

/-- `static_cast<int>` of an `int64_t`. -/
def toInt32 (v : Int) : Int := v.bmod (2 ^ 32)

namespace Json

def isObject : Json → Bool
  | .object _ => true
  | _ => false

def find (key : Bytes) : Json → Option Json
  | .object members => (members.find? fun m => decide (m.1 = key)).map Prod.snd
  | _ => none

def set (j : Json) (key : Bytes) (value : Json) : Json :=
  match j with
  | .object members => .object (JsonParser.setMember key value members)
  | _ => .object [(key, value)]

def asBool (default : Bool) : Json → Bool
  | .bool b => b
  | _ => default

def asDouble (libc : Libc) (default : ℚ) : Json → ℚ
  | .int v => v
  | .double bits => libc.toRat bits
  | _ => default

def asInt (libc : Libc) (default : Int) : Json → Int
  | .int v => v
  | .double bits => if isFinite bits then libc.truncate bits else default
  | _ => default

def getInt (libc : Libc) (key : Bytes) (default : Int) (j : Json) : Int :=
  match j.find key with
  | some v => v.asInt libc default
  | none => default

def getDouble (libc : Libc) (key : Bytes) (default : ℚ) (j : Json) : ℚ :=
  match j.find key with
  | some v => v.asDouble libc default
  | none => default

def getBool (key : Bytes) (default : Bool) (j : Json) : Bool :=
  match j.find key with
  | some v => v.asBool default
  | none => default

def getString (key default : Bytes) (j : Json) : Bytes :=
  match j.find key with
  | some (.str s) => s
  | _ => default

/-- The items of an array, none for any other value. -/
def items : Json → List Json
  | .array items => items
  | _ => []

/-- An object with the given members, set in order. -/
def build (members : List (Bytes × Json)) : Json :=
  members.foldl (fun j m => j.set m.1 m.2) (.object [])

end Json

namespace Api

/-- `parse_body`: an error is a status and a message. -/
def parseBody (libc : Libc) (body : Bytes) : Except (ℕ × String) Json :=
  if body.isEmpty then .error (400, "request body is required and must be a JSON object")
  else
    match Json.parse libc body with
    | .error e => .error (400, "invalid JSON: " ++ e)
    | .ok j => if j.isObject then .ok j else .error (400, "request body must be a JSON object")

/-- The payload of a submission: an object if there is one, and the empty object otherwise. -/
def readPayload (body : Json) : Except String Json :=
  match body.find (text "payload") with
  | none => .ok (.object [])
  | some payload => if payload.isObject then .ok payload else .error "field 'payload' must be an object"

def readRetry (libc : Libc) (body : Json) : Except String RetryPolicy :=
  let maxAttempts := body.getInt libc (text "max_attempts") 1
  if maxAttempts < 1 ∨ 100 < maxAttempts then .error "field 'max_attempts' must be between 1 and 100"
  else
    let backoffBaseMs := body.getInt libc (text "backoff_base_ms") 100
    let backoffMultiplier := body.getDouble libc (text "backoff_multiplier") 2
    let backoffMaxMs := body.getInt libc (text "backoff_max_ms") 30000
    let jitter := body.getBool (text "backoff_jitter") false
    if backoffBaseMs < 0 ∨ backoffMaxMs < 0 then .error "backoff values must not be negative"
    else if backoffMultiplier < 1 then .error "field 'backoff_multiplier' must be >= 1.0"
    else .ok { maxAttempts := toInt32 maxAttempts, backoffBaseMs, backoffMultiplier, backoffMaxMs, jitter }

def readSubmitRequest (libc : Libc) (body : Json) : Except String SubmitRequest := do
  let type := body.getString (text "type") []
  if type.isEmpty then .error "field 'type' is required and must be a string"
  else
    let payload ← readPayload body
    let priority := toInt32 (body.getInt libc (text "priority") 0)
    let retry ← readRetry libc body
    let timeoutMs := body.getInt libc (text "timeout_ms") 0
    if timeoutMs < 0 then .error "field 'timeout_ms' must not be negative"
    else
      let delayMs := body.getInt libc (text "delay_ms") 0
      if delayMs < 0 then .error "field 'delay_ms' must not be negative"
      else .ok { type := ofBytes type, payload, priority, retry, timeoutMs, delayMs }

variable {libc : Libc} {body : Json}

/-- Where the numbers of an accepted retry policy come from, and their bounds. -/
structure RetryRead (libc : Libc) (body : Json) (p : RetryPolicy) : Prop where
  maxAttempts : p.maxAttempts = body.getInt libc (text "max_attempts") 1
  backoffBaseMs : p.backoffBaseMs = body.getInt libc (text "backoff_base_ms") 100
  backoffMaxMs : p.backoffMaxMs = body.getInt libc (text "backoff_max_ms") 30000
  attempts_pos : 1 ≤ p.maxAttempts
  attempts_le : p.maxAttempts ≤ 100
  base_nonneg : 0 ≤ p.backoffBaseMs
  max_nonneg : 0 ≤ p.backoffMaxMs

theorem toInt32_of_mem {v : Int} (hlo : -2 ^ 31 ≤ v) (hhi : v < 2 ^ 31) : toInt32 v = v := by
  unfold toInt32
  exact Int.bmod_eq_of_le (by omega) (by omega)

theorem readRetry_ok {p : RetryPolicy} (h : readRetry libc body = .ok p) : RetryRead libc body p := by
  unfold readRetry at h
  dsimp only at h
  split_ifs at h with hattempts hbackoff hmult
  obtain rfl := Except.ok.inj h
  rw [not_or, not_lt, not_lt] at hattempts hbackoff
  have hint := toInt32_of_mem (v := body.getInt libc (text "max_attempts") 1) (by omega) (by omega)
  exact ⟨hint, rfl, rfl, hint.symm ▸ hattempts.1, hint.symm ▸ hattempts.2, hbackoff.1, hbackoff.2⟩

/-- Where the parts of an accepted submission come from, and the bounds of its times. -/
structure SubmitRead (libc : Libc) (body : Json) (req : SubmitRequest) : Prop where
  payload : readPayload body = .ok req.payload
  priority : req.priority = toInt32 (body.getInt libc (text "priority") 0)
  retry : RetryRead libc body req.retry
  timeoutMs : req.timeoutMs = body.getInt libc (text "timeout_ms") 0
  delayMs : req.delayMs = body.getInt libc (text "delay_ms") 0
  timeout_nonneg : 0 ≤ req.timeoutMs
  delay_nonneg : 0 ≤ req.delayMs

theorem readSubmitRequest_ok {req : SubmitRequest} (h : readSubmitRequest libc body = .ok req) :
    SubmitRead libc body req := by
  unfold readSubmitRequest at h
  simp only [bind, Except.bind] at h
  split at h
  · cases h
  · cases hread : readPayload body with
    | error e =>
        rw [hread] at h
        cases h
    | ok payload =>
        rw [hread] at h
        cases hretry : readRetry libc body with
        | error e =>
            rw [hretry] at h
            cases h
        | ok retry =>
            rw [hretry] at h
            simp only at h
            split_ifs at h with htimeout hdelay
            obtain rfl := Except.ok.inj h
            exact ⟨hread, rfl, readRetry_ok hretry, rfl, rfl, not_lt.mp htimeout, not_lt.mp hdelay⟩

end Api

end DistributedJobEngine
