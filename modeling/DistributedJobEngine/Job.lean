import Mathlib.Data.Rat.Floor
import Mathlib.Tactic

/-! The job record, its ten lifecycle states and its retry policy (`job.hpp`, `job.cpp`). Wall and
steady stamps are kept as separate integer fields, as in the source. Exact rationals stand for the
`double` backoff multiplier; a 64-bit random draw is passed in where the source calls `random_u64`. -/

namespace DistributedJobEngine

abbrev JobId := String
abbrev WorkflowId := String
abbrev WorkerId := String

/-- A JSON value. Strings are byte strings, an integer literal keeps its `int64` and any other
number is the bit pattern of its `double`. -/
inductive Json where
  | null
  | bool (value : Bool)
  | int (value : Int)
  | double (bits : BitVec 64)
  | str (bytes : List UInt8)
  | array (items : List Json)
  | object (members : List (List UInt8 × Json))

namespace Json

def isNull : Json → Bool
  | .null => true
  | _ => false

end Json

inductive JobState where
  | pending
  | queued
  | scheduled
  | running
  | retrying
  | succeeded
  | failed
  | timedOut
  | cancelled
  | skipped
  deriving DecidableEq, Repr

namespace JobState

def toString : JobState → String
  | pending => "PENDING"
  | queued => "QUEUED"
  | scheduled => "SCHEDULED"
  | running => "RUNNING"
  | retrying => "RETRYING"
  | succeeded => "SUCCEEDED"
  | failed => "FAILED"
  | timedOut => "TIMED_OUT"
  | cancelled => "CANCELLED"
  | skipped => "SKIPPED"

def allStates : List JobState :=
  [pending, queued, scheduled, running, retrying, succeeded, failed, timedOut, cancelled, skipped]

/-- `state_from_string`: `out` is left alone where the result is none. -/
def fromString (s : String) : Option JobState := allStates.find? fun st => decide (s = st.toString)

theorem fromString_toString (st : JobState) : fromString st.toString = some st := by
  cases st <;> decide

def isTerminal : JobState → Bool
  | succeeded | failed | timedOut | cancelled | skipped => true
  | _ => false

/-- The states of a job that has been handed to the queue and not yet been started. -/
def isWaiting : JobState → Bool
  | queued | scheduled | retrying => true
  | _ => false

/-- The transition table: a state does not go to itself, and a terminal one to none. -/
def isValidTransition (s t : JobState) : Bool :=
  if s = t then false
  else if s.isTerminal then false
  else match s with
    | pending => t = queued || t = scheduled || t = cancelled || t = skipped
    | scheduled => t = queued || t = cancelled || t = skipped
    | queued => t = running || t = cancelled || t = skipped
    | running => t = succeeded || t = retrying || t = failed || t = timedOut || t = cancelled || t = queued
    | retrying => t = queued || t = cancelled || t = failed || t = timedOut || t = skipped
    | _ => false

theorem isWaiting_iff {s : JobState} :
    s.isWaiting = true ↔ s = .queued ∨ s = .scheduled ∨ s = .retrying := by
  cases s <;> simp [isWaiting]

/-- Every state is terminal, waiting in the queue, running or waiting for its parents. -/
theorem trichotomy (s : JobState) :
    s.isTerminal = true ∨ s.isWaiting = true ∨ s = .running ∨ s = .pending := by
  cases s <;> simp [isTerminal, isWaiting]

theorem isTerminal_eq_false_of_isWaiting {s : JobState} (h : s.isWaiting = true) :
    s.isTerminal = false := by
  cases s <;> simp_all [isTerminal, isWaiting]

end JobState

structure RetryPolicy where
  maxAttempts : Int := 1
  backoffBaseMs : Int := 100
  backoffMultiplier : ℚ := 2
  backoffMaxMs : Int := 30000
  jitter : Bool := false

namespace RetryPolicy

/-- The remaining `iterations` of the loop of `delay_after_attempt`; a product that reaches
`backoff_max_ms` ends it. -/
def backoffLoop (p : RetryPolicy) : ℕ → ℚ → ℚ
  | 0, d => d
  | iterations + 1, d =>
      if (p.backoffMaxMs : ℚ) ≤ d * p.backoffMultiplier then d * p.backoffMultiplier
      else backoffLoop p iterations (d * p.backoffMultiplier)

/-- `std::llround`: halfway cases away from zero. -/
def llround (d : ℚ) : Int := if 0 ≤ d then ⌊d + 1 / 2⌋ else -⌊-d + 1 / 2⌋

/-- The end of `delay_after_attempt`, once the product is rounded. -/
def clampDelay (p : RetryPolicy) (rounded : Int) (draw : UInt64) : Int :=
  let delay := max 0 (min rounded p.backoffMaxMs)
  if p.jitter = true ∧ 0 < delay then (draw.toNat : Int) % (delay + 1) else delay

def delayAfterAttempt (p : RetryPolicy) (failedAttempt : Int) (draw : UInt64) : Int :=
  let n := max 1 failedAttempt
  p.clampDelay (llround (p.backoffLoop (n - 1).toNat p.backoffBaseMs)) draw

end RetryPolicy

/-- The job record. The five `Steady` stamps live in memory only. -/
structure Job where
  jobId : JobId
  type : String := ""
  payload : Json := .object []
  priority : Int := 0
  state : JobState := .queued
  attempt : Int := 0
  retry : RetryPolicy := {}
  timeoutMs : Int := 0
  createdAtMs : Int := 0
  startedAtWallMs : Int := 0
  finishedAtWallMs : Int := 0
  readyAtWallMs : Int := 0
  enqueuedAtSteady : Int := 0
  startedAtSteady : Int := 0
  startedAtSteadyUs : Int := 0
  finishedAtSteady : Int := 0
  readyAtSteady : Int := 0
  queueWaitUs : Int := 0
  execUs : Int := 0
  result : Json := .null
  error : String := ""
  workflowId : WorkflowId := ""
  workflowNode : String := ""
  pendingDeps : Int := 0
  leaseToken : UInt64 := 0
  leaseOwner : String := ""
  leaseExpiresMs : Int := 0
  cancelRequested : Bool := false
  seq : Int := 0

namespace Job

/-- The row that `write_job_row_locked` writes: the steady stamps are not columns, and a null payload stands
for the empty object it is read as. The payload and the result are columns of text; what `read_job_row` makes
of a text that does not give the value back is said in `JobRow.readBack`. -/
def persisted (j : Job) : Job :=
  { j with
    enqueuedAtSteady := 0, startedAtSteady := 0, startedAtSteadyUs := 0, finishedAtSteady := 0,
    readyAtSteady := 0, payload := if j.payload.isNull then .object [] else j.payload }

@[simp] theorem persisted_jobId (j : Job) : j.persisted.jobId = j.jobId := rfl
@[simp] theorem persisted_state (j : Job) : j.persisted.state = j.state := rfl

/-- Reading a row back and writing it again changes no column. -/
@[simp] theorem persisted_persisted (j : Job) : j.persisted.persisted = j.persisted := by
  rcases h : j.payload <;> simp [persisted, Json.isNull, h]

end Job

end DistributedJobEngine
