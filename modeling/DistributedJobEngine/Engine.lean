import DistributedJobEngine.Database
import DistributedJobEngine.Queue
import Mathlib.Data.List.AList

/-! The state of `JobEngine` and the pieces its operations are made of. What the process reads from
outside (clocks, random numbers, failing writes) comes from a `World` of streams; every read moves its
position on. The `journal` and the `ledger` are ghosts: the row writes in issue order, and for which job
or lease each effect was. -/

namespace DistributedJobEngine

structure EngineConfig where
  maxOutstandingJobs : ℕ := 100000
  leaseDurationMs : Int := 30000
  workerHeartbeatTimeoutMs : Int := 6000
  nodeName : String := "coordinator"

inductive CancelReason where
  | none | timeout | user | leaseExpired
  deriving DecidableEq, Repr

/-- The pair of atomics that `running_` shares with the thread that runs the attempt. -/
structure CancelCell where
  flag : Bool := false
  reason : CancelReason := .none
  deriving DecidableEq, Repr

/-- `cell` is the place of the shared flag and reason in `JobEngine.cells`. -/
structure RunningInfo where
  cell : ℕ := 0
  leaseToken : UInt64 := 0
  owner : String := ""
  attempt : Int := 0
  deadlineWallMs : Int := 0
  leaseExpiresMs : Int := 0
  startedSteady : Int := 0
  startedSteadyUs : Int := 0
  startedWall : Int := 0
  eligibleAtSteady : Int := 0
  remote : Bool := false
  deriving DecidableEq, Repr

structure WorkerInfo where
  workerId : WorkerId
  name : String := ""
  capacity : Int := 1
  lastHeartbeatMs : Int := 0
  alive : Bool := true
  deriving DecidableEq, Repr

structure Metrics where
  jobsSubmitted : ℕ := 0
  jobsStarted : ℕ := 0
  jobsSucceeded : ℕ := 0
  jobsFailed : ℕ := 0
  jobsTimedOut : ℕ := 0
  jobsCancelled : ℕ := 0
  jobsSkipped : ℕ := 0
  attemptsStarted : ℕ := 0
  attemptsRetried : ℕ := 0
  jobsRejectedQueueFull : ℕ := 0
  leasesExpired : ℕ := 0
  jobsReassigned : ℕ := 0
  staleResultsRejected : ℕ := 0
  workersRegistered : ℕ := 0
  workersMarkedDead : ℕ := 0
  workflowsCreated : ℕ := 0
  workflowsSucceeded : ℕ := 0
  workflowsFailed : ℕ := 0
  deriving DecidableEq, Repr

namespace Metrics

/-- The counter `finish_attempt` and the other paths increment for a job that ended in `s`. -/
def countTerminal (m : Metrics) : JobState → Metrics
  | .succeeded => { m with jobsSucceeded := m.jobsSucceeded + 1 }
  | .failed => { m with jobsFailed := m.jobsFailed + 1 }
  | .timedOut => { m with jobsTimedOut := m.jobsTimedOut + 1 }
  | .cancelled => { m with jobsCancelled := m.jobsCancelled + 1 }
  | _ => m

/-- All terminal counters together. -/
def terminal (m : Metrics) : ℕ :=
  m.jobsSucceeded + m.jobsFailed + m.jobsTimedOut + m.jobsCancelled + m.jobsSkipped

end Metrics

/-- Lines of the error log. -/
inductive LogLine where
  | persistFailed (jobId : JobId)
  | queueFull (jobId : JobId)
  | attemptFailed (jobId : JobId)
  | cannotStart (jobId : JobId)
  deriving DecidableEq, Repr

/-- What the process reads from outside: one stream per source, read at a common position. `lag` is the time
that passes between the two clock readings of `enqueue`, and `fault` says whether a write of the store
fails. -/
structure World where
  wall : ℕ → Int := fun _ => 0
  steady : ℕ → Int := fun _ => 0
  lag : ℕ → Int := fun _ => 0
  us : ℕ → Int := fun _ => 0
  draw : ℕ → UInt64 := fun _ => 0
  suffix : ℕ → String := fun n => toString n
  fault : ℕ → Bool := fun _ => false
  pos : ℕ := 0

/-- A write of job rows; a workflow's rows and edges are one transaction. -/
inductive RowWrite where
  | insert (job : Job)
  | update (job : Job)
  | insertWorkflow (wf : WorkflowRecord) (nodes : List Job) (edges : List (JobId × JobId))

/-- What `complete` answers. -/
inductive CompleteStatus where
  | accepted | staleLease | notFound
  deriving DecidableEq, Repr

/-- The effects that are to happen once: those of a lease, those of a job's end, the answer to a call of
`complete` and the cancellation of a workflow. A lease that was fenced by a call of `complete` names it. -/
inductive Receipt where
  | issued (token : UInt64)
  | revoked (token : UInt64)
  | fenced (token : UInt64) (call : Option ℕ)
  | recorded (token : UInt64)
  | written (token : UInt64)
  | requeued (token : UInt64)
  | accounted (token : UInt64)
  | slot (jobId : JobId)
  | callback (jobId : JobId)
  | metric (jobId : JobId)
  | unit (jobId : JobId)
  | replied (call : ℕ) (status : CompleteStatus)
  | cancelled (workflowId : WorkflowId)
  deriving DecidableEq, Repr

structure JobEngine where
  cfg : EngineConfig := {}
  db : Database := {}
  types : List String := []
  metrics : Metrics := {}
  queue : PriorityJobQueue := { capacity := cfg.maxOutstandingJobs }
  stopRequested : Bool := false
  seqCounter : Int := 1
  outstanding : ℕ := 0
  running : AList (fun _ : JobId => RunningInfo) := ∅
  remoteWorkers : AList (fun _ : WorkerId => WorkerInfo) := ∅
  children : AList (fun _ : JobId => List JobId) := ∅
  pendingDeps : AList (fun _ : JobId => Int) := ∅
  wfNodes : AList (fun _ : WorkflowId => Finset JobId) := ∅
  wfRemaining : AList (fun _ : WorkflowId => Int) := ∅
  wfFailures : AList (fun _ : WorkflowId => Int) := ∅
  cells : List CancelCell := []
  world : World := {}
  log : List LogLine := []
  completions : List Job := []
  journal : List RowWrite := []
  ledger : List Receipt := []
  calls : ℕ := 0

namespace JobEngine

/-- The next reads find the streams one position further on. -/
def tick (e : JobEngine) : JobEngine := { e with world := { e.world with pos := e.world.pos + 1 } }

def wallMs (e : JobEngine) : Int := e.world.wall e.world.pos
def nowMs (e : JobEngine) : Int := e.world.steady e.world.pos
def nowUs (e : JobEngine) : Int := e.world.us e.world.pos
def randomU64 (e : JobEngine) : UInt64 := e.world.draw e.world.pos

/-- `new_id`: `kind` is `"j_"` or `"w_"`. -/
def newId (e : JobEngine) (kind : String) : String := kind ++ e.world.suffix e.world.pos

def record (e : JobEngine) (r : Receipt) : JobEngine := { e with ledger := e.ledger ++ [r] }

def logError (e : JobEngine) (line : LogLine) : JobEngine := { e with log := e.log ++ [line] }

/-- `update_job` of the store. -/
def updateJob (e : JobEngine) (job : Job) : Bool × JobEngine :=
  if e.world.fault e.world.pos then (false, e.tick)
  else (true, { e.tick with db := e.db.updateJob job, journal := e.journal ++ [.update job] })

def persist (e : JobEngine) (job : Job) : JobEngine :=
  match e.updateJob job with
  | (true, e) => e
  | (false, e) => e.logError (.persistFailed job.jobId)

/-- A compare-and-swap loop: `none` at capacity. -/
def reserveSlot (e : JobEngine) : Option JobEngine :=
  if e.cfg.maxOutstandingJobs ≤ e.outstanding then none
  else some { e with outstanding := e.outstanding + 1 }

/-- `fetch_sub` on a `size_t`. -/
def releaseSlot (e : JobEngine) : JobEngine :=
  { e with outstanding := if e.outstanding = 0 then 2 ^ 64 - 1 else e.outstanding - 1 }

/-- `ready_at` is stored as wall clock and converted to the steady timeline the queue schedules on. The
steady clock is read before the wall clock. -/
def readySteady (e : JobEngine) (job : Job) : Int :=
  let nowWall := e.wallMs + e.world.lag e.world.pos
  if nowWall < job.readyAtWallMs then e.nowMs + (job.readyAtWallMs - nowWall) else e.nowMs

def enqueue (e : JobEngine) (job : Job) : JobEngine :=
  let ready := e.readySteady job
  let e := e.tick
  let pushed := e.queue.push e.nowMs job.jobId job.priority ready
  let e := { e.tick with queue := pushed.2 }
  if pushed.1 = .full then e.logError (.queueFull job.jobId) else e

/-- The shared reason of an attempt. -/
def reasonOf (e : JobEngine) (info : RunningInfo) : CancelReason := (e.cells.getD info.cell {}).reason

def setCell (e : JobEngine) (cell : ℕ) (f : CancelCell → CancelCell) : JobEngine :=
  { e with cells := e.cells.modify cell f }

end JobEngine

end DistributedJobEngine
