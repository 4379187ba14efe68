import DistributedJobEngine.EngineSubmit

/-! The operations of the engine as threads. A thread is a stack of frames, and a frame is a program point
of the source with its local variables; advancing the top frame runs one store call, one block under a
mutex or one step on an atomic. A frame that `holdsRun` keeps `run_mutex_` until it is done. The frames a
step returns replace the frame it ran. -/

namespace DistributedJobEngine

/-- What `complete` is called with. -/
structure Completion where
  workerId : WorkerId
  jobId : JobId
  attempt : Int
  leaseToken : UInt64
  status : String
  result : Json := .null
  error : String := ""

/-- What a handler returned, or what its exception was turned into. -/
structure Outcome where
  ok : Bool
  result : Json := .null
  error : String := ""

/-- The locals of `skip_descendants`; the back of the `frontier` vector is the head of the list. -/
structure SkipWalk where
  job : Job
  frontier : List JobId := []
  seen : List JobId := []
  toSkip : List Job := []

inductive Frame where
  -- `cancel` and `cancel_workflow`
  | cancel (jobId : JobId)
  | cancelFlag (job : Job)
  | cancelSignal (jobId : JobId)
  | cancelRemove (job : Job)
  | cancelWrite (job : Job)
  | cancelWorkflow (workflowId : WorkflowId)
  | cancelWorkflowWrite (wf : WorkflowRecord)
  | cancelWorkflowNodes (workflowId : WorkflowId)
  | cancelWorkflowDone (workflowId : WorkflowId)
  -- the embedded worker and the remote protocol
  | workerPop (owner : String)
  | claim (workerId : WorkerId) (maxJobs : ℕ)
  | claimFirst (workerId : WorkerId) (maxJobs : ℕ)
  | claimRest (workerId : WorkerId) (maxJobs : ℕ) (first : QueueEntry)
  | registerWorker (name : String) (capacity : Int)
  | heartbeat (workerId : WorkerId)
  | complete (c : Completion)
  | completeRead (c : Completion) (info : RunningInfo) (call : ℕ)
  | reply (call : ℕ) (status : CompleteStatus)
  -- `begin_attempt` and `finish_attempt`
  | start (jobId : JobId) (owner : String) (eligibleAt : Int) (remote : Bool)
  | startWrite (job : Job) (owner : String) (eligibleAt : Int) (remote : Bool)
  | handler (job : Job) (info : RunningInfo)
  | finish (job : Job) (info : RunningInfo) (outcome : Outcome) (call : Option ℕ)
  | finishRecord (job : Job) (info : RunningInfo) (outcome : Outcome)
  | finishRetry (job : Job) (token : UInt64)
  | finishTerminal (job : Job) (token : UInt64)
  -- one pass of `watchdog_loop`
  | watchdog
  | watchdogDead (now : Int) (workerId : WorkerId) (dead : List WorkerId) (expired : List (JobId × UInt64))
  | expire (now : Int) (jobId : JobId) (selected : List UInt64)
  | expireWrite (now : Int) (job : Job)
  -- the end of a job
  | metric (job : Job)
  | callback (job : Job)
  | slot (jobId : JobId) (token : Option UInt64)
  | onTerminal (job : Job)
  | release (parent : JobId)
  | releaseGet (child : JobId)
  | releaseWrite (child : Job)
  | skip (job : Job)
  | skipLoop (w : SkipWalk)
  | skipRemove (w : SkipWalk) (job : Job)
  | skipWrite (w : SkipWalk) (job : Job)
  | skipChildren (w : SkipWalk) (jobId : JobId)
  | skipMetric (jobs : List Job)
  | account (job : Job) (skipped : List JobId)
  | finalize (workflowId : WorkflowId) (failed : Bool)
  | finalizeWrite (wf : WorkflowRecord) (failed : Bool)
  | enqueue (job : Job) (token : Option UInt64)

namespace Frame

/-- The frame starts a block under `run_mutex_`. -/
def needsRun : Frame → Bool
  | cancel _ | claim _ _ | registerWorker _ _ | heartbeat _ | complete _ | start _ _ _ _ | finish _ _ _ _
  | watchdog | watchdogDead _ _ _ _ | expire _ _ _ => true
  | _ => false

/-- The frame is inside a block under `run_mutex_`. -/
def holdsRun : Frame → Bool
  | cancelFlag _ | cancelSignal _ | cancelRemove _ | cancelWrite _ | startWrite _ _ _ _ | expireWrite _ _ => true
  | _ => false

/-- What is left of an operation after it wrote a terminal row. -/
def tail (job : Job) (token : Option UInt64) : List Frame :=
  [metric job, onTerminal job, callback job, slot job.jobId token]

end Frame

/-- What a step takes from outside the process: the handler's outcome, and whether a poll that found
nothing is made again. -/
structure Choice where
  outcome : Outcome := { ok := false }
  again : Bool := false

namespace JobEngine

/-! ### Cancellation -/

/-- `get_job` under `run_mutex_`, and the decision on the state it found. -/
def cancel (e : JobEngine) (jobId : JobId) : List Frame :=
  match e.db.getJob jobId with
  | none => []
  | some job =>
      if job.state.isTerminal then []
      else if job.state = .running then [.cancelFlag job]
      else [.cancelRemove job]

/-- A running job is only flagged; the attempt is finished by its worker. -/
def cancelFlag (e : JobEngine) (job : Job) : JobEngine × List Frame :=
  match e.updateJob { job with cancelRequested := true } with
  | (false, e) => (e, [])
  | (true, e) => (e, [.cancelSignal job.jobId])

def cancelSignal (e : JobEngine) (jobId : JobId) : JobEngine :=
  match e.running.lookup jobId with
  | none => e
  | some info => e.setCell info.cell fun c => { c with reason := .user, flag := true }

def cancelledRow (e : JobEngine) (job : Job) : Job :=
  { job with
    state := .cancelled
    cancelRequested := true
    finishedAtWallMs := e.wallMs
    error := "cancelled by client" }

def cancelWrite (e : JobEngine) (job : Job) : JobEngine × List Frame :=
  let row := e.cancelledRow job
  match e.updateJob row with
  | (false, e) => (e, [])
  | (true, e) => (e, Frame.tail row none)

def cancelWorkflow (e : JobEngine) (workflowId : WorkflowId) : JobEngine × List Frame :=
  match e.db.getWorkflow workflowId with
  | none => (e, [])
  | some wf =>
      if wf.state ≠ .running then (e, [])
      else (e.tick, [.cancelWorkflowWrite { wf with state := .cancelled, finishedAtMs := e.wallMs }])

/-- The workflow becomes terminal first, so that its last node does not label it as failed. -/
def cancelWorkflowWrite (e : JobEngine) (wf : WorkflowRecord) : JobEngine × List Frame :=
  if e.world.fault e.world.pos then (e.tick, [])
  else ({ e.tick with db := e.db.updateWorkflow wf }, [.cancelWorkflowNodes wf.workflowId])

def cancelWorkflowNodes (e : JobEngine) (workflowId : WorkflowId) : List Frame :=
  (((e.db.listWorkflowJobs workflowId).filter fun j => !j.state.isTerminal).map fun j => .cancel j.jobId) ++
    [.cancelWorkflowDone workflowId]

/-! ### Taking entries from the queue -/

def workerPop (e : JobEngine) (again : Bool) (owner : String) : JobEngine × List Frame :=
  match e.queue.poll e.nowMs with
  | (some entry, q) => ({ e.tick with queue := q }, [.start entry.jobId owner entry.eligibleAtSteady false])
  | (none, q) => ({ e.tick with queue := q }, if again then [.workerPop owner] else [])

/-- A claim is a sign of life. -/
def claim (e : JobEngine) (workerId : WorkerId) (maxJobs : ℕ) : JobEngine × List Frame :=
  match e.remoteWorkers.lookup workerId with
  | none => (e, [])
  | some w =>
      let e' := { e.tick with
        remoteWorkers := e.remoteWorkers.insert workerId { w with lastHeartbeatMs := e.wallMs, alive := true } }
      (e', if e.stopRequested ∨ maxJobs = 0 then [] else [.claimFirst workerId maxJobs])

/-- A poll of the waiting loop of `pop_batch`. -/
def claimFirst (e : JobEngine) (again : Bool) (workerId : WorkerId) (maxJobs : ℕ) : JobEngine × List Frame :=
  match e.queue.poll e.nowMs with
  | (some entry, q) => ({ e.tick with queue := q }, [.claimRest workerId maxJobs entry])
  | (none, q) => ({ e.tick with queue := q }, if again then [.claimFirst workerId maxJobs] else [])

/-- The second half of `pop_batch`; every entry of the batch is then started. -/
def claimRest (e : JobEngine) (workerId : WorkerId) (maxJobs : ℕ) (first : QueueEntry) : JobEngine × List Frame :=
  let rest := PriorityJobQueue.drainLoop (maxJobs - 1) (e.queue.promoteMaturedLocked e.nowMs)
  ({ e.tick with queue := rest.2 },
    (first :: rest.1).map fun entry => .start entry.jobId workerId entry.eligibleAtSteady true)

def registerWorker (e : JobEngine) (name : String) (capacity : Int) : JobEngine :=
  let id := e.newId "k_"
  let info : WorkerInfo :=
    { workerId := id, name, capacity := if 0 < capacity then capacity else 1, lastHeartbeatMs := e.wallMs }
  { e.tick with
    remoteWorkers := e.remoteWorkers.insert id info
    metrics := { e.metrics with workersRegistered := e.metrics.workersRegistered + 1 } }

/-- A map over the values of `running_`. -/
def mapRunning (f : RunningInfo → RunningInfo) (running : AList (fun _ : JobId => RunningInfo)) :
    AList (fun _ : JobId => RunningInfo) where
  entries := running.entries.map fun kv => ⟨kv.1, f kv.2⟩
  nodupKeys := by
    have h := running.nodupKeys
    rw [List.NodupKeys, List.keys] at h ⊢
    rw [List.map_map]
    exact h

/-- A live worker keeps its work: the leases it holds are extended. -/
def heartbeat (e : JobEngine) (workerId : WorkerId) : JobEngine :=
  match e.remoteWorkers.lookup workerId with
  | none => e
  | some w =>
      { e.tick with
        remoteWorkers := e.remoteWorkers.insert workerId { w with lastHeartbeatMs := e.wallMs, alive := true }
        running := mapRunning (fun info =>
          if info.remote = true ∧ info.owner = workerId then
            { info with leaseExpiresMs := e.wallMs + e.cfg.leaseDurationMs }
          else info) e.running }

/-! ### The attempt lifecycle -/

/-- `begin_attempt` reads the row; only a waiting job can be started. -/
def start (e : JobEngine) (jobId : JobId) (owner : String) (eligibleAt : Int) (remote : Bool) : List Frame :=
  match e.db.getJob jobId with
  | none => []
  | some job => if job.state.isWaiting then [.startWrite job owner eligibleAt remote] else []

/-- The `RUNNING` row of a new attempt. -/
def startedRow (e : JobEngine) (job : Job) (owner : String) (eligibleAt : Int) (remote : Bool) : Job :=
  { job with
    attempt := job.attempt + 1
    state := .running
    startedAtWallMs := e.wallMs
    startedAtSteady := e.nowMs
    startedAtSteadyUs := e.nowUs
    queueWaitUs := if 0 < eligibleAt then max 0 (e.nowMs - eligibleAt) * 1000 else 0
    leaseToken := e.randomU64 ||| 1
    leaseOwner := owner
    leaseExpiresMs :=
      if remote then
        e.wallMs + if 0 < job.timeoutMs then min e.cfg.leaseDurationMs (job.timeoutMs + 2000)
          else e.cfg.leaseDurationMs
      else 0 }

/-- The lease of a row that was just started; `cell` is its fresh flag and reason. -/
def leaseOf (row : Job) (cell : ℕ) (owner : String) (eligibleAt : Int) (remote : Bool) : RunningInfo where
  cell := cell
  leaseToken := row.leaseToken
  owner := owner
  attempt := row.attempt
  deadlineWallMs := if 0 < row.timeoutMs then row.startedAtWallMs + row.timeoutMs else 0
  leaseExpiresMs := row.leaseExpiresMs
  startedSteady := row.startedAtSteady
  startedSteadyUs := row.startedAtSteadyUs
  startedWall := row.startedAtWallMs
  eligibleAtSteady := eligibleAt
  remote := remote

/-- The row of an attempt that could not be started goes back on the queue as it was. -/
def startFailed (e : JobEngine) (row : Job) : JobEngine × List Frame :=
  (e.logError (.cannotStart row.jobId), [.enqueue { row with state := .queued, attempt := row.attempt - 1 } none])

/-- `running_` gets the lease, and the thread goes on with the handler or, for a remote worker, is done. -/
def startRunning (e : JobEngine) (row : Job) (owner : String) (eligibleAt : Int) (remote : Bool) :
    JobEngine × List Frame :=
  let info := leaseOf row e.cells.length owner eligibleAt remote
  ({ e with
      running := e.running.insert row.jobId info
      cells := e.cells ++ [{}]
      metrics := { e.metrics with
        jobsStarted := e.metrics.jobsStarted + 1
        attemptsStarted := e.metrics.attemptsStarted + 1 }
      ledger := e.ledger ++ [.issued row.leaseToken] },
    if remote then [] else [.handler row info])

def startWrite (e : JobEngine) (job : Job) (owner : String) (eligibleAt : Int) (remote : Bool) :
    JobEngine × List Frame :=
  if job.cancelRequested then
    let row := e.cancelledRow job
    ((e.updateJob row).2, Frame.tail row none)
  else
    let row := e.startedRow job owner eligibleAt remote
    match e.updateJob row with
    | (false, e) => e.startFailed row
    | (true, e) => e.startRunning row owner eligibleAt remote

/-- `execute_entry` after `begin_attempt`: the handler ran, or there is none for the type. -/
def handler (e : JobEngine) (outcome : Outcome) (job : Job) (info : RunningInfo) : List Frame :=
  if job.type ∈ e.types then [.finish job info outcome none]
  else [.finish job info { ok := false, error := "no handler registered for type " ++ job.type } none]

/-- The fence of `finish_attempt`: whoever removes the running entry of the lease may finish it. -/
def finish (e : JobEngine) (job : Job) (info : RunningInfo) (outcome : Outcome) (call : Option ℕ) :
    JobEngine × List Frame :=
  match e.running.lookup job.jobId with
  | some held =>
      if held.leaseToken = info.leaseToken then
        ({ e with running := e.running.erase job.jobId, ledger := e.ledger ++ [.fenced info.leaseToken call] },
          [.finishRecord job info outcome])
      else ({ e with metrics := { e.metrics with staleResultsRejected := e.metrics.staleResultsRejected + 1 } }, [])
  | none => ({ e with metrics := { e.metrics with staleResultsRejected := e.metrics.staleResultsRejected + 1 } }, [])

/-- The verdict on an attempt: the state its job goes to, the status of the attempt and the error. -/
def verdict (reason : CancelReason) (job : Job) (outcome : Outcome) : JobState × String × String :=
  let retry (s : JobState) : JobState := if job.attempt < job.retry.maxAttempts then .retrying else s
  match reason with
  | .user =>
      (.cancelled, "CANCELLED", if outcome.error.isEmpty then "cancelled by client" else outcome.error)
  | .timeout =>
      (retry .timedOut, "TIMED_OUT", "deadline exceeded after " ++ toString job.timeoutMs ++ "ms")
  | _ =>
      if outcome.ok then (.succeeded, "SUCCEEDED", outcome.error) else (retry .failed, "FAILED", outcome.error)

/-- The row `finish_attempt` writes, for the verdict `next` with `error`. -/
def finishedRow (e : JobEngine) (job : Job) (info : RunningInfo) (outcome : Outcome) (next : JobState)
    (error : String) : Job :=
  let job := { job with
    finishedAtWallMs := e.wallMs
    finishedAtSteady := e.nowMs
    execUs := e.nowUs - info.startedSteadyUs
    leaseToken := 0
    leaseExpiresMs := 0
    state := next }
  if next = .retrying then
    { job with
      error := error
      result := .null
      readyAtWallMs := e.wallMs + job.retry.delayAfterAttempt job.attempt e.randomU64
      finishedAtWallMs := 0 }
  else
    { job with
      result := if next = .succeeded then outcome.result else .null
      error := if next = .succeeded then "" else error }

def attemptOf (e : JobEngine) (job : Job) (info : RunningInfo) (status error : String) : AttemptRecord where
  jobId := job.jobId
  attempt := job.attempt
  status := status
  startedMs := info.startedWall
  finishedMs := e.wallMs
  durationMs := (e.nowUs - info.startedSteadyUs).tdiv 1000
  worker := info.owner
  error := error

/-- `finish_attempt` past its fence, up to and including `append_attempt`. -/
def finishRecord (e : JobEngine) (job : Job) (info : RunningInfo) (outcome : Outcome) : JobEngine × List Frame :=
  let (next, status, error) := verdict (e.reasonOf info) job outcome
  let row := e.finishedRow job info outcome next error
  let e' :=
    if e.world.fault e.world.pos then e.tick.logError (.attemptFailed job.jobId)
    else { e.tick with
      db := e.db.appendAttempt (e.attemptOf job info status error)
      ledger := e.ledger ++ [.recorded info.leaseToken] }
  (e', if next = .retrying then [.finishRetry row info.leaseToken] else [.finishTerminal row info.leaseToken])

def finishRetry (e : JobEngine) (job : Job) (token : UInt64) : JobEngine × List Frame :=
  let e := (e.persist job).record (.written token)
  ({ e with metrics := { e.metrics with attemptsRetried := e.metrics.attemptsRetried + 1 } },
    [.enqueue job (some token)])

def finishTerminal (e : JobEngine) (job : Job) (token : UInt64) : JobEngine × List Frame :=
  ((e.persist job).record (.written token), Frame.tail job (some token))

/-- The fencing check of `complete`; the calls are numbered as they make it. -/
def complete (e : JobEngine) (c : Completion) : JobEngine × List Frame :=
  let called := { e with calls := e.calls + 1 }
  let stale :=
    { called with metrics := { e.metrics with staleResultsRejected := e.metrics.staleResultsRejected + 1 } }
  match e.running.lookup c.jobId with
  | none => (stale, [.reply e.calls .staleLease])
  | some info =>
      if info.leaseToken ≠ c.leaseToken ∨ info.owner ≠ c.workerId ∨ info.attempt ≠ c.attempt then
        (stale, [.reply e.calls .staleLease])
      else (called, [.completeRead c info e.calls])

/-- `complete` past its check: it answers that the result is accepted whatever `finish_attempt` does. -/
def completeRead (e : JobEngine) (c : Completion) (info : RunningInfo) (call : ℕ) : JobEngine × List Frame :=
  match e.db.getJob c.jobId with
  | none => (e, [.reply call .notFound])
  | some job =>
      let e :=
        if c.status = "TIMED_OUT" then e.setCell info.cell fun cell => { cell with reason := .timeout }
        else if c.status = "CANCELLED" then e.setCell info.cell fun cell => { cell with reason := .user }
        else e
      (e, [.finish job info ⟨decide (c.status = "SUCCEEDED"), c.result, c.error⟩ (some call), .reply call .accepted])

/-- `release_slot`, on behalf of the lease `token` if the job ended by one. -/
def slot (e : JobEngine) (jobId : JobId) (token : Option UInt64) : JobEngine :=
  let e := e.releaseSlot.record (.slot jobId)
  match token with
  | none => e
  | some t => e.record (.accounted t)

/-- `enqueue`, on behalf of the lease `token` if the job is to be retried. -/
def requeue (e : JobEngine) (job : Job) (token : Option UInt64) : JobEngine :=
  match token with
  | none => e.enqueue job
  | some t => (e.enqueue job).record (.requeued t)

/-! ### The watchdog -/

/-- What the watchdog does once it knows the dead workers: their leases join the expired ones. The tokens
with which a job was selected are not kept by the source, which goes by job ids alone. -/
def reclaim (now : Int) : List WorkerId → List (JobId × UInt64) → List Frame
  | [], expired => ((expired.map Prod.fst).dedup.insertionSort (· ≤ ·)).map fun jobId =>
      .expire now jobId ((expired.filter fun x => x.1 = jobId).map Prod.snd)
  | workerId :: dead, expired => [.watchdogDead now workerId dead expired]

def pastDeadline (e : JobEngine) (now : Int) (info : RunningInfo) : Prop :=
  0 < info.deadlineWallMs ∧ info.deadlineWallMs < now ∧ e.reasonOf info = .none

instance (e : JobEngine) (now : Int) (info : RunningInfo) : Decidable (e.pastDeadline now info) :=
  inferInstanceAs (Decidable (_ ∧ _ ∧ _))

/-- The scan of `running_` and `remote_workers_` under `run_mutex_`. -/
def watchdog (e : JobEngine) : JobEngine × List Frame :=
  let now := e.wallMs
  let late := e.running.entries.filter fun kv => decide (e.pastDeadline now kv.2)
  let expired := e.running.entries.filter fun kv =>
    decide (kv.2.remote = true ∧ 0 < kv.2.leaseExpiresMs ∧ kv.2.leaseExpiresMs < now)
  let dead := e.remoteWorkers.entries.filter fun kv =>
    decide (kv.2.alive = true ∧ e.cfg.workerHeartbeatTimeoutMs < e.wallMs - kv.2.lastHeartbeatMs)
  let e := late.foldl (fun e kv => e.setCell kv.2.cell fun c => { c with reason := .timeout, flag := true }) e.tick
  ({ e with
      remoteWorkers := dead.foldl (fun ws kv => ws.insert kv.1 { kv.2 with alive := false }) e.remoteWorkers
      metrics := { e.metrics with workersMarkedDead := e.metrics.workersMarkedDead + dead.length } },
    reclaim now (dead.map (·.1)) (expired.map fun kv => (kv.1, kv.2.leaseToken)))

/-- A dead worker loses its leases at once. -/
def watchdogDead (e : JobEngine) (now : Int) (workerId : WorkerId) (dead : List WorkerId)
    (expired : List (JobId × UInt64)) : List Frame :=
  let owned := e.running.entries.filter fun kv => decide (kv.2.remote = true ∧ kv.2.owner = workerId)
  reclaim now dead (expired ++ owned.map fun kv => (kv.1, kv.2.leaseToken))

/-- The lease is revoked; any later result of that worker is stale. -/
def expire (e : JobEngine) (now : Int) (jobId : JobId) : JobEngine × List Frame :=
  match e.running.lookup jobId with
  | none => (e, [])
  | some info =>
      ({ e with running := e.running.erase jobId, ledger := e.ledger ++ [.revoked info.leaseToken] },
        match e.db.getJob jobId with
        | none => []
        | some job => if job.state = .running then [.expireWrite now job] else [])

/-- The row of a job whose lease was revoked at `now`. -/
def expiredRow (now : Int) (job : Job) : Job :=
  let job := { job with leaseToken := 0, leaseExpiresMs := 0, leaseOwner := "" }
  if job.retry.maxAttempts ≤ job.attempt then
    { job with
      state := .failed
      error := "lease expired and retry attempts exhausted"
      finishedAtWallMs := now }
  else { job with state := .queued, readyAtWallMs := now, error := "lease expired; reassigned" }

def expireWrite (e : JobEngine) (now : Int) (job : Job) : JobEngine × List Frame :=
  let row := expiredRow now job
  let e := (e.updateJob row).2
  let e := { e with metrics := { e.metrics with leasesExpired := e.metrics.leasesExpired + 1 } }
  if row.state = .failed then (e, Frame.tail row none)
  else
    ({ e with metrics := { e.metrics with jobsReassigned := e.metrics.jobsReassigned + 1 } },
      [.enqueue row none])

/-! ### The end of a job -/

def onTerminal (job : Job) : List Frame :=
  if job.workflowId.isEmpty then []
  else if job.state = .succeeded then [.release job.jobId, .account job []]
  else [.skip job]

/-- One turn of the loop over the children: the counter, and whether it has just reached zero. -/
def releaseChild (acc : AList (fun _ : JobId => Int) × List JobId) (child : JobId) :
    AList (fun _ : JobId => Int) × List JobId :=
  match acc.1.lookup child with
  | none => acc
  | some p =>
      if 0 < p then (acc.1.insert child (p - 1), if p - 1 = 0 then acc.2 ++ [child] else acc.2) else acc

/-- The block of `release_dependents` under `wf_mutex_`. -/
def release (e : JobEngine) (parent : JobId) : JobEngine × List Frame :=
  match e.children.lookup parent with
  | none => (e, [])
  | some children =>
      let acc := children.foldl releaseChild (e.pendingDeps, [])
      ({ e with pendingDeps := acc.1 }, acc.2.map .releaseGet)

def releaseGet (e : JobEngine) (child : JobId) : List Frame :=
  match e.db.getJob child with
  | none => []
  | some job => if job.state = .pending then [.releaseWrite job] else []

def releasedRow (e : JobEngine) (child : Job) : Job :=
  { child with
    state := if e.wallMs < child.readyAtWallMs then .scheduled else .queued
    pendingDeps := 0 }

def releaseWrite (e : JobEngine) (child : Job) : JobEngine × List Frame :=
  let row := e.releasedRow child
  (e.persist row, [.enqueue row none])

/-- `skip_descendants` starts from the children of the job that did not succeed. -/
def skip (e : JobEngine) (job : Job) : List Frame :=
  match e.children.lookup job.jobId with
  | none => [.account job []]
  | some children => [.skipLoop { job, frontier := children.reverse }]

/-- The head of the loop of `skip_descendants`, up to the decision on the row it reads. -/
def skipLoop (e : JobEngine) (w : SkipWalk) : List Frame :=
  match w.frontier with
  | [] =>
      if w.toSkip.isEmpty then [.account w.job []]
      else [.skipMetric w.toSkip, .account w.job (w.toSkip.map (·.jobId))]
  | id :: frontier =>
      if id ∈ w.seen then [.skipLoop { w with frontier }]
      else
        let w := { w with frontier, seen := id :: w.seen }
        match e.db.getJob id with
        | none => [.skipLoop w]
        | some job => if job.state.isTerminal then [.skipChildren w id] else [.skipRemove w job]

def skippedRow (e : JobEngine) (job : Job) : Job :=
  { job with
    state := .skipped
    finishedAtWallMs := e.wallMs
    error := "skipped: an upstream dependency did not succeed" }

def skipWrite (e : JobEngine) (w : SkipWalk) (job : Job) : JobEngine × List Frame :=
  let row := e.skippedRow job
  (e.persist row, [.skipChildren { w with toSkip := w.toSkip ++ [row] } job.jobId])

def skipChildren (e : JobEngine) (w : SkipWalk) (jobId : JobId) : List Frame :=
  [.skipLoop { w with frontier := ((e.children.lookup jobId).getD []).reverse ++ w.frontier }]

def skipMetric (e : JobEngine) (jobs : List Job) : JobEngine × List Frame :=
  ({ e with
      metrics := { e.metrics with jobsSkipped := e.metrics.jobsSkipped + jobs.length }
      ledger := e.ledger ++ jobs.map fun j => .metric j.jobId },
    jobs.flatMap fun j => [.callback j, .slot j.jobId none])

/-- The block of `on_terminal` under `wf_mutex_`: completion is decided by a counter. -/
def account (e : JobEngine) (job : Job) (skipped : List JobId) : JobEngine × List Frame :=
  let units : Int := 1 + skipped.length
  let w := job.workflowId
  let failures :=
    if job.state = .succeeded then e.wfFailures
    else e.wfFailures.insert w ((e.wfFailures.lookup w).getD 0 + units)
  match e.wfRemaining.lookup w with
  | none => ({ e with wfFailures := failures }, [])
  | some r =>
      let e := { e with ledger := e.ledger ++ (job.jobId :: skipped).map Receipt.unit }
      if r - units ≤ 0 then
        ({ e with wfRemaining := e.wfRemaining.erase w, wfFailures := failures.erase w },
          [.finalize w (decide (0 < (failures.lookup w).getD 0))])
      else ({ e with wfRemaining := e.wfRemaining.insert w (r - units), wfFailures := failures }, [])

/-- A workflow cancelled by a client is already terminal and is not relabelled. -/
def finalize (e : JobEngine) (workflowId : WorkflowId) (failed : Bool) : List Frame :=
  if workflowId.isEmpty then []
  else match e.db.getWorkflow workflowId with
    | none => []
    | some wf => if wf.state = .running then [.finalizeWrite wf failed] else []

def finalizeWrite (e : JobEngine) (wf : WorkflowRecord) (failed : Bool) : JobEngine :=
  let done := { wf with state := if failed then .failed else .succeeded, finishedAtMs := e.wallMs }
  let m := e.metrics
  { e.tick with
    db := if e.world.fault e.world.pos then e.db else e.db.updateWorkflow done
    metrics :=
      if failed then { m with workflowsFailed := m.workflowsFailed + 1 }
      else { m with workflowsSucceeded := m.workflowsSucceeded + 1 } }

/-- One step of the frame on top of a thread. -/
def advance (e : JobEngine) (c : Choice) : Frame → JobEngine × List Frame
  | .cancel jobId => (e, e.cancel jobId)
  | .cancelFlag job => e.cancelFlag job
  | .cancelSignal jobId => (e.cancelSignal jobId, [])
  | .cancelRemove job => ({ e with queue := (e.queue.remove job.jobId).2 }, [.cancelWrite job])
  | .cancelWrite job => e.cancelWrite job
  | .cancelWorkflow workflowId => e.cancelWorkflow workflowId
  | .cancelWorkflowWrite wf => e.cancelWorkflowWrite wf
  | .cancelWorkflowNodes workflowId => (e, e.cancelWorkflowNodes workflowId)
  | .cancelWorkflowDone workflowId => (e.record (.cancelled workflowId), [])
  | .workerPop owner => e.workerPop c.again owner
  | .claim workerId maxJobs => e.claim workerId maxJobs
  | .claimFirst workerId maxJobs => e.claimFirst c.again workerId maxJobs
  | .claimRest workerId maxJobs first => e.claimRest workerId maxJobs first
  | .registerWorker name capacity => (e.registerWorker name capacity, [])
  | .heartbeat workerId => (e.heartbeat workerId, [])
  | .complete msg => e.complete msg
  | .completeRead msg info call => e.completeRead msg info call
  | .reply call status => (e.record (.replied call status), [])
  | .start jobId owner eligibleAt remote => (e, e.start jobId owner eligibleAt remote)
  | .startWrite job owner eligibleAt remote => e.startWrite job owner eligibleAt remote
  | .handler job info => (e, e.handler c.outcome job info)
  | .finish job info outcome call => e.finish job info outcome call
  | .finishRecord job info outcome => e.finishRecord job info outcome
  | .finishRetry job token => e.finishRetry job token
  | .finishTerminal job token => e.finishTerminal job token
  | .watchdog => e.watchdog
  | .watchdogDead now workerId dead expired => (e, e.watchdogDead now workerId dead expired)
  | .expire now jobId _ => e.expire now jobId
  | .expireWrite now job => e.expireWrite now job
  | .metric job => ({ e with metrics := e.metrics.countTerminal job.state }.record (.metric job.jobId), [])
  | .callback job => ({ e with completions := e.completions ++ [job] }.record (.callback job.jobId), [])
  | .slot jobId token => (e.slot jobId token, [])
  | .onTerminal job => (e, onTerminal job)
  | .release parent => e.release parent
  | .releaseGet child => (e, e.releaseGet child)
  | .releaseWrite child => e.releaseWrite child
  | .skip job => (e, e.skip job)
  | .skipLoop w => (e, e.skipLoop w)
  | .skipRemove w job => ({ e with queue := (e.queue.remove job.jobId).2 }, [.skipWrite w job])
  | .skipWrite w job => e.skipWrite w job
  | .skipChildren w jobId => (e, e.skipChildren w jobId)
  | .skipMetric jobs => e.skipMetric jobs
  | .account job skipped => e.account job skipped
  | .finalize workflowId failed => (e, e.finalize workflowId failed)
  | .finalizeWrite wf failed => (e.finalizeWrite wf failed, [])
  | .enqueue job token => (e.requeue job token, [])

end JobEngine

end DistributedJobEngine
