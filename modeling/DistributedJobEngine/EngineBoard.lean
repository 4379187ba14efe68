import DistributedJobEngine.EngineFrames
import DistributedJobEngine.BoardAccounting
import DistributedJobEngine.QueueLive
import DistributedJobEngine.LibPool

/-! The engine as a board, and what its frames owe. A write of the store, a block under a mutex and the
bookkeeping of a job's end change the board as one `Move`; `EngineMoves` shows it frame by frame. -/

namespace DistributedJobEngine

open Due Window

namespace Receipt

def slotOf : Receipt → Option JobId
  | slot j => some j
  | _ => none

def callbackOf : Receipt → Option JobId
  | callback j => some j
  | _ => none

def metricOf : Receipt → Option JobId
  | metric j => some j
  | _ => none

def unitOf : Receipt → Option JobId
  | unit j => some j
  | _ => none

def cancelledOf : Receipt → Option WorkflowId
  | cancelled w => some w
  | _ => none

end Receipt

namespace JobEngine

/-- The receipts of one kind. -/
def receipts {α : Type} (e : JobEngine) (f : Receipt → Option α) : Multiset α := (e.ledger.filterMap f : List α)

def board (e : JobEngine) : Board where
  ids := (e.db.jobs.rows.map Job.jobId).toFinset
  row j := (e.db.getJob j).map Job.stub
  deps := e.db.loadAllDependencies.toFinset
  children j := (e.children.lookup j).getD []
  pending j := (e.pendingDeps.lookup j).getD 0
  lease j := (e.running.lookup j).map fun info => (info.leaseToken, info.attempt)
  live := e.queue.live
  outstanding := e.outstanding
  remaining w := e.wfRemaining.lookup w
  failures w := (e.wfFailures.lookup w).getD 0
  tally := e.metrics.terminal
  slots := e.receipts Receipt.slotOf
  callbacks := e.receipts Receipt.callbackOf
  counted := e.receipts Receipt.metricOf
  units := e.receipts Receipt.unitOf
  record w := (e.db.getWorkflow w).map (·.state)
  cancelled := e.receipts Receipt.cancelledOf

end JobEngine

/-- What is owed for the descendants `js` that a walk has skipped. -/
def skippedDues (js : List JobId) (w : WorkflowId) : Multiset Due :=
  (js.map Due.metric : List Due) + (js.map Due.callback : List Due) + (js.map Due.slot : List Due) +
    (js.map (Due.unit · w true) : List Due)

namespace SkipWalk

def dues (w : SkipWalk) : Multiset Due :=
  {Due.unit w.job.jobId w.job.workflowId true} +
    (w.frontier.map (Due.doomed · w.job.workflowId) : List Due) + (w.seen.map Due.closed : List Due) +
    skippedDues (w.toSkip.map (·.jobId)) w.job.workflowId

end SkipWalk

namespace Frame

/-- What is left of `on_terminal` once the row `s` of `j` is written. -/
def nodeDues (j : JobId) (s : Stub) : Multiset Due :=
  if s.workflowId = "" then 0
  else if s.state = .succeeded then {.unit j s.workflowId false, .unreleased j}
  else {.unit j s.workflowId true, .expand j s.workflowId}

def dues : Frame → Multiset Due
  | cancelFlag job | cancelRemove job => {.window .cancel job.jobId job.stub}
  | cancelWrite job => {.window .cancel job.jobId job.stub} + Window.cancel.entry job.jobId job.stub
  | cancelWorkflowWrite wf => {.relabel wf.workflowId}
  | cancelWorkflowNodes workflowId | cancelWorkflowDone workflowId => {.cancelling workflowId}
  | claimRest _ _ first => {.held first.jobId}
  | completeRead c _ _ => {.seek c.jobId}
  | start jobId _ _ _ => {.held jobId}
  | startWrite job _ _ _ => {.window .start job.jobId job.stub, .held job.jobId}
  | handler job _ | finish job _ _ _ => {.copy job.jobId job.stub.base}
  | finishRecord job _ _ | finishRetry job _ | finishTerminal job _ => {.window .finish job.jobId job.stub.base}
  | expireWrite _ job => {.window .expire job.jobId job.stub}
  | metric job => {.metric job.jobId}
  | callback job => {.callback job.jobId}
  | slot jobId _ => {.slot jobId}
  | onTerminal job => nodeDues job.jobId job.stub
  | release parent => {.unreleased parent}
  | releaseGet child => {.ready child}
  | releaseWrite child => {.window .release child.jobId child.stub}
  | skip job => {.expand job.jobId job.workflowId} + {.unit job.jobId job.workflowId true}
  | skipLoop w => w.dues
  | skipRemove w job | skipWrite w job =>
      {.window .skip job.jobId job.stub, .doomed job.jobId w.job.workflowId} + w.dues
  | skipChildren w jobId => {.expand jobId w.job.workflowId} + w.dues
  | skipMetric jobs =>
      (jobs.map fun j => Due.metric j.jobId : List Due) + (jobs.map fun j => Due.callback j.jobId : List Due) +
        (jobs.map fun j => Due.slot j.jobId : List Due)
  | account job skipped =>
      ((job.jobId :: skipped).map (.unit · job.workflowId (decide (job.state ≠ .succeeded))) : List Due)
  | finalize workflowId failed => {.verdict workflowId failed}
  | finalizeWrite wf failed => {.verdict wf.workflowId failed}
  | enqueue job _ => {.requeue job.jobId}
  | _ => 0

/-- What the locals of a frame always satisfy. -/
def Proper : Frame → Prop
  | cancelFlag job => job.state = .running
  | cancelRemove job | cancelWrite job => job.state ≠ .running
  | cancelWorkflowWrite wf => wf.state = .cancelled
  | finishRetry job _ => job.state = .retrying
  | finishTerminal job _ | metric job => job.state.isTerminal = true ∧ job.state ≠ .skipped
  | skip job => job.state ≠ .succeeded
  | skipLoop w | skipRemove w _ | skipWrite w _ | skipChildren w _ => w.job.state ≠ .succeeded
  | _ => True

end Frame

/-- The dues of a list of frames. -/
def duesOf (fs : List Frame) : Multiset Due := (fs.map Frame.dues).sum

@[simp] theorem duesOf_nil : duesOf [] = 0 := rfl

@[simp] theorem duesOf_cons (f : Frame) (fs : List Frame) : duesOf (f :: fs) = f.dues + duesOf fs := by
  simp [duesOf]

theorem duesOf_append (fs gs : List Frame) : duesOf (fs ++ gs) = duesOf fs + duesOf gs := by
  simp [duesOf]

theorem duesOf_tail (job : Job) (token : Option UInt64) :
    duesOf (Frame.tail job token) = job.stub.endDues job.jobId := by
  simp only [Frame.tail, duesOf_cons, duesOf_nil, Frame.dues, Frame.nodeDues, Stub.endDues]
  split_ifs <;> simp only [Multiset.insert_eq_cons, ← Multiset.singleton_add] <;> abel

namespace JobEngine

variable {e : JobEngine}

/-- No write of the store fails. -/
def Reliable (e : JobEngine) : Prop := ∀ n, e.world.fault n = false

/-! ### The board after the pieces of a step -/

theorem receipts_append {α : Type} (f : Receipt → Option α) (l : List Receipt) :
    ({ e with ledger := e.ledger ++ l } : JobEngine).receipts f = e.receipts f + (l.filterMap f : List α) := by
  simp [receipts]

/-- New receipts join those of their kind. -/
theorem board_ledger (l : List Receipt) :
    ({ e with ledger := e.ledger ++ l } : JobEngine).board =
      { e.board with
        slots := e.board.slots + (l.filterMap Receipt.slotOf : List JobId)
        callbacks := e.board.callbacks + (l.filterMap Receipt.callbackOf : List JobId)
        counted := e.board.counted + (l.filterMap Receipt.metricOf : List JobId)
        units := e.board.units + (l.filterMap Receipt.unitOf : List JobId)
        cancelled := e.board.cancelled + (l.filterMap Receipt.cancelledOf : List WorkflowId) } := by
  apply Board.ext <;> first | rfl | exact receipts_append _ l

/-- The receipts of a lease are not on the board. -/
theorem board_ledger_of_nil {l : List Receipt} (hslot : l.filterMap Receipt.slotOf = [])
    (hcallback : l.filterMap Receipt.callbackOf = []) (hmetric : l.filterMap Receipt.metricOf = [])
    (hunit : l.filterMap Receipt.unitOf = []) (hcancelled : l.filterMap Receipt.cancelledOf = []) :
    ({ e with ledger := e.ledger ++ l } : JobEngine).board = e.board := by
  rw [board_ledger, hslot, hcallback, hmetric, hunit, hcancelled]
  apply Board.ext <;> first | rfl | exact add_zero _

theorem updateJob_of_reliable (h : e.Reliable) (job : Job) :
    e.updateJob job =
      (true, { e.tick with db := e.db.updateJob job, journal := e.journal ++ [.update job] }) := by
  rw [updateJob, h e.world.pos]
  rfl

theorem persist_of_reliable (h : e.Reliable) (job : Job) :
    e.persist job = { e.tick with db := e.db.updateJob job, journal := e.journal ++ [.update job] } := by
  rw [persist, updateJob_of_reliable h]

/-- Writing a row of the store writes it on the board. -/
theorem board_updateJob (job : Job) :
    ({ e.tick with db := e.db.updateJob job, journal := e.journal ++ [.update job] } : JobEngine).board =
      e.board.write job.jobId job.stub := by
  have hrow : ∀ i, ((e.db.updateJob job).getJob i).map Job.stub =
      Function.update e.board.row job.jobId ((e.board.row job.jobId).map fun _ => job.stub) i := by
    intro i
    rw [show (e.db.updateJob job).getJob i = (e.db.jobs.update job.persisted).lookup i from rfl,
      LibTable.Table.lookup_update]
    by_cases hij : i = job.jobId
    · subst hij
      rw [Function.update_self]
      change Option.map Job.stub (if job.jobId = job.jobId then _ else _) = _
      rw [if_pos rfl]
      simp only [board, Database.getJob, Option.map_map]
      rfl
    · rw [Function.update_of_ne hij, if_neg fun h => hij h.symm]
      rfl
  have hids : ((e.db.updateJob job).jobs.rows.map Job.jobId).toFinset = e.board.ids := by
    change ((e.db.jobs.update job.persisted).rows.map Job.jobId).toFinset = _
    rw [LibTable.Table.update, LibTable.Table.map_key_updateRows]
    rfl
  apply Board.ext <;> first | rfl | exact hids | exact funext hrow

theorem board_updateJob_eq (h : e.Reliable) (job : Job) :
    (e.updateJob job).2.board = e.board.write job.jobId job.stub := by
  rw [updateJob_of_reliable h]
  exact board_updateJob job

theorem board_persist (h : e.Reliable) (job : Job) :
    (e.persist job).board = e.board.write job.jobId job.stub := by
  rw [persist_of_reliable h]
  exact board_updateJob job

theorem board_queue {q : PriorityJobQueue} {live : Finset JobId} (h : q.live = live) :
    ({ e with queue := q } : JobEngine).board = { e.board with live } := by
  subst h
  rfl

theorem board_row (jobId : JobId) : e.board.row jobId = (e.db.getJob jobId).map Job.stub := rfl

theorem getJob_jobId {jobId : JobId} {job : Job} (h : e.db.getJob jobId = some job) : job.jobId = jobId :=
  LibTable.Table.key_of_lookup h

theorem board_row_of_getJob {jobId : JobId} {job : Job} (h : e.db.getJob jobId = some job) :
    e.board.row job.jobId = some job.stub := by
  rw [getJob_jobId h, board_row, h]
  rfl

section Maps

variable {α β γ : Type} [DecidableEq α] (m : AList fun _ : α => β) (k : α) (f : Option β → γ)

/-- A view of a map after one of its entries was set. -/
theorem lookup_insert_update (v : β) :
    (fun i => f ((m.insert k v).lookup i)) = Function.update (fun i => f (m.lookup i)) k (f (some v)) := by
  funext i
  by_cases hi : i = k
  · subst hi
    rw [AList.lookup_insert, Function.update_self]
  · rw [AList.lookup_insert_ne hi, Function.update_of_ne hi]

theorem lookup_erase_update :
    (fun i => f ((m.erase k).lookup i)) = Function.update (fun i => f (m.lookup i)) k (f none) := by
  funext i
  by_cases hi : i = k
  · subst hi
    rw [AList.lookup_erase, Function.update_self]
  · rw [AList.lookup_erase_ne hi, Function.update_of_ne hi]

end Maps

theorem board_unlease (jobId : JobId) :
    ({ e with running := e.running.erase jobId } : JobEngine).board = e.board.unlease jobId := by
  apply Board.ext <;> try rfl
  exact lookup_erase_update e.running jobId (Option.map fun info => (info.leaseToken, info.attempt))

end JobEngine

end DistributedJobEngine
