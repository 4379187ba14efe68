import DistributedJobEngine.EngineBoard

/-! Each frame of an operation on a single job makes one move: cancellation, the queue, the attempt
lifecycle and the watchdog. -/

namespace DistributedJobEngine

open Due Window

namespace JobEngine

variable {e : JobEngine}

/-- The step from `e` at frame `f` to `r` is a move on the dues of `f`, some of which it may leave alone. -/
def Simulates (e : JobEngine) (f : Frame) (r : JobEngine × List Frame) : Prop :=
  ∃ d d' x, f.dues = d + x ∧ duesOf r.2 = d' + x ∧ Move e.board d r.1.board d'

theorem Simulates.of_move {f : Frame} {r : JobEngine × List Frame} {d d' : Multiset Due} {b : Board}
    (hd : f.dues = d) (hd' : duesOf r.2 = d') (hb : r.1.board = b) (h : Move e.board d b d') : e.Simulates f r :=
  ⟨d, d', 0, by rw [hd, add_zero], by rw [hd', add_zero], by rw [hb]; exact h⟩

/-- A step that changes neither the board nor the dues. -/
theorem Simulates.idle {f : Frame} {r : JobEngine × List Frame} (hb : r.1.board = e.board)
    (hd : duesOf r.2 = f.dues) : e.Simulates f r :=
  ⟨f.dues, f.dues, 0, by rw [add_zero], by rw [hd, add_zero], by rw [hb]; exact .idle⟩

/-! ### Cancellation -/

theorem cancel_simulates (jobId : JobId) : e.Simulates (.cancel jobId) (e, e.cancel jobId) := by
  unfold cancel
  cases hget : e.db.getJob jobId with
  | none => exact .idle rfl rfl
  | some job =>
      have hrow := board_row_of_getJob hget
      cases hend : job.state.isTerminal with
      | true => exact .idle rfl (by simp [hend, Frame.dues])
      | false =>
          simp only [hend, Bool.false_eq_true, if_false]
          split_ifs
          · exact .of_move rfl (add_zero _) rfl (.openCancel hrow hend)
          · exact .of_move rfl (add_zero _) rfl (.openCancel hrow hend)

theorem cancelFlag_simulates (hr : e.Reliable) {job : Job} (hp : (Frame.cancelFlag job).Proper) :
    e.Simulates (.cancelFlag job) (e.cancelFlag job) := by
  unfold cancelFlag
  rw [updateJob_of_reliable hr]
  exact .of_move rfl rfl (board_updateJob _) (.flag hp)

theorem cancelSignal_simulates (jobId : JobId) : e.Simulates (.cancelSignal jobId) (e.cancelSignal jobId, []) := by
  refine .idle ?_ rfl
  unfold cancelSignal
  cases e.running.lookup jobId <;> rfl

theorem cancelRemove_simulates (hq : e.queue.Consistent) (job : Job) :
    e.Simulates (.cancelRemove job) ({ e with queue := (e.queue.remove job.jobId).2 }, [.cancelWrite job]) := by
  exact .of_move rfl (add_zero _) (board_queue (hq.remove_live job.jobId).2) (.unqueue (.inl rfl))

theorem cancelWrite_simulates (hr : e.Reliable) {job : Job} (hp : (Frame.cancelWrite job).Proper) :
    e.Simulates (.cancelWrite job) (e.cancelWrite job) := by
  unfold cancelWrite
  simp only [updateJob_of_reliable hr]
  exact .of_move rfl (duesOf_tail _ _) (board_updateJob _) (.conclude ⟨hp, rfl⟩ rfl)

theorem getWorkflow_workflowId {w : WorkflowId} {wf : WorkflowRecord} (h : e.db.getWorkflow w = some wf) :
    wf.workflowId = w :=
  LibTable.Table.key_of_lookup h

theorem cancelWorkflow_simulates (w : WorkflowId) : e.Simulates (.cancelWorkflow w) (e.cancelWorkflow w) := by
  unfold cancelWorkflow
  cases hget : e.db.getWorkflow w with
  | none => exact .idle rfl rfl
  | some wf =>
      have hw := getWorkflow_workflowId hget
      subst hw
      by_cases hrun : wf.state = .running
      · simp only [hrun, ne_eq, not_true_eq_false, if_false]
        refine .of_move rfl (add_zero _) rfl (.openRelabel ?_)
        change (e.db.getWorkflow wf.workflowId).map _ = _
        rw [hget, Option.map_some, hrun]
      · simp only [ne_eq, hrun, not_false_eq_true, if_true]
        exact .idle rfl rfl

/-- Writing a workflow record sets its state on the board. -/
theorem board_updateWorkflow (wf : WorkflowRecord) :
    ({ e with db := e.db.updateWorkflow wf } : JobEngine).board =
      { e.board with
        record := Function.update e.board.record wf.workflowId
          ((e.board.record wf.workflowId).map fun _ => wf.state) } := by
  unfold Database.updateWorkflow
  cases hget : e.db.workflows.lookup wf.workflowId with
  | none =>
      apply Board.ext <;> try rfl
      have hnone : e.board.record wf.workflowId = none := by
        change (e.db.workflows.lookup wf.workflowId).map _ = none
        rw [hget]
        rfl
      funext v
      by_cases hv : v = wf.workflowId
      · subst hv
        simp [hnone]
      · simp [hv]
  | some old =>
      have hold : old.workflowId = wf.workflowId := LibTable.Table.key_of_lookup hget
      apply Board.ext <;> try rfl
      funext v
      change ((e.db.workflows.update _).lookup v).map _ = Function.update e.board.record wf.workflowId
        ((e.board.record wf.workflowId).map fun _ => wf.state) v
      rw [LibTable.Table.lookup_update]
      by_cases hv : v = wf.workflowId
      · subst hv
        rw [if_pos hold, hget]
        simp only [Function.update_self, board, Database.getWorkflow, hget]
        rfl
      · rw [if_neg fun h => hv (h.symm.trans hold), Function.update_of_ne hv]
        rfl

theorem cancelWorkflowWrite_simulates (hr : e.Reliable) {wf : WorkflowRecord}
    (hp : (Frame.cancelWorkflowWrite wf).Proper) :
    e.Simulates (.cancelWorkflowWrite wf) (e.cancelWorkflowWrite wf) := by
  unfold cancelWorkflowWrite
  rw [hr e.world.pos]
  have hb := board_updateWorkflow (e := e.tick) wf
  rw [show wf.state = .cancelled from hp] at hb
  exact .of_move rfl (add_zero _) hb .relabel

theorem cancelWorkflowNodes_simulates (w : WorkflowId) :
    e.Simulates (.cancelWorkflowNodes w) (e, e.cancelWorkflowNodes w) := by
  refine .idle rfl ?_
  have hzero : ∀ jobs : List Job, duesOf (jobs.map fun j => Frame.cancel j.jobId) = 0 := by
    intro jobs
    induction jobs with
    | nil => rfl
    | cons j jobs ih => rw [List.map_cons, duesOf_cons, ih]; rfl
  rw [cancelWorkflowNodes, duesOf_append, hzero, zero_add]
  rfl

theorem cancelWorkflowDone_simulates (w : WorkflowId) :
    e.Simulates (.cancelWorkflowDone w) (e.record (.cancelled w), []) := by
  refine .of_move rfl rfl (b := { e.board with cancelled := e.board.cancelled + {w} }) ?_ .cancelled
  rw [record, board_ledger]
  apply Board.ext <;> first | rfl | exact add_zero _

/-! ### Taking entries from the queue -/

theorem duesOf_starts (entries : List QueueEntry) (owner : String) (remote : Bool) :
    duesOf (entries.map fun x => Frame.start x.jobId owner x.eligibleAtSteady remote) =
      ((entries.map (·.jobId)).map Due.held : List Due) := by
  induction entries with
  | nil => rfl
  | cons x entries ih =>
      rw [List.map_cons, duesOf_cons, ih, List.map_cons, List.map_cons, ← Multiset.cons_coe,
        ← Multiset.singleton_add]
      rfl

/-- A poll whose entry goes to `next`, or that may be made again. -/
theorem poll_simulates (hq : e.queue.Consistent) (now : Int) {f : Frame} (hf : f.dues = 0)
    (next : QueueEntry → List Frame) (again : List Frame) (hnext : ∀ x, duesOf (next x) = {Due.held x.jobId})
    (hagain : duesOf again = 0) :
    e.Simulates f (match e.queue.poll now with
      | (some entry, q) => ({ e.tick with queue := q }, next entry)
      | (none, q) => ({ e.tick with queue := q }, again)) := by
  obtain ⟨-, hlive, hmem⟩ := hq.poll_live now
  rcases hpoll : e.queue.poll now with ⟨r, q⟩
  rw [hpoll] at hlive hmem
  cases r with
  | none =>
      refine .idle ?_ (hagain.trans hf.symm)
      have hsame : q.live = e.queue.live := by simpa using hlive
      exact board_queue (e := e.tick) hsame
  | some x =>
      have hpop : q.live = e.board.live \ [x.jobId].toFinset := by
        rw [hlive]
        simp [board]
      refine .of_move hf (hnext x) (board_queue (e := e.tick) hpop) (.pop (List.nodup_singleton x.jobId) ?_)
      intro j hj
      rw [List.mem_singleton.mp hj]
      exact hmem x rfl

theorem workerPop_simulates (hq : e.queue.Consistent) (again : Bool) (owner : String) :
    e.Simulates (.workerPop owner) (e.workerPop again owner) := by
  refine poll_simulates hq e.nowMs rfl (fun x => [.start x.jobId owner x.eligibleAtSteady false]) _
    (fun x => add_zero _) ?_
  cases again <;> rfl

theorem claimFirst_simulates (hq : e.queue.Consistent) (again : Bool) (workerId : WorkerId) (maxJobs : ℕ) :
    e.Simulates (.claimFirst workerId maxJobs) (e.claimFirst again workerId maxJobs) := by
  refine poll_simulates hq e.nowMs rfl (fun x => [.claimRest workerId maxJobs x]) _ (fun x => add_zero _) ?_
  cases again <;> rfl

theorem claim_simulates (workerId : WorkerId) (maxJobs : ℕ) :
    e.Simulates (.claim workerId maxJobs) (e.claim workerId maxJobs) := by
  unfold claim
  cases e.remoteWorkers.lookup workerId with
  | none => exact .idle rfl rfl
  | some w =>
      refine .idle rfl ?_
      dsimp only
      split_ifs <;> rfl

theorem claimRest_simulates (hq : e.queue.Consistent) (workerId : WorkerId) (maxJobs : ℕ) (first : QueueEntry) :
    e.Simulates (.claimRest workerId maxJobs first) (e.claimRest workerId maxJobs first) := by
  have hp := PriorityJobQueue.promoteMaturedLocked_promoted hq e.nowMs
  obtain ⟨-, hlive, hnodup, hmem⟩ :=
    PriorityJobQueue.Consistent.drainLoop_live (maxJobs - 1) _ hp.consistent
  rw [hp.live_eq hq] at hlive hmem
  refine ⟨0, (((PriorityJobQueue.drainLoop (maxJobs - 1) (e.queue.promoteMaturedLocked e.nowMs)).1.map
    (·.jobId)).map Due.held : List Due), {Due.held first.jobId}, (zero_add _).symm, ?_, ?_⟩
  · rw [claimRest, duesOf_starts, List.map_cons, List.map_cons, ← Multiset.cons_coe, ← Multiset.singleton_add,
      add_comm]
  · have hb := board_queue (e := e.tick) hlive
    rw [claimRest, hb]
    exact .pop hnodup hmem

/-! ### The remote protocol -/

theorem registerWorker_simulates (name : String) (capacity : Int) :
    e.Simulates (.registerWorker name capacity) (e.registerWorker name capacity, []) :=
  .idle rfl rfl

theorem lookup_mapRunning (f : RunningInfo → RunningInfo) (running : AList fun _ : JobId => RunningInfo)
    (j : JobId) : (mapRunning f running).lookup j = (running.lookup j).map f := by
  have hlist : ∀ l : List (Σ _ : JobId, RunningInfo),
      (l.map fun kv => (⟨kv.1, f kv.2⟩ : Σ _ : JobId, RunningInfo)).dlookup j = (l.dlookup j).map f := by
    intro l
    induction l with
    | nil => rfl
    | cons kv l ih =>
        rcases kv with ⟨k, info⟩
        by_cases hk : j = k
        · subst hk
          simp
        · rw [List.map_cons, List.dlookup_cons_ne _ _ hk, List.dlookup_cons_ne _ _ hk, ih]
  exact hlist running.entries

theorem heartbeat_simulates (workerId : WorkerId) : e.Simulates (.heartbeat workerId) (e.heartbeat workerId, []) := by
  refine .idle ?_ rfl
  unfold heartbeat
  cases e.remoteWorkers.lookup workerId with
  | none => rfl
  | some w =>
      apply Board.ext <;> try rfl
      funext j
      change ((mapRunning _ e.running).lookup j).map _ = (e.running.lookup j).map _
      rw [lookup_mapRunning, Option.map_map]
      congr 1
      funext info
      simp only [Function.comp_apply]
      split_ifs <;> rfl

theorem isSome_lease {j : JobId} {info : RunningInfo} (h : e.running.lookup j = some info) :
    (e.board.lease j).isSome := by
  change ((e.running.lookup j).map _).isSome
  rw [h]
  rfl

theorem complete_simulates (c : Completion) : e.Simulates (.complete c) (e.complete c) := by
  unfold complete
  dsimp only
  cases hl : e.running.lookup c.jobId with
  | none => exact .idle rfl rfl
  | some info =>
      dsimp only
      split_ifs
      · exact .idle rfl rfl
      · exact .of_move rfl (add_zero _) rfl (.accept (isSome_lease hl))

theorem reply_simulates (call : ℕ) (status : CompleteStatus) :
    e.Simulates (.reply call status) (e.record (.replied call status), []) :=
  .idle (board_ledger_of_nil rfl rfl rfl rfl rfl) rfl

theorem completeRead_simulates (c : Completion) (info : RunningInfo) (call : ℕ) :
    e.Simulates (.completeRead c info call) (e.completeRead c info call) := by
  unfold completeRead
  cases hget : e.db.getJob c.jobId with
  | none => exact .of_move rfl rfl rfl .dropSeek
  | some job =>
      have hrow := board_row_of_getJob hget
      rw [getJob_jobId hget] at hrow
      refine .of_move rfl ?_ ?_ (Move.readCopy hrow)
      · simp [Frame.dues, getJob_jobId hget]
      · dsimp only
        split_ifs <;> rfl

/-! ### The attempt lifecycle -/

theorem start_simulates (jobId : JobId) (owner : String) (eligibleAt : Int) (remote : Bool) :
    e.Simulates (.start jobId owner eligibleAt remote) (e, e.start jobId owner eligibleAt remote) := by
  unfold start
  cases hget : e.db.getJob jobId with
  | none =>
      refine .of_move rfl rfl rfl (.dropStart fun r hr => ?_)
      rw [board_row, hget] at hr
      cases hr
  | some job =>
      have hid := getJob_jobId hget
      subst hid
      have hrow := board_row_of_getJob hget
      cases hwait : job.state.isWaiting with
      | true =>
          simp only [hwait, if_true]
          exact .of_move rfl (add_zero _) rfl (.openStart hrow hwait)
      | false =>
          simp only [hwait, Bool.false_eq_true, if_false]
          refine .of_move rfl rfl rfl (.dropStart fun r hr => ?_)
          rw [hrow, Option.some.injEq] at hr
          rw [← hr]
          exact hwait

theorem board_startRunning (row : Job) (owner : String) (eligibleAt : Int) (remote : Bool) :
    (e.startRunning row owner eligibleAt remote).1.board =
      { e.board with
        lease := Function.update e.board.lease row.jobId (some (row.stub.token, row.stub.attempt)) } := by
  apply Board.ext
  case lease =>
    exact lookup_insert_update e.running row.jobId (Option.map fun info => (info.leaseToken, info.attempt)) _
  all_goals first | rfl | exact (receipts_append _ _).trans (add_zero _)

theorem startWrite_simulates (hr : e.Reliable) (job : Job) (owner : String) (eligibleAt : Int) (remote : Bool) :
    e.Simulates (.startWrite job owner eligibleAt remote) (e.startWrite job owner eligibleAt remote) := by
  unfold startWrite
  by_cases hc : job.cancelRequested = true
  · simp only [hc, if_true]
    exact .of_move rfl (duesOf_tail _ _) (board_updateJob_eq hr _) (.conclude (k := .start) rfl rfl)
  · simp only [hc, Bool.false_eq_true, if_false, updateJob_of_reliable hr]
    refine .of_move rfl rfl ?_ (.launch (s := (e.startedRow job owner eligibleAt remote).stub) rfl rfl rfl ?_)
    · rw [board_startRunning, board_updateJob]
      rfl
    · cases remote
      · exact .inr (add_zero _)
      · exact .inl rfl

theorem handler_simulates (outcome : Outcome) (job : Job) (info : RunningInfo) :
    e.Simulates (.handler job info) (e, e.handler outcome job info) := by
  refine .idle rfl ?_
  unfold handler
  split_ifs <;> exact add_zero _

theorem board_fence (jobId : JobId) {r : Receipt} {t : UInt64}
    (hr : (∃ call, r = .fenced t call) ∨ r = .revoked t) :
    ({ e with running := e.running.erase jobId, ledger := e.ledger ++ [r] } : JobEngine).board =
      e.board.unlease jobId := by
  rw [← board_unlease]
  rcases hr with ⟨call, rfl⟩ | rfl <;>
    exact board_ledger_of_nil (e := { e with running := e.running.erase jobId }) rfl rfl rfl rfl rfl

theorem finish_simulates (job : Job) (info : RunningInfo) (outcome : Outcome) (call : Option ℕ) :
    e.Simulates (.finish job info outcome call) (e.finish job info outcome call) := by
  unfold finish
  cases hl : e.running.lookup job.jobId with
  | none => exact .of_move rfl rfl rfl .dropCopy
  | some held =>
      dsimp only
      split_ifs
      · exact .of_move rfl (add_zero _) (board_fence _ (.inl ⟨call, rfl⟩)) (.fence (isSome_lease hl))
      · exact .of_move rfl rfl rfl .dropCopy

theorem finishedRow_base (job : Job) (info : RunningInfo) (outcome : Outcome) (next : JobState) (error : String) :
    (e.finishedRow job info outcome next error).jobId = job.jobId ∧
      (e.finishedRow job info outcome next error).stub.base = job.stub.base := by
  unfold finishedRow
  dsimp only
  split_ifs <;> exact ⟨rfl, rfl⟩

theorem finishRecord_simulates (job : Job) (info : RunningInfo) (outcome : Outcome) :
    e.Simulates (.finishRecord job info outcome) (e.finishRecord job info outcome) := by
  rcases hv : verdict (e.reasonOf info) job outcome with ⟨next, status, error⟩
  obtain ⟨hid, hbase⟩ := finishedRow_base (e := e) job info outcome next error
  refine .idle ?_ ?_
  · simp only [finishRecord]
    split_ifs
    · rfl
    · exact board_ledger_of_nil (e := { e.tick with db := e.db.appendAttempt _ }) rfl rfl rfl rfl rfl
  · simp only [finishRecord, hv]
    split_ifs <;> simp [Frame.dues, hid, hbase]

theorem finishRetry_simulates (hr : e.Reliable) {job : Job} {token : UInt64}
    (hp : (Frame.finishRetry job token).Proper) :
    e.Simulates (.finishRetry job token) (e.finishRetry job token) := by
  refine .of_move rfl (add_zero _) ?_ (.retry (s := job.stub) hp rfl rfl)
  rw [← board_persist hr]
  exact board_ledger_of_nil (e := e.persist job) rfl rfl rfl rfl rfl

theorem finishTerminal_simulates (hr : e.Reliable) {job : Job} {token : UInt64}
    (hp : (Frame.finishTerminal job token).Proper) :
    e.Simulates (.finishTerminal job token) (e.finishTerminal job token) := by
  refine .of_move (add_zero _).symm (duesOf_tail _ _) ?_ (.conclude (k := .finish) (s := job.stub) hp rfl)
  rw [← board_persist hr]
  exact board_ledger_of_nil (e := e.persist job) rfl rfl rfl rfl rfl

/-! ### The watchdog -/

theorem duesOf_eq_zero {fs : List Frame} (h : ∀ f ∈ fs, f.dues = 0) : duesOf fs = 0 := by
  induction fs with
  | nil => rfl
  | cons f fs ih =>
      rw [duesOf_cons, h f (List.mem_cons_self ..), ih fun g hg => h g (List.mem_cons_of_mem _ hg), add_zero]

theorem duesOf_reclaim (now : Int) (dead : List WorkerId) (expired : List (JobId × UInt64)) :
    duesOf (reclaim now dead expired) = 0 := by
  cases dead with
  | nil =>
      refine duesOf_eq_zero fun f hf => ?_
      obtain ⟨j, -, rfl⟩ := List.mem_map.mp hf
      rfl
  | cons w dead => rfl

theorem board_setCells (late : List (Σ _ : JobId, RunningInfo)) :
    (late.foldl (fun e kv => e.setCell kv.2.cell fun c => { c with reason := .timeout, flag := true }) e).board =
      e.board := by
  induction late generalizing e with
  | nil => rfl
  | cons kv late ih => exact ih

theorem watchdog_simulates : e.Simulates .watchdog e.watchdog := by
  refine .idle ?_ (duesOf_reclaim _ _ _)
  have h := board_setCells (e := e.tick)
    (e.running.entries.filter fun kv => decide (e.pastDeadline e.wallMs kv.2))
  exact h

theorem watchdogDead_simulates (now : Int) (workerId : WorkerId) (dead : List WorkerId)
    (expired : List (JobId × UInt64)) :
    e.Simulates (.watchdogDead now workerId dead expired) (e, e.watchdogDead now workerId dead expired) :=
  .idle rfl (duesOf_reclaim _ _ _)

theorem expire_simulates (now : Int) (jobId : JobId) (selected : List UInt64) :
    e.Simulates (.expire now jobId selected) (e.expire now jobId) := by
  unfold expire
  cases hl : e.running.lookup jobId with
  | none => exact .idle rfl rfl
  | some info =>
      have hlease := isSome_lease hl
      cases hget : e.db.getJob jobId with
      | none =>
          refine .of_move rfl rfl (board_fence _ (.inr rfl)) (.dropLease hlease fun r hr => ?_)
          rw [board_row, hget] at hr
          cases hr
      | some job =>
          have hid := getJob_jobId hget
          subst hid
          have hrow := board_row_of_getJob hget
          by_cases hrun : job.state = .running
          · simp only [hrun, if_true]
            exact .of_move rfl (add_zero _) (board_fence _ (.inr rfl)) (.openExpire hlease hrow hrun)
          · simp only [hrun, if_false]
            refine .of_move rfl rfl (board_fence _ (.inr rfl)) (.dropLease hlease fun r hr => ?_)
            rw [hrow, Option.some.injEq] at hr
            rw [← hr]
            exact hrun

theorem expireWrite_simulates (hr : e.Reliable) (now : Int) (job : Job) :
    e.Simulates (.expireWrite now job) (e.expireWrite now job) := by
  have hid : (expiredRow now job).jobId = job.jobId := by
    unfold expiredRow
    dsimp only
    split_ifs <;> rfl
  have hb := board_updateJob_eq hr (expiredRow now job)
  rw [hid] at hb
  by_cases hlast : job.retry.maxAttempts ≤ job.attempt
  · have hrow : (expiredRow now job).state = .failed := by simp [expiredRow, hlast]
    have hwf : (expiredRow now job).stub.workflowId = job.stub.workflowId := by simp [expiredRow, hlast, Job.stub]
    refine .of_move (add_zero _).symm ?_ ?_ (.conclude (k := .expire) (s := (expiredRow now job).stub) hrow hwf)
    · simp only [expireWrite, hrow, if_true, duesOf_tail, hid]
    · simp only [expireWrite, hrow, if_true]
      exact hb
  · have hrow : (expiredRow now job).state = .queued := by simp [expiredRow, hlast]
    have hwf : (expiredRow now job).stub.workflowId = job.stub.workflowId := by simp [expiredRow, hlast, Job.stub]
    have hdeps : (expiredRow now job).stub.deps = job.stub.deps := by simp [expiredRow, hlast, Job.stub]
    refine .of_move rfl ?_ ?_ (.reassign (s := (expiredRow now job).stub) hrow hwf hdeps)
    · simp [expireWrite, hrow, Frame.dues, hid]
    · simp only [expireWrite, hrow, reduceCtorEq, if_false]
      exact hb

end JobEngine

end DistributedJobEngine
