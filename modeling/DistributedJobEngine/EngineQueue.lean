import DistributedJobEngine.EngineClock
import DistributedJobEngine.EngineKinds
import DistributedJobEngine.EngineRecover

/-! What a step does to the queue: it takes entries, removes one or, in `enqueue`, adds one. -/

namespace DistributedJobEngine

open LibTable

namespace JobEngine

variable {e e' : JobEngine}

theorem Flows.monotone (h : e.Flows e') (hw : Monotone e.world.steady) : Monotone e'.world.steady := by
  rw [h.1]
  exact hw

theorem Flows.nowMs_le (h : e.Flows e') (hw : Monotone e.world.steady) : e.nowMs ≤ e'.nowMs := by
  have hle := hw h.2
  unfold nowMs
  rw [h.1]
  exact hle

/-- What a step does to the queue. -/
inductive QueueStep (e : JobEngine) (f : Frame) (e' : JobEngine) : Prop
  | same (h : e'.queue = e.queue)
  | removed (j : JobId) (h : e'.queue = (e.queue.remove j).2)
  | polled (h : e'.queue = (e.queue.poll e.nowMs).2)
  | drained (n : ℕ) (h : e'.queue = (PriorityJobQueue.drainLoop n (e.queue.promoteMaturedLocked e.nowMs)).2)
  | pushed (job : Job) (token : Option UInt64) (hf : f = .enqueue job token) (h : e'.queue = (e.enqueue job).queue)

theorem queue_persist (job : Job) : (e.persist job).queue = e.queue := by
  unfold persist updateJob
  split_ifs <;> rfl

theorem advance_queue (c : Choice) (f : Frame) : e.QueueStep f (e.advance c f).1 := by
  cases f with
  | cancelRemove job => exact .removed job.jobId rfl
  | skipRemove w job => exact .removed job.jobId rfl
  | workerPop owner =>
      refine .polled ?_
      simp only [advance, workerPop]
      split <;> simp_all
  | claimFirst workerId maxJobs =>
      refine .polled ?_
      simp only [advance, claimFirst]
      split <;> simp_all
  | claimRest workerId maxJobs first => exact .drained (maxJobs - 1) rfl
  | enqueue job token =>
      refine .pushed job token rfl ?_
      cases token <;> rfl
  | finishRetry job token => exact .same (queue_persist job)
  | finishTerminal job token => exact .same (queue_persist job)
  | releaseWrite job => exact .same (queue_persist _)
  | skipWrite w job => exact .same (queue_persist _)
  | watchdog =>
      obtain ⟨cells, ws, n, h⟩ := exists_watchdog (e := e)
      refine .same ?_
      simp only [advance, h]
      rfl
  | startWrite _ _ _ _ | expireWrite _ _ | cancelFlag _ | cancelWrite _ =>
      refine .same ?_
      cases hfault : e.world.fault e.world.pos <;>
        simp only [advance, startWrite, expireWrite, cancelFlag, cancelWrite, updateJob, hfault, if_true,
          Bool.false_eq_true, if_false]
      all_goals (repeat' split) <;> rfl
  | slot jobId token => exact .same (by cases token <;> rfl)
  | finishRecord _ _ _ | account _ _ | cancelSignal _ | cancelWorkflow _ | cancelWorkflowWrite _ | claim _ _
  | heartbeat _ | complete _ | completeRead _ _ _ | finish _ _ _ _ | expire _ _ _ | release _ =>
      refine .same ?_
      simp only [advance, finishRecord, account, cancelSignal, cancelWorkflow, cancelWorkflowWrite, claim, heartbeat,
        complete, completeRead, finish, expire, release]
      (repeat' split) <;> rfl
  | _ => exact .same rfl

/-- No step adds an entry but `enqueue`. -/
theorem QueueStep.lookup {f : Frame} {j : JobId} {a : MapEntry} (h : e.QueueStep f e') (hq : e.queue.Consistent)
    (hripe : e.queue.Ripe e.nowMs) (ha : e'.queue.toMap.entries.lookup j = some a) :
    e.queue.toMap.entries.lookup j = some a ∨
      ∃ job token, f = .enqueue job token ∧ job.jobId = j ∧ a.readyAtMs = e.readySteady job := by
  cases h with
  | same h =>
      rw [h] at ha
      exact .inl ha
  | removed i h =>
      rw [h, (hq.toMap_remove i).2] at ha
      exact .inl (MapQueue.lookup_drop.mp ha).1
  | polled h =>
      obtain ⟨-, -, hpoll⟩ := PriorityJobQueue.poll_refines hq hripe
      rw [h] at ha
      cases hr : (e.queue.poll e.nowMs).1 with
      | none =>
          rw [hr] at hpoll
          rw [MapQueue.poll_none hpoll] at ha
          exact .inl ha
      | some entry =>
          rw [hr] at hpoll
          rw [hpoll.2.2] at ha
          exact .inl (MapQueue.lookup_drop.mp ha).1
  | drained n h =>
      obtain ⟨-, -, hfirst⟩ := PriorityJobQueue.drain_refines hq hripe n
      rw [h, hfirst.left] at ha
      exact .inl (MapQueue.lookup_of_foldl_drop ha)
  | pushed job token hf h =>
      rw [h] at ha
      refine (entry_enqueue hq ha).imp_right fun ⟨hid, ha⟩ => ⟨job, token, hf, hid, ?_⟩
      rw [ha]

theorem ripe_enqueue {job : Job} {t : Int} (hripe : e.queue.Ripe t) (ht : e.tick.nowMs ≤ t) :
    (e.enqueue job).queue.Ripe t := by
  intro x hx
  rw [queue_enqueue] at hx
  rcases PriorityJobQueue.mem_ready_push hx with hx | hx
  · exact hripe x hx
  · exact hx.trans ht

/-- The push of `enqueue` reads the clock between the conversion and what comes after. -/
theorem nowMs_enqueue (hw : Monotone e.world.steady) (job : Job) : e.tick.nowMs ≤ (e.enqueue job).nowMs := by
  have hlater : e.tick.Flows (e.enqueue job) := by
    unfold enqueue
    dsimp only
    split <;> exact ⟨rfl, Nat.le_succ _⟩
  exact hlater.nowMs_le ((tick_flows e).monotone hw)

/-- Nothing gets into the ready heap before its time. -/
theorem QueueStep.ripe {f : Frame} (h : e.QueueStep f e') (hq : e.queue.Consistent) (hw : Monotone e.world.steady)
    (hflows : e.Flows e') (hpos : ∀ job token, f = .enqueue job token → e.tick.nowMs ≤ e'.nowMs)
    (hripe : e.queue.Ripe e.nowMs) : e'.queue.Ripe e'.nowMs := by
  have hle := hflows.nowMs_le hw
  cases h with
  | same h =>
      rw [h]
      exact hripe.mono hle
  | removed i h =>
      have hready : (e.queue.remove i).2.ready = e.queue.ready := by
        unfold PriorityJobQueue.remove
        split <;> rfl
      intro x hx
      rw [h, hready] at hx
      exact (hripe x hx).trans hle
  | polled h =>
      rw [h]
      exact (PriorityJobQueue.poll_refines hq hripe).2.1.mono hle
  | drained n h =>
      rw [h]
      exact (PriorityJobQueue.drain_refines hq hripe n).2.1.mono hle
  | pushed job token hf h =>
      rw [h]
      exact ripe_enqueue (hripe.mono hle) (hpos job token hf)

/-- An operation that is to push an entry has just written the row of the job. -/
theorem writes_of_enqueue (hr : e.Reliable) {c : Choice} {f : Frame} {job : Job} {token : Option UInt64}
    (hg : .enqueue job token ∈ (e.advance c f).2) :
    e.Writes f job ∧ (e.advance c f).1.db.jobs = e.db.jobs.update job.persisted := by
  have hnext := (advance_follows (e := e) c f).next _ hg
  cases f with
  | startWrite row owner eligibleAt remote =>
      simp only [advance, startWrite, updateJob_of_reliable hr, startRunning] at hg
      split_ifs at hg
      · simp [Frame.tail] at hg
      · cases hg
      · simp at hg
  | finishRetry row token' =>
      cases List.mem_singleton.mp hg
      refine ⟨.retry _ _, ?_⟩
      simp only [advance, finishRetry, persist_of_reliable hr]
      rfl
  | expireWrite now row =>
      simp only [advance, expireWrite, updateJob_of_reliable hr] at hg ⊢
      split_ifs at hg ⊢
      · simp [Frame.tail] at hg
      · cases List.mem_singleton.mp hg
        exact ⟨.expire now row, rfl⟩
  | releaseWrite row =>
      cases List.mem_singleton.mp hg
      refine ⟨.release _, ?_⟩
      simp only [advance, releaseWrite, persist_of_reliable hr]
      rfl
  | _ => simp [Frame.kind, Kind.next, Kind.ending] at hnext

end JobEngine

end DistributedJobEngine
