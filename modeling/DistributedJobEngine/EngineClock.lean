import DistributedJobEngine.EngineMachine

/-! What the process reads from outside does not depend on what it does: every step and every call reads the same
streams, from where the last one stopped. -/

namespace DistributedJobEngine

namespace JobEngine

variable {e e' : JobEngine}

/-- The streams are the same, read at the same position or a later one. -/
def Flows (e e' : JobEngine) : Prop :=
  e'.world = { e.world with pos := e'.world.pos } ∧ e.world.pos ≤ e'.world.pos

theorem Flows.refl (e : JobEngine) : e.Flows e := ⟨rfl, le_refl _⟩

theorem Flows.trans {e'' : JobEngine} (h : e.Flows e') (h' : e'.Flows e'') : e.Flows e'' :=
  ⟨by rw [h'.1, h.1], h.2.trans h'.2⟩

theorem tick_flows (e : JobEngine) : e.Flows e.tick := ⟨rfl, Nat.le_succ _⟩

/-- What a step leaves: the streams, the edges between jobs and the number of the next job. -/
structure Onward (e e' : JobEngine) : Prop where
  flows : e.Flows e'
  dependencies : e'.db.dependencies = e.db.dependencies
  seqCounter : e'.seqCounter = e.seqCounter

theorem updateJob_onward (job : Job) : e.Onward (e.updateJob job).2 := by
  unfold updateJob
  split <;> exact ⟨⟨rfl, Nat.le_succ _⟩, rfl, rfl⟩

theorem persist_onward (job : Job) : e.Onward (e.persist job) := by
  unfold persist updateJob
  split_ifs <;> exact ⟨⟨rfl, Nat.le_succ _⟩, rfl, rfl⟩

theorem enqueue_onward (job : Job) : e.Onward (e.enqueue job) := by
  unfold enqueue
  dsimp only
  split <;> exact ⟨⟨rfl, Nat.le_add_right _ 2⟩, rfl, rfl⟩

theorem dependencies_updateWorkflow (db : Database) (wf : WorkflowRecord) :
    (db.updateWorkflow wf).dependencies = db.dependencies := by
  unfold Database.updateWorkflow
  split <;> rfl

/-- **Time goes on**: every step reads the same streams, at later and later positions. No step writes edges or takes
a number for a job. -/
theorem advance_onward (c : Choice) (f : Frame) : e.Onward (e.advance c f).1 := by
  cases f with
  | finishRetry job _ | finishTerminal job _ =>
      have h := persist_onward (e := e) job
      exact ⟨h.1, h.2, h.3⟩
  | releaseWrite job => exact persist_onward _
  | skipWrite w job => exact persist_onward _
  | enqueue job token =>
      have h := enqueue_onward (e := e) job
      cases token <;> exact ⟨h.1, h.2, h.3⟩
  | expireWrite now job =>
      have h := updateJob_onward (e := e) (expiredRow now job)
      simp only [advance, expireWrite]
      split <;> exact ⟨h.1, h.2, h.3⟩
  | startWrite job owner eligibleAt remote =>
      simp only [advance, startWrite]
      split
      · exact updateJob_onward _
      · dsimp only [updateJob]
        split_ifs <;> exact ⟨⟨rfl, Nat.le_succ _⟩, rfl, rfl⟩
  | watchdog =>
      obtain ⟨cells, ws, n, h⟩ := exists_watchdog (e := e)
      simp only [advance, h]
      exact ⟨⟨rfl, Nat.le_succ _⟩, rfl, rfl⟩
  | account job skipped =>
      simp only [advance, account]
      (repeat' split) <;> exact ⟨⟨rfl, le_refl _⟩, rfl, rfl⟩
  | slot jobId token => cases token <;> exact ⟨⟨rfl, le_refl _⟩, rfl, rfl⟩
  | finishRecord job info outcome =>
      simp only [advance, finishRecord]
      split_ifs <;> exact ⟨⟨rfl, Nat.le_succ _⟩, rfl, rfl⟩
  | cancelFlag _ | cancelWrite _ =>
      simp only [advance, cancelFlag, cancelWrite, updateJob]
      split_ifs <;> exact ⟨⟨rfl, Nat.le_succ _⟩, rfl, rfl⟩
  | cancelWorkflowWrite _ | finalizeWrite _ _ =>
      simp only [advance, cancelWorkflowWrite, finalizeWrite]
      (repeat' split) <;> first
        | exact ⟨⟨rfl, le_refl _⟩, rfl, rfl⟩
        | exact ⟨⟨rfl, Nat.le_succ _⟩, rfl, rfl⟩
        | exact ⟨⟨rfl, Nat.le_succ _⟩, dependencies_updateWorkflow _ _, rfl⟩
  | cancelWorkflow _ | workerPop _ | claim _ _ | claimFirst _ _ | heartbeat _ =>
      simp only [advance, cancelWorkflow, workerPop, claim, claimFirst, heartbeat]
      (repeat' split) <;> first | exact ⟨⟨rfl, le_refl _⟩, rfl, rfl⟩ | exact ⟨⟨rfl, Nat.le_succ _⟩, rfl, rfl⟩
  | cancelSignal _ | complete _ | completeRead _ _ _ | finish _ _ _ _ | expire _ _ _ | release _ =>
      simp only [advance, cancelSignal, complete, completeRead, finish, expire, release]
      (repeat' split) <;> exact ⟨⟨rfl, le_refl _⟩, rfl, rfl⟩
  | registerWorker _ _ | claimRest _ _ _ => exact ⟨⟨rfl, Nat.le_succ _⟩, rfl, rfl⟩
  | _ => exact ⟨⟨rfl, le_refl _⟩, rfl, rfl⟩

theorem workflowRows_flows (w : WorkflowId) (created : Int) (edges : List (String × String))
    (nodes : List WorkflowNodeSpec) : e.Flows (workflowRows w created edges nodes e).2 := by
  induction nodes generalizing e with
  | nil => exact ⟨rfl, le_refl _⟩
  | cons node nodes ih => exact e.tick_flows.trans (ih (e := { e.tick with seqCounter := e.seqCounter + 1 }))

theorem Submits.flows (h : Submits e e') : e.Flows e' := by
  refine h.invariant (P := fun e' => e.Flows e') ⟨fun _ _ h => h, fun _ _ _ _ h => h,
    fun e' h => h.trans e'.tick_flows,
    fun _ _ h => h, fun hins h => ?_, fun hins _ h => ?_, fun _ job h => h.trans (enqueue_onward job).flows⟩
    ⟨rfl, le_refl _⟩
  · obtain ⟨t, -, rfl⟩ := insertJob_eq_ok hins
    exact h.trans (tick_flows _)
  · obtain ⟨db, -, rfl⟩ := insertWorkflow_eq_ok hins
    exact h.trans (tick_flows _)

end JobEngine

end DistributedJobEngine
