import DistributedJobEngine.EngineLabels

/-! The counters of finished workflows. When operations run one at a time, `workflows_failed` and
`workflows_succeeded` are the numbers of records that say so. -/

namespace DistributedJobEngine

open LibPool LibTable

/-- The records of workflows and the counters of those that have finished. -/
structure Registry where
  workflows : Table WorkflowRecord.workflowId
  failed : ℕ
  succeeded : ℕ

/-- The number of workflows whose record says `s`. -/
def Registry.labelled (r : Registry) (s : WorkflowState) : ℕ := r.workflows.rows.countP fun wf => wf.state = s

/-- The counters count the records. -/
structure Registry.Scored (r : Registry) : Prop where
  failed : r.failed = r.labelled .failed
  succeeded : r.succeeded = r.labelled .succeeded

namespace JobEngine

variable {e e' : JobEngine} {w : WorkflowId}

def registry (e : JobEngine) : Registry := ⟨e.db.workflows, e.metrics.workflowsFailed, e.metrics.workflowsSucceeded⟩

@[simp] theorem updateJob_registry (job : Job) : (e.updateJob job).2.registry = e.registry := by
  unfold updateJob
  split <;> rfl

@[simp] theorem persist_registry (job : Job) : (e.persist job).registry = e.registry := by
  unfold persist updateJob
  split_ifs <;> rfl

@[simp] theorem enqueue_registry (job : Job) : (e.enqueue job).registry = e.registry := by
  unfold enqueue
  dsimp only
  split <;> rfl

/-- Only a step that writes the record of a workflow changes the registry. -/
theorem registry_advance (c : Choice) {f : Frame} (hf : f.kind.labels = false) :
    (e.advance c f).1.registry = e.registry := by
  cases f with
  | cancelWorkflowWrite _ | finalizeWrite _ _ => cases hf
  | finishRetry job _ | finishTerminal job _ => exact persist_registry job
  | releaseWrite job | skipWrite _ job => exact persist_registry _
  | watchdog =>
      obtain ⟨cells, ws, n, h⟩ := exists_watchdog (e := e)
      simp only [advance, h]
      rfl
  | startWrite job owner eligibleAt remote =>
      simp only [advance, startWrite]
      split
      · exact updateJob_registry _
      · have hregistry := updateJob_registry (e := e) (e.startedRow job owner eligibleAt remote)
        split <;> rename_i e₁ hupd <;> rw [hupd] at hregistry <;> exact hregistry
  | expireWrite now job =>
      simp only [advance, expireWrite]
      split <;> exact updateJob_registry (expiredRow now job)
  | finishRecord job info outcome =>
      simp only [advance, finishRecord]
      split <;> rfl
  | cancelFlag job =>
      simp only [advance, cancelFlag]
      have hregistry := updateJob_registry (e := e) { job with cancelRequested := true }
      split <;> rename_i e₁ hupd <;> rw [hupd] at hregistry <;> exact hregistry
  | cancelWrite job =>
      simp only [advance, cancelWrite]
      have hregistry := updateJob_registry (e := e) (e.cancelledRow job)
      split <;> rename_i e₁ hupd <;> rw [hupd] at hregistry <;> exact hregistry
  | account job skipped =>
      simp only [advance, account]
      (repeat' split) <;> rfl
  | slot jobId token => cases token <;> rfl
  | enqueue job token => cases token <;> exact enqueue_registry job
  | metric job =>
      simp only [advance, Metrics.countTerminal]
      split <;> rfl
  | cancelSignal _ | cancelWorkflow _ | workerPop _ | claim _ _ | claimFirst _ _ | claimRest _ _ _
  | heartbeat _ | complete _ | completeRead _ _ _ | finish _ _ _ _ | expire _ _ _ | release _ =>
      simp only [advance, cancelSignal, cancelWorkflow, workerPop, claim, claimFirst, claimRest,
        heartbeat, complete, completeRead, finish, expire, release]
      (repeat' split) <;> rfl
  | _ => rfl

/-! ### The records -/

theorem labelled_updateWorkflow (wf : WorkflowRecord) {old : WorkflowRecord} {m n : ℕ}
    (h : e.db.getWorkflow wf.workflowId = some old) (s : WorkflowState) :
    (⟨(e.db.updateWorkflow wf).workflows, m, n⟩ : Registry).labelled s + (decide (old.state = s)).toNat =
      e.registry.labelled s + (decide (wf.state = s)).toNat := by
  have hkey : old.workflowId = wf.workflowId := Table.key_of_lookup h
  unfold Registry.labelled Database.updateWorkflow
  rw [show e.db.workflows.lookup wf.workflowId = some old from h]
  exact Table.countP_update (r := { old with state := wf.state, finishedAtMs := wf.finishedAtMs })
    (by rw [← h, ← hkey]; rfl) _

/-- A record that a frame is to write still says `RUNNING`. -/
theorem Labelled.running_record {f : Frame} {O : Multiset Frame} (h : e.Labelled (f ::ₘ O)) (hf : f.labels = some w) :
    ∃ old, e.db.getWorkflow w = some old ∧ old.state = .running :=
  Option.map_eq_some_iff.mp (h.marked.running f (Multiset.mem_cons_self f O) w hf)

theorem scored_cancelWorkflowWrite {wf : WorkflowRecord} {O : Multiset Frame} (h : e.registry.Scored)
    (hlab : e.Labelled (.cancelWorkflowWrite wf ::ₘ O)) : (e.cancelWorkflowWrite wf).1.registry.Scored := by
  have hcan : wf.state = .cancelled := hlab.settled.books.sound.proper _ (Multiset.mem_cons_self _ O)
  obtain ⟨old, hold, hrun⟩ := hlab.running_record rfl
  unfold cancelWorkflowWrite
  split
  · exact h
  · have hcount := labelled_updateWorkflow (m := e.registry.failed) (n := e.registry.succeeded) wf hold
    have hfailed := hcount .failed
    have hsucc := hcount .succeeded
    rw [hrun, hcan] at hfailed hsucc
    exact ⟨h.failed.trans hfailed.symm, h.succeeded.trans hsucc.symm⟩

theorem scored_finalizeWrite {wf : WorkflowRecord} {failed : Bool} {O : Multiset Frame} (h : e.registry.Scored)
    (hlab : e.Labelled (.finalizeWrite wf failed ::ₘ O)) : (e.finalizeWrite wf failed).registry.Scored := by
  obtain ⟨old, hold, hrun⟩ := hlab.running_record rfl
  have hcount := labelled_updateWorkflow (m := (e.finalizeWrite wf failed).registry.failed)
    (n := (e.finalizeWrite wf failed).registry.succeeded)
    { wf with state := if failed then .failed else .succeeded, finishedAtMs := e.wallMs } hold
  have hfailed := hcount .failed
  have hsucc := hcount .succeeded
  rw [hrun] at hfailed hsucc
  have hfault : e.world.fault e.world.pos = false := hlab.settled.books.sound.reliable _
  unfold finalizeWrite at hfailed hsucc ⊢
  rw [hfault] at hfailed hsucc ⊢
  cases failed with
  | true => exact ⟨(congrArg (· + 1) h.failed).trans hfailed.symm, h.succeeded.trans hsucc.symm⟩
  | false => exact ⟨h.failed.trans hfailed.symm, (congrArg (· + 1) h.succeeded).trans hsucc.symm⟩

/-- **Every step keeps the counters equal to the numbers of records.** -/
theorem scored_advance {c : Choice} {f : Frame} {O : Multiset Frame} (h : e.registry.Scored)
    (hlab : e.Labelled (f ::ₘ O)) : (e.advance c f).1.registry.Scored := by
  cases hf : f.kind.labels with
  | false =>
      rw [registry_advance c hf]
      exact h
  | true =>
      cases f with
      | cancelWorkflowWrite wf => exact scored_cancelWorkflowWrite h hlab
      | finalizeWrite wf failed => exact scored_finalizeWrite h hlab
      | _ => cases hf

/-! ### Submissions -/

/-- A new workflow is `RUNNING` and in none of the counts. -/
theorem scored_insertWorkflow {wf : WorkflowRecord} {nodes : List Job} {edges : List (JobId × JobId)}
    (h : e.registry.Scored) (hwf : wf.state = .running) (hins : e.insertWorkflow wf nodes edges = .ok e') :
    e'.registry.Scored := by
  obtain ⟨db, hdb, rfl⟩ := insertWorkflow_eq_ok hins
  have hrows := (Table.insert_eq_some.mp (Database.rows_insertWorkflow hdb).2.2).2
  have hcount : ∀ s, s ≠ .running →
      db.workflows.rows.countP (fun wf => decide (wf.state = s)) = e.registry.labelled s := by
    intro s hs
    rw [hrows, List.countP_append, List.countP_singleton, hwf, if_neg (by simp [hs.symm])]
    rfl
  exact ⟨h.failed.trans (hcount .failed (by simp)).symm, h.succeeded.trans (hcount .succeeded (by simp)).symm⟩

theorem scored_submits (h : e.registry.Scored) (hsub : Submits e e') : e'.registry.Scored := by
  refine hsub.invariant (P := fun e => e.registry.Scored) ⟨fun _ _ h => h, fun _ _ _ _ h => h, fun _ h => h,
    fun _ _ h => h, fun hins h => ?_, fun hins hwf h => ?_, fun _ job h => (enqueue_registry job).symm ▸ h⟩ h
  · obtain ⟨t, -, rfl⟩ := insertJob_eq_ok hins
    exact h
  · have hscored := scored_insertWorkflow h hwf hins
    exact hscored

end JobEngine

end DistributedJobEngine
