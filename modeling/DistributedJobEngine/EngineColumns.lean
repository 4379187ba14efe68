import DistributedJobEngine.EngineLeases

/-! Which rows the steps write, and from which copies. Every write of a row is a function of a copy that a
frame read earlier, so the columns that say what a job is never change, under any interleaving. -/

namespace DistributedJobEngine

open LibPool LibTable

/-- The columns that are set when a job is submitted. -/
structure Spec where
  type : String
  priority : Int
  retry : RetryPolicy
  timeoutMs : Int
  createdAtMs : Int
  workflowId : WorkflowId
  workflowNode : String
  seq : Int

def Job.spec (j : Job) : Spec :=
  ⟨j.type, j.priority, j.retry, j.timeoutMs, j.createdAtMs, j.workflowId, j.workflowNode, j.seq⟩

/-- The copy of a row that the frame, or what becomes of it, may write back. -/
def Frame.copy : Frame → Option Job
  | cancelFlag job | cancelRemove job | cancelWrite job | startWrite job _ _ _ | handler job _ | finish job _ _ _
  | finishRecord job _ _ | finishRetry job _ | finishTerminal job _ | expireWrite _ job | releaseWrite job
  | skipRemove _ job | skipWrite _ job => some job
  | _ => none

namespace JobEngine

variable {e e' : JobEngine}

/-- The rows a step can write, in the order of the source. -/
inductive Writes (e : JobEngine) : Frame → Job → Prop
  | flag (job : Job) : Writes e (.cancelFlag job) { job with cancelRequested := true }
  | cancel (job : Job) : Writes e (.cancelWrite job) (e.cancelledRow job)
  | drop (job : Job) (owner : String) (eligibleAt : Int) (remote : Bool) (h : job.cancelRequested = true) :
      Writes e (.startWrite job owner eligibleAt remote) (e.cancelledRow job)
  | start (job : Job) (owner : String) (eligibleAt : Int) (remote : Bool) (h : job.cancelRequested = false) :
      Writes e (.startWrite job owner eligibleAt remote) (e.startedRow job owner eligibleAt remote)
  | retry (job : Job) (token : UInt64) : Writes e (.finishRetry job token) job
  | finish (job : Job) (token : UInt64) : Writes e (.finishTerminal job token) job
  | expire (now : Int) (job : Job) : Writes e (.expireWrite now job) (expiredRow now job)
  | release (job : Job) : Writes e (.releaseWrite job) (e.releasedRow job)
  | skip (w : SkipWalk) (job : Job) : Writes e (.skipWrite w job) (e.skippedRow job)

/-- The rows before and after a step of `f`: the same, or one of them was written. -/
inductive RowChange (e : JobEngine) (f : Frame) (e' : JobEngine) : Prop
  | same (h : e'.db.jobs = e.db.jobs) (hjournal : e'.journal = e.journal)
  | wrote (row : Job) (hrow : e.Writes f row) (h : e'.db.jobs = e.db.jobs.update row.persisted)
      (hjournal : e'.journal = e.journal ++ [.update row])

theorem RowChange.of_updateJob {f : Frame} {row : Job} (hrow : e.Writes f row)
    (hdb : e'.db = (e.updateJob row).2.db) (hjournal : e'.journal = (e.updateJob row).2.journal) :
    e.RowChange f e' := by
  unfold updateJob at hdb hjournal
  split_ifs at hdb hjournal
  · exact .same (congrArg Database.jobs hdb) hjournal
  · exact .wrote row hrow (congrArg Database.jobs hdb) hjournal

theorem persist_eq_updateJob (job : Job) :
    (e.persist job).db = (e.updateJob job).2.db ∧ (e.persist job).journal = (e.updateJob job).2.journal := by
  unfold persist updateJob
  split_ifs <;> exact ⟨rfl, rfl⟩

theorem enqueue_rows (job : Job) : (e.enqueue job).db = e.db ∧ (e.enqueue job).journal = e.journal := by
  unfold enqueue
  dsimp only
  split <;> exact ⟨rfl, rfl⟩

theorem jobs_updateWorkflow (db : Database) (wf : WorkflowRecord) : (db.updateWorkflow wf).jobs = db.jobs := by
  unfold Database.updateWorkflow
  split <;> rfl

theorem startWrite_rows (job : Job) (owner : String) (eligibleAt : Int) (remote : Bool) :
    e.RowChange (.startWrite job owner eligibleAt remote) (e.startWrite job owner eligibleAt remote).1 := by
  unfold startWrite
  split
  · rename_i hflag
    exact .of_updateJob (.drop job owner eligibleAt remote hflag) rfl rfl
  · rename_i hflag
    have hwrites := Writes.start (e := e) job owner eligibleAt remote (Bool.not_eq_true _ ▸ hflag)
    dsimp only
    cases hupd : e.updateJob (e.startedRow job owner eligibleAt remote) with
    | mk ok e₁ =>
        have he₁ : e₁ = (e.updateJob (e.startedRow job owner eligibleAt remote)).2 := by rw [hupd]
        have hdb := congrArg JobEngine.db he₁
        have hjournal := congrArg JobEngine.journal he₁
        cases ok <;> exact .of_updateJob hwrites hdb hjournal

/-- **Every step writes at most one row, and only these.** -/
theorem advance_rows (c : Choice) (f : Frame) : e.RowChange f (e.advance c f).1 := by
  cases f with
  | startWrite job owner eligibleAt remote => exact startWrite_rows job owner eligibleAt remote
  | cancelFlag job =>
      refine .of_updateJob (.flag job) ?_ ?_ <;> simp only [advance, cancelFlag] <;> split <;> simp_all
  | cancelWrite job =>
      refine .of_updateJob (.cancel job) ?_ ?_ <;> simp only [advance, cancelWrite] <;> split <;> simp_all
  | finishRetry job token =>
      exact .of_updateJob (.retry job token) (persist_eq_updateJob job).1 (persist_eq_updateJob job).2
  | finishTerminal job token =>
      exact .of_updateJob (.finish job token) (persist_eq_updateJob job).1 (persist_eq_updateJob job).2
  | expireWrite now job =>
      refine .of_updateJob (.expire now job) ?_ ?_ <;> simp only [advance, expireWrite] <;> split <;> rfl
  | releaseWrite job =>
      exact .of_updateJob (.release job) (persist_eq_updateJob _).1 (persist_eq_updateJob _).2
  | skipWrite w job => exact .of_updateJob (.skip w job) (persist_eq_updateJob _).1 (persist_eq_updateJob _).2
  | enqueue job token =>
      cases token with
      | none => exact .same (congrArg _ (enqueue_rows job).1) (enqueue_rows job).2
      | some t => exact .same (congrArg _ (enqueue_rows job).1) (enqueue_rows job).2
  | cancelWorkflowWrite wf =>
      simp only [advance, cancelWorkflowWrite]
      split_ifs
      · exact .same rfl rfl
      · exact .same (jobs_updateWorkflow _ _) rfl
  | finalizeWrite wf failed =>
      simp only [advance, finalizeWrite]
      split_ifs
      all_goals first | exact .same rfl rfl | exact .same (jobs_updateWorkflow _ _) rfl
  | finishRecord job info outcome =>
      simp only [advance, finishRecord]
      split_ifs <;> exact .same rfl rfl
  | watchdog =>
      obtain ⟨cells, ws, n, h⟩ := exists_watchdog (e := e)
      simp only [advance, h]
      exact .same rfl rfl
  | account job skipped =>
      simp only [advance, account]
      (repeat' split) <;> exact .same rfl rfl
  | slot jobId token => cases token <;> exact .same rfl rfl
  | cancelSignal _ | cancelWorkflow _ | workerPop _ | claim _ _ | claimFirst _ _ | heartbeat _ =>
      simp only [advance, cancelSignal, cancelWorkflow, workerPop, claim, claimFirst, heartbeat]
      (repeat' split) <;> exact .same rfl rfl
  | complete _ | completeRead _ _ _ | finish _ _ _ _ | expire _ _ _ | release _ =>
      simp only [advance, complete, completeRead, finish, expire, release]
      (repeat' split) <;> exact .same rfl rfl
  | _ => exact .same rfl rfl

/-! ### Where copies come from -/

/-- The copy `row` in a frame that a step of `f` leaves was just read, was there before, or is the row of the
attempt that was just started or finished. -/
inductive CopyFrom (e : JobEngine) (f : Frame) (row : Job) : Prop
  | read (h : e.db.getJob row.jobId = some row)
  | kept (h : f.copy = some row)
  | started (job : Job) (owner : String) (eligibleAt : Int) (remote : Bool)
      (hf : f = .startWrite job owner eligibleAt remote) (hflag : job.cancelRequested = false)
      (h : row = e.startedRow job owner eligibleAt remote)
  | finished (job : Job) (info : RunningInfo) (outcome : Outcome) (hf : f = .finishRecord job info outcome)
      (h : row = e.finishedRow job info outcome (verdict (e.reasonOf info) job outcome).1
        (verdict (e.reasonOf info) job outcome).2.2)

theorem CopyFrom.of_getJob {f : Frame} {j : JobId} {row : Job} (h : e.db.getJob j = some row) : e.CopyFrom f row :=
  .read (by rw [getJob_jobId h]; exact h)

theorem copy_tail (row : Job) (token : Option UInt64) : ∀ g ∈ Frame.tail row token, g.copy = none := by
  simp [Frame.tail, Frame.copy]

theorem copy_reclaim (now : Int) (dead : List WorkerId) (expired : List (JobId × UInt64)) :
    ∀ g ∈ reclaim now dead expired, g.copy = none := by
  intro g hg
  cases dead with
  | nil =>
      obtain ⟨j, -, rfl⟩ := List.mem_map.mp hg
      rfl
  | cons w dead =>
      rw [List.mem_singleton.mp hg]
      rfl

theorem CopyFrom.of_none {f g : Frame} {row : Job} (h : g.copy = none) (hrow : g.copy = some row) :
    e.CopyFrom f row := by
  rw [h] at hrow
  cases hrow

theorem startWrite_copy {job : Job} {owner : String} {eligibleAt : Int} {remote : Bool} {g : Frame} {row : Job}
    (hg : g ∈ (e.startWrite job owner eligibleAt remote).2) (hrow : g.copy = some row) :
    e.CopyFrom (.startWrite job owner eligibleAt remote) row := by
  unfold startWrite at hg
  split at hg
  · exact .of_none (copy_tail _ _ g hg) hrow
  · rename_i hflag
    dsimp only at hg
    unfold updateJob at hg
    split_ifs at hg
    · rw [List.mem_singleton.mp hg] at hrow
      cases hrow
    · simp only [startRunning] at hg
      split_ifs at hg
      · cases hg
      · rw [List.mem_singleton.mp hg] at hrow
        cases hrow
        exact .started job owner eligibleAt remote rfl (Bool.not_eq_true _ ▸ hflag) rfl

theorem finishRecord_copy {job : Job} {info : RunningInfo} {outcome : Outcome} {g : Frame} {row : Job}
    (hg : g ∈ (e.finishRecord job info outcome).2) (hrow : g.copy = some row) :
    e.CopyFrom (.finishRecord job info outcome) row := by
  simp only [finishRecord] at hg
  split_ifs at hg <;> rw [List.mem_singleton.mp hg] at hrow <;> cases hrow <;>
    exact .finished job info outcome rfl rfl

/-- **Every copy that a step leaves is accounted for.** -/
theorem advance_copy (c : Choice) {f g : Frame} {row : Job} (hg : g ∈ (e.advance c f).2) (hrow : g.copy = some row) :
    e.CopyFrom f row := by
  cases f with
  | startWrite job owner eligibleAt remote => exact startWrite_copy hg hrow
  | finishRecord job info outcome => exact finishRecord_copy hg hrow
  | finishTerminal job token => exact .of_none (copy_tail _ _ g hg) hrow
  | cancelWrite job =>
      simp only [advance, cancelWrite, updateJob] at hg
      split_ifs at hg
      · cases hg
      · exact .of_none (copy_tail _ _ g hg) hrow
  | expireWrite now job =>
      simp only [advance, expireWrite] at hg
      split at hg
      · exact .of_none (copy_tail _ _ g hg) hrow
      · rw [List.mem_singleton.mp hg] at hrow
        cases hrow
  | watchdog => exact .of_none (copy_reclaim _ _ _ g hg) hrow
  | watchdogDead now workerId dead expired => exact .of_none (copy_reclaim _ _ _ g hg) hrow
  | cancelWorkflowNodes w =>
      simp only [advance, cancelWorkflowNodes, List.mem_append, List.mem_map, List.mem_singleton] at hg
      rcases hg with ⟨j, -, rfl⟩ | rfl <;> cases hrow
  | claimRest workerId maxJobs first =>
      obtain ⟨x, -, rfl⟩ := List.mem_map.mp hg
      cases hrow
  | release parent =>
      obtain ⟨child, rfl⟩ := mem_release hg
      cases hrow
  | skipMetric jobs =>
      obtain ⟨j, -, hg⟩ := List.mem_flatMap.mp hg
      simp only [List.mem_cons, List.not_mem_nil, or_false] at hg
      rcases hg with rfl | rfl <;> cases hrow
  | cancelRemove job | handler job info | skipRemove w job | finish job info outcome call =>
      refine .kept ?_
      simp only [advance, handler, finish] at hg
      (repeat' split at hg) <;> simp only [List.mem_singleton, List.not_mem_nil] at hg <;> subst hg <;> exact hrow
  | cancel _ | start _ _ _ _ | releaseGet _ =>
      simp only [advance, cancel, start, releaseGet] at hg
      split at hg
      · cases hg
      · rename_i job hget
        (repeat' split at hg) <;> simp only [List.mem_singleton, List.not_mem_nil] at hg <;> subst hg <;>
          cases hrow <;> exact .of_getJob hget
  | completeRead msg info call =>
      simp only [advance, completeRead] at hg
      split at hg
      · rw [List.mem_singleton.mp hg] at hrow
        cases hrow
      · rename_i job hget
        simp only [List.mem_cons, List.not_mem_nil, or_false] at hg
        rcases hg with rfl | rfl <;> cases hrow
        exact .of_getJob hget
  | expire now jobId selected =>
      simp only [advance, expire] at hg
      split at hg
      · cases hg
      · dsimp only at hg
        split at hg
        · cases hg
        · rename_i job hget
          split_ifs at hg
          · rw [List.mem_singleton.mp hg] at hrow
            cases hrow
            exact .of_getJob hget
          · cases hg
  | skipLoop w =>
      simp only [advance, skipLoop] at hg
      split at hg
      · split_ifs at hg <;> simp only [List.mem_cons, List.not_mem_nil, or_false] at hg
        · rw [hg] at hrow
          cases hrow
        · rcases hg with rfl | rfl <;> cases hrow
      · split_ifs at hg
        · rw [List.mem_singleton.mp hg] at hrow
          cases hrow
        · split at hg
          · rw [List.mem_singleton.mp hg] at hrow
            cases hrow
          · rename_i job hget
            split_ifs at hg <;> rw [List.mem_singleton.mp hg] at hrow <;> cases hrow
            exact .of_getJob hget
  | cancelFlag _ | cancelWorkflow _ | cancelWorkflowWrite _ | workerPop _ | claim _ _ | claimFirst _ _ =>
      simp only [advance, cancelFlag, cancelWorkflow, cancelWorkflowWrite, workerPop, claim, claimFirst] at hg
      (repeat' split at hg) <;> simp only [List.mem_singleton, List.not_mem_nil] at hg <;> subst hg <;> cases hrow
  | complete _ | onTerminal _ | skip _ | account _ _ | finalize _ _ =>
      simp only [advance, complete, onTerminal, skip, account, finalize] at hg
      (repeat' split at hg) <;> simp only [List.mem_cons, List.not_mem_nil, or_false] at hg <;>
        first | (subst hg; cases hrow) | (rcases hg with rfl | rfl <;> cases hrow)
  | finishRetry _ _ | releaseWrite _ | skipWrite _ _ | skipChildren _ _ =>
      rw [List.mem_singleton.mp hg] at hrow
      cases hrow
  | _ => cases hg

/-! ### The columns that never change -/

def specs (e : JobEngine) (j : JobId) : Option Spec := (e.db.getJob j).map Job.spec

/-- A copy that is written back says of its job what the row says. -/
def Faithful (e : JobEngine) (f : Frame) : Prop := ∀ job, f.copy = some job → e.specs job.jobId = some job.spec

theorem finishedRow_spec (job : Job) (info : RunningInfo) (outcome : Outcome) (next : JobState) (error : String) :
    (e.finishedRow job info outcome next error).jobId = job.jobId ∧
      (e.finishedRow job info outcome next error).spec = job.spec := by
  unfold finishedRow
  dsimp only
  split <;> exact ⟨rfl, rfl⟩

theorem expiredRow_spec (now : Int) (job : Job) :
    (expiredRow now job).jobId = job.jobId ∧ (expiredRow now job).spec = job.spec := by
  unfold expiredRow
  dsimp only
  split <;> exact ⟨rfl, rfl⟩

/-- The row that is written keeps the columns of the copy. -/
theorem Writes.spec {f : Frame} {row : Job} (h : e.Writes f row) :
    ∃ job, f.copy = some job ∧ row.jobId = job.jobId ∧ row.spec = job.spec := by
  cases h with
  | expire now job => exact ⟨job, rfl, expiredRow_spec now job⟩
  | _ => exact ⟨_, rfl, rfl, rfl⟩

theorem spec_persisted (row : Job) : row.persisted.spec = row.spec := rfl

theorem getJob_updateJob (db : Database) (row : Job) (j : JobId) :
    (db.jobs.update row.persisted).lookup j = if row.jobId = j then (db.getJob j).map fun _ => row.persisted
      else db.getJob j := by
  rw [Table.lookup_update]
  rfl

theorem specs_advance {c : Choice} {f : Frame} (hf : e.Faithful f) : (e.advance c f).1.specs = e.specs := by
  funext j
  cases advance_rows (e := e) c f with
  | same h _ =>
      unfold specs Database.getJob
      rw [h]
  | wrote row hrow h _ =>
      obtain ⟨job, hcopy, hid, hspec⟩ := hrow.spec
      have hold := hf job hcopy
      have hnew : (e.advance c f).1.db.getJob j = _ := (congrArg (Table.lookup · j) h).trans (getJob_updateJob _ _ _)
      unfold specs
      rw [hnew]
      split_ifs with hj
      · rw [← hj, hid]
        rw [specs, Option.map_eq_some_iff] at hold
        obtain ⟨old, hget, holdspec⟩ := hold
        rw [hget, Option.map_some, Option.map_some, Option.map_some, spec_persisted, hspec, holdspec]
      · rfl

theorem CopyFrom.spec {f : Frame} {row : Job} (h : e.CopyFrom f row) (hf : e.Faithful f) :
    e.specs row.jobId = some row.spec := by
  cases h with
  | read h => rw [specs, h, Option.map_some]
  | kept h => exact hf row h
  | started job owner eligibleAt remote hframe _ h =>
      subst hframe
      rw [h]
      exact hf job rfl
  | finished job info outcome hframe h =>
      subst hframe
      obtain ⟨hid, hspec⟩ := finishedRow_spec (e := e) job info outcome
        (verdict (e.reasonOf info) job outcome).1 (verdict (e.reasonOf info) job outcome).2.2
      rw [h, hid, hspec]
      exact hf job rfl

/-- **A step keeps the columns of every row and the copies true to them.** -/
theorem faithful_advance {c : Choice} {f : Frame} {O : Multiset Frame} (h : ∀ g ∈ f ::ₘ O, e.Faithful g) :
    ∀ g ∈ ((e.advance c f).2 : Multiset Frame) + O, (e.advance c f).1.Faithful g := by
  have hf := h f (Multiset.mem_cons_self f O)
  intro g hg job hcopy
  rw [specs_advance hf]
  rcases Multiset.mem_add.mp hg with hg | hg
  · exact (advance_copy c hg hcopy).spec hf
  · exact h g (Multiset.mem_cons_of_mem hg) job hcopy

/-! ### New rows -/

theorem getJob_insertJob {job : Job} (h : e.insertJob job = .ok e') {j : JobId} {row : Job}
    (hrow : e.db.getJob j = some row) : e'.db.getJob j = some row := by
  obtain ⟨jobs, hins, rfl⟩ := insertJob_eq_ok h
  obtain ⟨hfresh, -⟩ := Table.insert_eq_some.mp hins
  change jobs.lookup j = some row
  rw [Table.lookup_of_insert hins, if_neg]
  · exact hrow
  · rintro rfl
    rw [show e.db.getJob _ = none from hfresh] at hrow
    cases hrow

theorem getJob_insertWorkflow {wf : WorkflowRecord} {nodes : List Job} {edges : List (JobId × JobId)}
    (h : e.insertWorkflow wf nodes edges = .ok e') {j : JobId} {row : Job} (hrow : e.db.getJob j = some row) :
    e'.db.getJob j = some row := by
  obtain ⟨db, hins, rfl⟩ := insertWorkflow_eq_ok h
  obtain ⟨hrows, -, -⟩ := Database.rows_insertWorkflow hins
  obtain ⟨hmem, hid⟩ := Table.lookup_eq_some.mp hrow
  refine Table.lookup_eq_some.mpr ⟨?_, hid⟩
  change row ∈ db.jobs.rows
  rw [hrows]
  exact List.mem_append_left _ hmem

/-- A call that submits leaves the rows that are there. -/
theorem Submits.getJob (h : Submits e e') {j : JobId} {row : Job} (hrow : e.db.getJob j = some row) :
    e'.db.getJob j = some row :=
  h.invariant (P := fun e => e.db.getJob j = some row) ⟨fun _ _ h => h, fun _ _ _ _ h => h, fun _ h => h,
    fun _ _ h => h, fun hins h => getJob_insertJob hins h, fun hins _ h => getJob_insertWorkflow hins h,
    fun _ job h => (congrArg (Database.getJob · j) (enqueue_rows job).1).trans h⟩ hrow

theorem faithful_submits {F : Multiset Frame} (hsub : Submits e e') (h : ∀ g ∈ F, e.Faithful g) :
    ∀ g ∈ F, e'.Faithful g := by
  intro g hg job hcopy
  obtain ⟨row, hrow, hspec⟩ := Option.map_eq_some_iff.mp (h g hg job hcopy)
  rw [specs, Submits.getJob hsub hrow, Option.map_some, hspec]

theorem faithful_spawn {f : Frame} {F : Multiset Frame} (hcall : Call f) (h : ∀ g ∈ F, e.Faithful g) :
    ∀ g ∈ f ::ₘ F, e.Faithful g := by
  have hcopy : f.copy = none := by cases f <;> first | rfl | cases hcall
  intro g hg
  rcases Multiset.mem_cons.mp hg with rfl | hg
  · intro job hjob
    rw [hcopy] at hjob
    cases hjob
  · exact h g hg

end JobEngine

end DistributedJobEngine
