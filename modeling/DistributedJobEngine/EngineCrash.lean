import DistributedJobEngine.EngineEntries
import DistributedJobEngine.EngineLabels

/-! A crash in the middle of an operation. The store then holds the writes up to the crash. Recovery requeues the
jobs that were running and changes no other row, so whether a workflow is stuck afterwards is settled by what the
interrupted operation had left to do. -/

namespace DistributedJobEngine

open LibPool LibTable

/-- No workflow is stuck: a job in `PENDING` waits for a parent that has not ended, none of its parents ended without
success, and a workflow in `RUNNING` has a node that has not ended. -/
structure Database.Unstuck (db : Database) : Prop where
  waits : ∀ j job, db.getJob j = some job → job.state = .pending →
    ∃ q parent, (q, j) ∈ db.loadAllDependencies ∧ db.getJob q = some parent ∧ parent.state.isTerminal = false
  spared : ∀ j job q parent, db.getJob j = some job → job.state = .pending → (q, j) ∈ db.loadAllDependencies →
    db.getJob q = some parent → parent.state ∉ [.failed, .timedOut, .cancelled, .skipped]
  running : ∀ w wf, db.getWorkflow w = some wf → wf.state = .running →
    ∃ job ∈ db.listWorkflowJobs w, job.state.isTerminal = false

/-- What recovery may make of a row. -/
structure Job.Recovers (job row : Job) : Prop where
  ended : row.state.isTerminal = job.state.isTerminal
  kept : row.state = job.state ∨ job.state = .running ∧ row.state = .queued
  workflowId : row.workflowId = job.workflowId
  pendingDeps : row.pendingDeps = job.pendingDeps

theorem Job.Recovers.pending_iff {job row : Job} (h : job.Recovers row) :
    row.state = .pending ↔ job.state = .pending := by
  rcases h.kept with hs | ⟨hrun, hqueued⟩
  · rw [hs]
  · rw [hrun, hqueued]
    simp

theorem Job.Recovers.ended_as {job row : Job} (h : job.Recovers row) {s : JobState} (hs : s.isTerminal = true) :
    row.state = s ↔ job.state = s := by
  rcases h.kept with hsame | ⟨hrun, hqueued⟩
  · rw [hsame]
  · rw [hrun, hqueued]
    constructor <;>
    · rintro rfl
      cases hs

namespace JobEngine

variable {e e' : JobEngine} {F : Multiset Frame}

/-- With nothing left to be done to a workflow, none is stuck. -/
theorem Clear.unstuck {a : Board.Accounts} (hF : Clear F) (hg : e.board.Graph)
    (hcounting : e.board.Counting (duesIn F))
    (hswept : e.board.Swept (duesIn F)) (hmarked : e.Marked a F) : e.db.Unstuck where
  waits j job hget hpend := by
    obtain ⟨hcount, hpos⟩ := hF.pending_eq hcounting hget hpend
    obtain ⟨q, hq⟩ := Finset.card_pos.mp (show 0 < (e.openParents j).card by omega)
    obtain ⟨parent, hparent, hopen⟩ := hF.going hg hswept hget hpend hq
    refine ⟨q, parent, ?_, hparent, hopen⟩
    exact List.mem_toFinset.mp (Board.mem_parents.mp (mem_openParents.mp hq).1)
  spared j job q parent hget hpend hedge hparent hbad := by
    have hmem : q ∈ e.openParents j := by
      refine mem_openParents.mpr ⟨Board.mem_parents.mpr (List.mem_toFinset.mpr hedge), ?_⟩
      rintro ⟨r, hr, hsucc⟩
      rw [board_row, hparent] at hr
      obtain rfl := Option.some.inj hr
      rw [show parent.state = .succeeded from hsucc] at hbad
      simp at hbad
    obtain ⟨parent', hparent', hopen⟩ := hF.going hg hswept hget hpend hmem
    rw [hparent, Option.some.injEq] at hparent'
    subst hparent'
    cases hs : parent.state <;> simp_all [JobState.isTerminal]
  running w wf hget hrun := by
    have hrec : e.board.record w = some .running := by
      change (e.db.getWorkflow w).map _ = _
      rw [hget, Option.map_some, hrun]
    have hlabel := hmarked.labels w
    refine hmarked.exists_open hg hF (hlabel.named (show (e.board.record w).isSome by rw [hrec]; rfl)) ?_
    rcases hlabel.running hrec with hrem | ⟨f, hf⟩
    · exact hrem
    · exact absurd hf (hF.notMem rfl)

/-! ### Recovery -/

section Recovery

variable {cfg : EngineConfig} {types : List String} {world : World} {db : Database} {kept : List RowWrite}

theorem rowAfter_recovers (job : Job) : job.Recovers (e.rowAfter job) := by
  unfold rowAfter
  split_ifs with hrun
  · refine ⟨?_, .inr ⟨hrun, rfl⟩, rfl, rfl⟩
    rw [hrun]
    rfl
  · exact ⟨rfl, .inl rfl, rfl, rfl⟩

/-- The rows before and after recovery. -/
theorem getJob_recover (h : (restart cfg types world db kept).Chronicle)
    (hst : (restart cfg types world db kept).Stored)
    (hworld : ∀ n, world.fault n = false) (j : JobId) :
    db.getJob j = none ∧ (restart cfg types world db kept).recover.2.db.getJob j = none ∨
      ∃ job row, db.getJob j = some job ∧ (restart cfg types world db kept).recover.2.db.getJob j = some row ∧
        job.Recovers row := by
  cases hget : db.getJob j with
  | none =>
      refine .inl ⟨rfl, (getJob_foldl_recoverJob fun job hjob hid => ?_).trans hget⟩
      have hmem := (mem_loadNonTerminalJobs.mp hjob).1
      rw [← hid, Database.getJob, Table.lookup_eq_none] at hget
      exact hget (List.mem_map_of_mem hmem)
  | some job =>
      obtain ⟨hmem, rfl⟩ := Table.lookup_eq_some.mp hget
      cases hend : job.state.isTerminal with
      | true =>
          exact .inr ⟨job, job, rfl, getJob_recover_of_terminal cfg types world db kept hmem hend, rfl, .inl rfl, rfl,
            rfl⟩
      | false =>
          obtain ⟨e₀, -, hrow⟩ := (recovering_start h hst).getJob hworld (mem_loadNonTerminalJobs.mpr ⟨hmem, hend⟩)
          exact .inr ⟨job, e₀.rowAfter job, rfl, hrow, rowAfter_recovers job⟩

theorem workflows_recover : (restart cfg types world db kept).recover.2.db.workflows = db.workflows := by
  obtain ⟨q, log, n, rows, journal, hshape⟩ := (recover_recovered cfg types world db kept).shape
  exact congrArg (fun e : JobEngine => e.db.workflows) hshape

/-- Recovery does not get a workflow stuck. -/
theorem unstuck_recover (h : (restart cfg types world db kept).Chronicle)
    (hst : (restart cfg types world db kept).Stored) (hworld : ∀ n, world.fault n = false) (hdb : db.Unstuck) :
    (restart cfg types world db kept).recover.2.db.Unstuck := by
  have hload : (restart cfg types world db kept).recover.2.db.loadAllDependencies = db.loadAllDependencies := by
    rw [Database.loadAllDependencies, (recover_rebuilt hworld).deps]
    rfl
  have hback : ∀ {j : JobId} {row : Job}, (restart cfg types world db kept).recover.2.db.getJob j = some row →
      ∃ job, db.getJob j = some job ∧ job.Recovers row := by
    intro j row hrow
    rcases getJob_recover h hst hworld j with ⟨-, hnone⟩ | ⟨job, row', hget, hrow', hrec⟩
    · rw [hnone] at hrow
      cases hrow
    · rw [hrow, Option.some.injEq] at hrow'
      exact ⟨job, hget, hrow' ▸ hrec⟩
  have hforth : ∀ {j : JobId} {job : Job}, db.getJob j = some job →
      ∃ row, (restart cfg types world db kept).recover.2.db.getJob j = some row ∧ job.Recovers row := by
    intro j job hget
    rcases getJob_recover h hst hworld j with ⟨hnone, -⟩ | ⟨job', row, hget', hrow, hrec⟩
    · rw [hnone] at hget
      cases hget
    · rw [hget, Option.some.injEq] at hget'
      exact ⟨row, hrow, hget' ▸ hrec⟩
  refine ⟨fun j row hrow hpend => ?_, fun j row q parent hrow hpend hedge hparent hbad => ?_,
    fun w wf hget hrun => ?_⟩
  · obtain ⟨job, hjob, hrec⟩ := hback hrow
    obtain ⟨q, parent, hedge, hparent, hopen⟩ := hdb.waits j job hjob (hrec.pending_iff.mp hpend)
    obtain ⟨parent', hparent', hrec'⟩ := hforth hparent
    exact ⟨q, parent', hload ▸ hedge, hparent', hrec'.ended.trans hopen⟩
  · obtain ⟨job, hjob, hrec⟩ := hback hrow
    obtain ⟨before, hbefore, hrec'⟩ := hback hparent
    refine hdb.spared j job q before hjob (hrec.pending_iff.mp hpend) (hload ▸ hedge) hbefore ?_
    simp only [List.mem_cons, List.not_mem_nil, or_false] at hbad ⊢
    rwa [← hrec'.ended_as rfl, ← hrec'.ended_as rfl, ← hrec'.ended_as rfl, ← hrec'.ended_as rfl]
  · have hrecord : db.getWorkflow w = some wf := by
      rw [← hget, Database.getWorkflow, Database.getWorkflow, workflows_recover]
    obtain ⟨job, hmem, hopen⟩ := hdb.running w wf hrecord hrun
    obtain ⟨hjob, hw⟩ := (mem_listWorkflowJobs (e := restart cfg types world db kept)).mp hmem
    obtain ⟨row, hrow, hrec⟩ := hforth hjob
    refine ⟨row, mem_listWorkflowJobs.mpr ⟨?_, hrec.workflowId.trans hw⟩, hrec.ended.trans hopen⟩
    rw [getJob_jobId hrow, hrow]

end Recovery

end JobEngine

end DistributedJobEngine
