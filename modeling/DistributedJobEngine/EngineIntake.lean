import DistributedJobEngine.EngineHistory

/-! What a submission adds, row by row: the columns of the new rows, their sequence numbers, and the entries of
those that do not wait for others. -/

namespace DistributedJobEngine

open LibTable

/-- A row as a submission makes it. -/
structure Job.Fresh (job : Job) : Prop where
  attempt : job.attempt = 0
  state : job.state = .pending ∨ job.state = .queued ∨ job.state = .scheduled
  cancel : job.cancelRequested = false
  waits : job.state = .pending → job.workflowId ≠ ""

namespace JobEngine

variable {e e' : JobEngine}

/-- The sequence numbers from `n` on, below `m`, in the order of the rows. -/
structure Numbered (n m : Int) (rows : List Job) : Prop where
  le : n ≤ m
  range : ∀ job ∈ rows, n ≤ job.seq ∧ job.seq < m
  sorted : rows.Pairwise fun a b => a.seq < b.seq

theorem Numbered.nil {n m : Int} (h : n ≤ m) : Numbered n m [] := ⟨h, by simp, .nil⟩

theorem Numbered.cons {n m : Int} {job : Job} {rows : List Job} (hjob : job.seq = n) (h : Numbered (n + 1) m rows) :
    Numbered n m (job :: rows) := by
  have hle := h.le
  refine ⟨by omega, ?_, List.pairwise_cons.mpr ⟨fun b hb => ?_, h.sorted⟩⟩
  · rw [List.forall_mem_cons]
    refine ⟨by omega, fun b hb => ?_⟩
    obtain ⟨h₁, h₂⟩ := h.range b hb
    omega
  · have hb := (h.range b hb).1
    omega

/-- What a call that submits jobs does: `news` are the rows it has inserted. -/
structure Intake (e e' : JobEngine) (news : List Job) : Prop where
  rows : e'.db.jobs.rows = e.db.jobs.rows ++ news.map Job.persisted
  fresh : ∀ job ∈ news, job.Fresh
  ready : ∀ job ∈ news, job.state = .queued → job.readyAtWallMs = e.wallMs
  numbered : Numbered e.seqCounter e'.seqCounter news
  queued : ∃ e₁ : JobEngine, e.Flows e₁ ∧ e₁.queue = e.queue ∧ e₁.db = e'.db ∧
    e' = (news.filter fun j => j.state ≠ .pending).foldl enqueue e₁

/-- A call that inserts nothing. -/
theorem Intake.refused (hjobs : e'.db.jobs = e.db.jobs) (hflows : e.Flows e') (hqueue : e'.queue = e.queue)
    (hseq : e.seqCounter ≤ e'.seqCounter) : e.Intake e' [] where
  rows := by rw [hjobs]; simp
  fresh := by simp
  ready := by simp
  numbered := .nil hseq
  queued := ⟨e', hflows, hqueue, rfl, rfl⟩

theorem Intake.congr {e₀ : JobEngine} {news : List Job} (h : e₀.Intake e' news) (hdb : e₀.db = e.db)
    (hworld : e₀.world = e.world) (hqueue : e₀.queue = e.queue) (hseq : e₀.seqCounter = e.seqCounter) :
    e.Intake e' news := by
  obtain ⟨hrows, hfresh, hready, hnumbered, e₁, hflows, hq, hdb₁, he'⟩ := h
  refine ⟨hdb ▸ hrows, hfresh, ?_, hseq ▸ hnumbered, e₁, ?_, hq.trans hqueue, hdb₁, he'⟩
  · unfold wallMs
    rw [← hworld]
    exact hready
  · unfold Flows
    rw [← hworld]
    exact hflows

theorem startState_eq (req : SubmitRequest) : req.startState = .queued ∨ req.startState = .scheduled := by
  unfold SubmitRequest.startState
  split_ifs
  · exact .inr rfl
  · exact .inl rfl

/-- The state a row starts in, `deps` being what it waits for. -/
theorem fresh_state {α : Type} [LT α] [DecidableLT α] (req : SubmitRequest) (deps zero : α) :
    (if zero < deps then JobState.pending else req.startState) = .pending ∨
      (if zero < deps then JobState.pending else req.startState) = .queued ∨
      (if zero < deps then JobState.pending else req.startState) = .scheduled := by
  split_ifs
  · exact .inl rfl
  · exact .inr (startState_eq req)

/-- A job that starts as queued has no delay. -/
theorem ready_of_queued {α : Type} [LT α] [DecidableLT α] {req : SubmitRequest} {deps zero : α} (created : Int)
    (h : (if zero < deps then JobState.pending else req.startState) = .queued) :
    created + max 0 req.delayMs = created := by
  unfold SubmitRequest.startState at h
  split_ifs at h with hdeps hdelay
  omega

theorem seqCounter_foldl_enqueue (jobs : List Job) : (jobs.foldl enqueue e).seqCounter = e.seqCounter := by
  induction jobs generalizing e with
  | nil => rfl
  | cons job jobs ih => rw [List.foldl_cons, ih, (enqueue_onward job).seqCounter]

theorem insertJob_rows {job : Job} (h : e.insertJob job = .ok e') :
    e'.db.jobs.rows = e.db.jobs.rows ++ [job.persisted] ∧ e'.queue = e.queue ∧ e'.seqCounter = e.seqCounter ∧
      e.Flows e' := by
  obtain ⟨t, hins, rfl⟩ := insertJob_eq_ok h
  exact ⟨(Table.insert_eq_some.mp hins).2, rfl, rfl, tick_flows e⟩

theorem insertWorkflow_rows {wf : WorkflowRecord} {rows : List Job} {edges : List (JobId × JobId)}
    (h : e.insertWorkflow wf rows edges = .ok e') : e'.db.jobs.rows = e.db.jobs.rows ++ rows.map Job.persisted ∧
      e'.queue = e.queue ∧ e'.seqCounter = e.seqCounter ∧ e.Flows e' := by
  obtain ⟨db, hins, rfl⟩ := insertWorkflow_eq_ok h
  exact ⟨(Database.rows_insertWorkflow hins).1, rfl, rfl, tick_flows e⟩

theorem submitJob_fresh {req : SubmitRequest} (hdeps : req.pendingDeps = 0) : (e.submitJob req).Fresh := by
  refine ⟨rfl, fresh_state req req.pendingDeps 0, rfl, fun hpend => ?_⟩
  change (if 0 < req.pendingDeps then JobState.pending else req.startState) = .pending at hpend
  rw [hdeps, if_neg (lt_irrefl 0)] at hpend
  rcases startState_eq req with hs | hs <;> rw [hs] at hpend <;> cases hpend

theorem submitReserved_intake {req : SubmitRequest} (hdeps : req.pendingDeps = 0) :
    ∃ news, e.Intake (e.submitReserved req).2 news := by
  have hfresh : (e.submitJob req).Fresh := submitJob_fresh hdeps
  unfold submitReserved
  dsimp only
  have hflows : e.Flows { e.tick with seqCounter := e.seqCounter + 1 } := e.tick_flows
  cases hins : ({ e.tick with seqCounter := e.seqCounter + 1 } : JobEngine).insertJob (e.submitJob req) with
  | error err => exact ⟨[], .refused rfl (hflows.trans (tick_flows _)) rfl (by simp [tick, releaseSlot])⟩
  | ok e₁ =>
      obtain ⟨hrows, hqueue, hseq, hins'⟩ := insertJob_rows hins
      have hflows₁ := hflows.trans hins'
      have hnumbered : Numbered e.seqCounter (e.seqCounter + 1) [e.submitJob req] := .cons rfl (.nil le_rfl)
      set e₂ : JobEngine :=
        { e₁ with metrics := { e₁.metrics with jobsSubmitted := e₁.metrics.jobsSubmitted + 1 } } with he₂
      have hready : ∀ job ∈ [e.submitJob req], job.state = .queued → job.readyAtWallMs = e.wallMs := by
        intro job hjob hqueued
        rw [List.mem_singleton.mp hjob] at hqueued ⊢
        exact ready_of_queued e.wallMs hqueued
      refine ⟨[e.submitJob req], ?_⟩
      dsimp only
      split_ifs with hpending
      · refine ⟨hrows, by simpa using hfresh, hready, hseq ▸ hnumbered, e₂, hflows₁, hqueue, rfl, ?_⟩
        rw [List.filter_cons_of_neg (by simpa using hpending)]
        rfl
      · refine ⟨?_, by simpa using hfresh, hready, ?_, e₂, hflows₁, hqueue, ?_, ?_⟩
        · rw [(enqueue_rows _).1]
          exact hrows
        · rw [(enqueue_onward _).seqCounter]
          exact hseq ▸ hnumbered
        · rw [(enqueue_rows _).1]
        · rw [List.filter_cons_of_pos (by simpa using hpending)]
          rfl

theorem workflowRows_numbered (w : WorkflowId) (created : Int) (edges : List (String × String))
    (nodes : List WorkflowNodeSpec) : Numbered e.seqCounter (workflowRows w created edges nodes e).2.seqCounter
      (workflowRows w created edges nodes e).1 := by
  induction nodes generalizing e with
  | nil => exact .nil le_rfl
  | cons node nodes ih => exact .cons rfl (ih (e := { e.tick with seqCounter := e.seqCounter + 1 }))

theorem workflowRows_fresh {w : WorkflowId} (hw : w ≠ "") (created : Int) (edges : List (String × String))
    (nodes : List WorkflowNodeSpec) : ∀ row ∈ (workflowRows w created edges nodes e).1, row.Fresh := by
  induction nodes generalizing e with
  | nil => simp [workflowRows]
  | cons node nodes ih =>
      rw [workflowRows, List.forall_mem_cons]
      exact ⟨⟨rfl, fresh_state node.request (indegree edges node.name) 0, rfl, fun _ => hw⟩, ih⟩

theorem workflowRows_ready (w : WorkflowId) (created : Int) (edges : List (String × String))
    (nodes : List WorkflowNodeSpec) :
    ∀ row ∈ (workflowRows w created edges nodes e).1, row.state = .queued → row.readyAtWallMs = created := by
  induction nodes generalizing e with
  | nil => simp [workflowRows]
  | cons node nodes ih =>
      rw [workflowRows, List.forall_mem_cons]
      exact ⟨fun hqueued => ready_of_queued created hqueued, ih⟩

theorem submitWorkflowReserved_intake (name : String) (nodes : List WorkflowNodeSpec)
    (edges : List (String × String)) : ∃ news, e.Intake (e.submitWorkflowReserved name nodes edges).2 news := by
  have hshape := workflowRows_shape (e.newId "w_") e.wallMs edges nodes e.tick
  have hnumbered := workflowRows_numbered (e := e.tick) (e.newId "w_") e.wallMs edges nodes
  have hfresh := workflowRows_fresh (e := e.tick) (newId_ne_empty (e := e) (k := "w_") (by decide)) e.wallMs
    edges nodes
  have hready := workflowRows_ready (e := e.tick) (e.newId "w_") e.wallMs edges nodes
  have hflows := e.tick_flows.trans (workflowRows_flows (e.newId "w_") e.wallMs edges nodes)
  unfold submitWorkflowReserved
  rcases hw : workflowRows (e.newId "w_") e.wallMs edges nodes e.tick with ⟨rows, e₂⟩
  rw [hw] at hshape hnumbered hfresh hready hflows
  obtain ⟨n, seq, he₂⟩ := hshape
  dsimp only at he₂ hnumbered hfresh hready hflows
  simp only [hw]
  have hdb : e₂.db = e.db := by rw [he₂]; rfl
  have hqueue : e₂.queue = e.queue := by rw [he₂]; rfl
  cases hins : e₂.insertWorkflow
      { workflowId := e.newId "w_", name := name, createdAtMs := e.wallMs, nodeCount := nodes.length } rows
      (edges.map fun d => (idOfNode rows d.1, idOfNode rows d.2)) with
  | error err =>
      obtain ⟨n, hback⟩ := exists_foldl_releaseSlot rows e₂.tick
      dsimp only
      rw [hback]
      exact ⟨[], .refused (congrArg Database.jobs hdb) (hflows.trans (tick_flows e₂)) hqueue hnumbered.le⟩
  | ok e₃ =>
      obtain ⟨hrows, hqueue₃, hseq, hins'⟩ := insertWorkflow_rows hins
      have hflows₃ := hflows.trans hins'
      dsimp only
      refine ⟨rows, ⟨?_, hfresh, hready, ?_, _, ?_, ?_, ?_, rfl⟩⟩
      · rw [(foldl_enqueue_rows _).1, ← hdb]
        exact hrows
      · rw [seqCounter_foldl_enqueue]
        exact hseq ▸ hnumbered
      · exact hflows₃
      · exact hqueue₃.trans hqueue
      · rw [(foldl_enqueue_rows _).1]

/-- **A submission**: new rows at the end of the table, numbered in their order, and entries for those that are
ready to run. -/
theorem submits_intake (h : Submits e e') : ∃ news, e.Intake e' news := by
  cases h with
  | job req _ hdeps =>
      refine submit_rule (P := fun e' => ∃ news, e.Intake e' news) req
        (fun _ => ⟨[], .refused rfl ⟨rfl, le_rfl⟩ rfl le_rfl⟩) fun _ => ?_
      obtain ⟨news, hnews⟩ := submitReserved_intake (e := { e with outstanding := e.outstanding + 1 }) hdeps
      exact ⟨news, hnews.congr rfl rfl rfl rfl⟩
  | workflow name nodes edges =>
      refine submitWorkflow_rule (P := fun e' => ∃ news, e.Intake e' news) name nodes edges
        (fun _ => ⟨[], .refused rfl ⟨rfl, le_rfl⟩ rfl le_rfl⟩) fun _ _ => ?_
      obtain ⟨news, hnews⟩ := submitWorkflowReserved_intake
        (e := { e with outstanding := e.outstanding + nodes.length }) name nodes edges
      exact ⟨news, hnews.congr rfl rfl rfl rfl⟩

end JobEngine

end DistributedJobEngine
