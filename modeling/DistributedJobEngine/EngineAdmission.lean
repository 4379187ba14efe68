import DistributedJobEngine.EngineMovesEnd
import DistributedJobEngine.BoardAdmission

/-! `submit` and `submit_workflow` either leave the board as it was or let new jobs enter it: ids that are
already taken are refused by the store, and a slot reserved for a job that is not inserted is given back. -/

namespace DistributedJobEngine

open LibTable

/-! ### The store -/

namespace Database

theorem rows_insertJobs {db db' : Database} {nodes : List Job} (h : db.insertJobs nodes = .ok db') :
    db'.jobs.rows = db.jobs.rows ++ nodes.map Job.persisted ∧ db'.workflows = db.workflows ∧
      db'.dependencies = db.dependencies := by
  induction nodes generalizing db with
  | nil =>
      cases h
      simp
  | cons job nodes ih =>
      obtain ⟨t, hins, h⟩ := insertJobs_cons_eq_ok h
      obtain ⟨hrows, hwf, hdeps⟩ := ih h
      refine ⟨?_, hwf, hdeps⟩
      rw [hrows, (Table.insert_eq_some.mp hins).2, List.append_assoc]
      rfl

/-- The loop that inserts the edges of a workflow. -/
theorem rows_insertEdges {w : WorkflowId} {edges : List (JobId × JobId)} {db db' : Database}
    (h : edges.foldlM (fun (db : Database) e =>
      match db.dependencies.insert ⟨w, e.1, e.2⟩ with
      | none => Except.error ("dependency insert failed: UNIQUE constraint failed: " ++
          "job_dependencies.workflow_id, job_dependencies.parent_job_id, job_dependencies.child_job_id")
      | some dependencies => .ok { db with dependencies }) db = .ok db') :
    db'.dependencies.rows = db.dependencies.rows ++ edges.map (fun e => ⟨w, e.1, e.2⟩) ∧ db'.jobs = db.jobs ∧
      db'.workflows = db.workflows := by
  induction edges generalizing db with
  | nil =>
      cases h
      simp
  | cons d edges ih =>
      rw [List.foldlM_cons] at h
      cases hins : db.dependencies.insert ⟨w, d.1, d.2⟩ with
      | none =>
          rw [hins] at h
          cases h
      | some t =>
          rw [hins] at h
          obtain ⟨hrows, hjobs, hwf⟩ := ih h
          refine ⟨?_, hjobs, hwf⟩
          rw [hrows, (Table.insert_eq_some.mp hins).2, List.append_assoc]
          rfl

/-- A workflow that was inserted is new, and its rows and edges are at the end of their tables. -/
theorem rows_insertWorkflow {db db' : Database} {wf : WorkflowRecord} {nodes : List Job}
    {edges : List (JobId × JobId)} (h : db.insertWorkflow wf nodes edges = .ok db') :
    db'.jobs.rows = db.jobs.rows ++ nodes.map Job.persisted ∧
      db'.dependencies.rows = db.dependencies.rows ++ edges.map (fun e => ⟨wf.workflowId, e.1, e.2⟩) ∧
      db.workflows.insert wf = some db'.workflows := by
  unfold insertWorkflow at h
  cases hins : db.workflows.insert wf with
  | none =>
      rw [hins] at h
      cases h
  | some t =>
      rw [hins] at h
      dsimp only at h
      cases hjobs : insertJobs { db with workflows := t } nodes with
      | error err =>
          rw [hjobs] at h
          cases h
      | ok db₁ =>
          rw [hjobs] at h
          obtain ⟨hrows, hwf, hdeps⟩ := rows_insertJobs hjobs
          obtain ⟨hrows', hjobs', hwf'⟩ := rows_insertEdges h
          refine ⟨by rw [hjobs', hrows], by rw [hrows', hdeps], by rw [hwf', hwf]⟩

theorem getJob_of_rows {db db' : Database} {nodes : List Job}
    (h : db'.jobs.rows = db.jobs.rows ++ nodes.map Job.persisted) (j : JobId) :
    db'.getJob j = if j ∈ nodes.map Job.jobId then (nodes.find? fun n => n.jobId = j).map Job.persisted
      else db.getJob j := by
  have hids : ((nodes.map Job.persisted).map Job.jobId) = nodes.map Job.jobId := by
    rw [List.map_map]
    rfl
  have hnd := db'.jobs.nodup
  rw [h, List.map_append, hids] at hnd
  have hfind : (nodes.map Job.persisted).find? (fun n => decide (n.jobId = j)) =
      (nodes.find? fun n => n.jobId = j).map Job.persisted := by
    rw [List.find?_map]
    rfl
  unfold getJob Table.lookup
  rw [h, List.find?_append, hfind]
  split_ifs with hj
  · have hnone : db.jobs.rows.find? (fun n => decide (n.jobId = j)) = none :=
      Table.lookup_eq_none.mpr fun hmem => List.disjoint_of_nodup_append hnd hmem hj
    rw [hnone, Option.none_or]
  · have hnone : nodes.find? (fun n => decide (n.jobId = j)) = none := by
      rw [List.find?_eq_none]
      intro n hn hid
      exact hj (List.mem_map.mpr ⟨n, hn, of_decide_eq_true hid⟩)
    rw [hnone, Option.map_none, Option.or_none]

end Database

namespace JobEngine

variable {e e' : JobEngine}

/-! ### Putting rows on the queue -/

/-- The jobs `ids` were put on the queue as far as it takes them; besides the queue only the log and the
position of the streams changed. -/
structure Queued (e e' : JobEngine) (ids : List JobId) : Prop where
  shape : ∃ q log n, e' = { e with queue := q, log := log, world := { e.world with pos := n } }
  kept : e.queue.Kept e'.queue
  live : e.queue.live ⊆ e'.queue.live ∧ e'.queue.live ⊆ e.queue.live ∪ ids.toFinset
  room : e.queue.closed = false → e.queue.live.card + ids.length ≤ e.queue.capacity →
    e'.queue.live = e.queue.live ∪ ids.toFinset ∧ e'.log = e.log

theorem Queued.refl (hq : e.queue.Consistent) : e.Queued e [] where
  shape := ⟨e.queue, e.log, e.world.pos, rfl⟩
  kept := ⟨hq, rfl, rfl⟩
  live := ⟨subset_rfl, by simp⟩
  room _ _ := ⟨by simp, rfl⟩

theorem enqueue_queued (hq : e.queue.Consistent) (job : Job) : e.Queued (e.enqueue job) [job.jobId] := by
  obtain ⟨hkept, hcase⟩ := hq.push_live e.tick.nowMs job.jobId job.priority (e.readySteady job)
  have hqueue : (e.enqueue job).queue =
      (e.queue.push e.tick.nowMs job.jobId job.priority (e.readySteady job)).2 := by
    unfold enqueue
    dsimp only
    split_ifs <;> rfl
  have hinsert : insert job.jobId e.queue.live = e.queue.live ∪ [job.jobId].toFinset := by simp
  refine ⟨?_, by rw [hqueue]; exact hkept, ?_, ?_⟩
  · unfold enqueue
    dsimp only
    split_ifs <;> exact ⟨_, _, _, rfl⟩
  · rw [hqueue]
    rcases hcase with ⟨-, hlive⟩ | ⟨-, hsame⟩
    · rw [hlive]
      exact ⟨Finset.subset_insert _ _, hinsert.subset⟩
    · rw [hsame]
      exact ⟨subset_rfl, Finset.subset_union_left⟩
  · intro hopen hroom
    have hok : (e.queue.push e.tick.nowMs job.jobId job.priority (e.readySteady job)).1 = .ok := by
      rw [hq.card_live, List.length_singleton] at hroom
      rw [PriorityJobQueue.push, if_neg (by simp [hopen]), if_neg (by omega)]
    rcases hcase with ⟨-, hlive⟩ | ⟨hnot, -⟩
    · refine ⟨?_, ?_⟩
      · rw [hqueue, hlive, hinsert]
      · have hnotFull : (e.tick.queue.push e.tick.nowMs job.jobId job.priority (e.readySteady job)).1 ≠ .full := by
          rw [show e.tick.queue = e.queue from rfl, hok]
          simp
        simp only [enqueue, hnotFull, if_false]
        rfl
    · exact absurd hok hnot

theorem Queued.trans {e₁ e₂ : JobEngine} {ids₁ ids₂ : List JobId} (h₁ : e.Queued e₁ ids₁)
    (h₂ : e₁.Queued e₂ ids₂) : e.Queued e₂ (ids₁ ++ ids₂) where
  shape := by
    obtain ⟨q₁, log₁, n₁, rfl⟩ := h₁.shape
    obtain ⟨q₂, log₂, n₂, rfl⟩ := h₂.shape
    exact ⟨q₂, log₂, n₂, rfl⟩
  kept := ⟨h₂.kept.consistent, h₂.kept.capacity.trans h₁.kept.capacity, h₂.kept.closed.trans h₁.kept.closed⟩
  live := by
    refine ⟨h₁.live.1.trans h₂.live.1, h₂.live.2.trans ?_⟩
    rw [List.toFinset_append, ← Finset.union_assoc]
    exact Finset.union_subset_union_left h₁.live.2
  room hopen hroom := by
    rw [List.length_append] at hroom
    obtain ⟨hlive₁, hlog₁⟩ := h₁.room hopen (by omega)
    have hle : e₁.queue.live.card ≤ e.queue.live.card + ids₁.length := by
      rw [hlive₁]
      exact (Finset.card_union_le _ _).trans (Nat.add_le_add_left (List.toFinset_card_le _) _)
    obtain ⟨hlive₂, hlog₂⟩ := h₂.room (h₁.kept.closed.trans hopen) (by rw [h₁.kept.capacity]; omega)
    exact ⟨by rw [hlive₂, hlive₁, List.toFinset_append, Finset.union_assoc], hlog₂.trans hlog₁⟩

theorem foldl_enqueue_queued (hq : e.queue.Consistent) (jobs : List Job) :
    e.Queued (jobs.foldl enqueue e) (jobs.map (·.jobId)) := by
  induction jobs generalizing e with
  | nil => exact .refl hq
  | cons job jobs ih =>
      have h := enqueue_queued hq job
      exact h.trans (ih h.kept.consistent)

theorem Queued.board_eq {ids : List JobId} (h : e.Queued e' ids) :
    e'.board = { e.board with live := e'.queue.live } := by
  obtain ⟨q, log, n, rfl⟩ := h.shape
  rfl

/-! ### Submitting a job -/

/-- The jobs `N` were admitted as the nodes of `w`, or as single jobs if `w` is empty. -/
structure Admitted (e e' : JobEngine) (N : Finset JobId) (w : WorkflowId) : Prop where
  admits : e.board.Admits e'.board N w
  submitted : e'.metrics.jobsSubmitted = e.metrics.jobsSubmitted + N.card
  bounded : e'.outstanding ≤ e.cfg.maxOutstandingJobs
  room : e.queue.closed = false → e.queue.live.card + N.card ≤ e.queue.capacity →
    (∀ j ∈ N, ∀ r, e'.board.row j = some r → (j ∈ e'.board.live ↔ j ∈ e.board.live ∨ r.state ≠ .pending)) ∧
      e'.log = e.log

/-- What a call that submits jobs does: it is refused or it admits them all. -/
structure Submitted (e e' : JobEngine) : Prop where
  cfg : e'.cfg = e.cfg
  fault : e'.world.fault = e.world.fault
  kept : e.queue.Kept e'.queue
  ledger : e'.ledger = e.ledger
  running : e'.running = e.running
  board : (e'.board = e.board ∧ e'.metrics.jobsSubmitted = e.metrics.jobsSubmitted ∧ e'.log = e.log) ∨
    ∃ N w, e.Admitted e' N w

theorem Submitted.refused (hq : e.queue.Consistent) {world : World} {metrics : Metrics} {seq : Int}
    (hfault : world.fault = e.world.fault) (hterminal : metrics.terminal = e.metrics.terminal)
    (hsubmitted : metrics.jobsSubmitted = e.metrics.jobsSubmitted) :
    e.Submitted { e with world, metrics, seqCounter := seq } where
  cfg := rfl
  fault := hfault
  kept := ⟨hq, rfl, rfl⟩
  ledger := rfl
  running := rfl
  board := by
    refine .inl ⟨?_, hsubmitted, rfl⟩
    apply Board.ext <;> first | rfl | exact hterminal

theorem board_insertJob {job : Job} {t : LibTable.Table Job.jobId} (h : e.db.jobs.insert job.persisted = some t) :
    e.board.row job.jobId = none ∧
      ({ e with db := { e.db with jobs := t } } : JobEngine).board =
        { e.board with
          ids := e.board.ids ∪ {job.jobId}
          row := Function.update e.board.row job.jobId (some job.stub) } := by
  obtain ⟨hnone, hrows⟩ := LibTable.Table.insert_eq_some.mp h
  have hfresh : e.db.getJob job.jobId = none := hnone
  refine ⟨by rw [board_row, hfresh]; rfl, ?_⟩
  apply Board.ext <;> try rfl
  · change (t.rows.map Job.jobId).toFinset = _
    rw [hrows, List.map_append, List.toFinset_append]
    rfl
  · funext i
    change (t.lookup i).map Job.stub = Function.update e.board.row job.jobId (some job.stub) i
    rw [LibTable.Table.lookup_of_insert h]
    by_cases hi : i = job.jobId
    · subst hi
      rw [Function.update_self]
      exact congrArg (Option.map Job.stub) (if_pos rfl)
    · rw [Function.update_of_ne hi, if_neg fun hid => hi hid.symm]
      rfl

theorem starts_submitJob {req : SubmitRequest} (hwf : req.workflowId = "") (hdeps : req.pendingDeps = 0) :
    Board.Starts (e.submitJob req).stub "" 0 := by
  refine ⟨hwf, hdeps, ?_⟩
  rw [if_neg (lt_irrefl 0)]
  change (if 0 < req.pendingDeps then JobState.pending else req.startState) = .queued ∨
    (if 0 < req.pendingDeps then JobState.pending else req.startState) = .scheduled
  rw [hdeps, if_neg (lt_irrefl 0), SubmitRequest.startState]
  split_ifs
  · exact .inr rfl
  · exact .inl rfl

theorem insertJob_of_taken (hr : e.Reliable) {job : Job} (h : e.db.jobs.insert job.persisted = none) :
    e.insertJob job = .error "job write failed: UNIQUE constraint failed: jobs.job_id" := by
  rw [insertJob, hr e.world.pos]
  simp only [Bool.false_eq_true, if_false, Database.writeJobRow, if_true, h]

theorem insertJob_of_fresh (hr : e.Reliable) {job : Job} {t : LibTable.Table Job.jobId}
    (h : e.db.jobs.insert job.persisted = some t) :
    e.insertJob job = .ok { e with
      db := { e.db with jobs := t }
      world := { e.world with pos := e.world.pos + 1 }
      journal := e.journal ++ [.insert job] } := by
  rw [insertJob, hr e.world.pos]
  simp only [Bool.false_eq_true, if_false, Database.writeJobRow, if_true, h]
  rfl

theorem board_admitJob {e₁ : JobEngine} {job : Job} {t : LibTable.Table Job.jobId}
    (h : e.db.jobs.insert job.persisted = some t)
    (he₁ : e₁ = { e with
      db := { e.db with jobs := t }
      outstanding := e.outstanding + 1
      seqCounter := e₁.seqCounter
      world := e₁.world
      metrics := e₁.metrics
      journal := e₁.journal })
    (hterminal : e₁.metrics.terminal = e.metrics.terminal) :
    e₁.board = { e.board with
      ids := e.board.ids ∪ {job.jobId}
      row := Function.update e.board.row job.jobId (some job.stub)
      outstanding := e.board.outstanding + 1 } := by
  have hb := (board_insertJob h).2
  rw [Board.ext_iff] at hb
  obtain ⟨hids, hrow, -⟩ := hb
  rw [he₁]
  apply Board.ext <;> first | rfl | exact hids | exact hrow | exact hterminal

/-- A job whose id is taken is not inserted and its slot is given back. -/
theorem submitReserved_of_taken (hr : e.Reliable) {req : SubmitRequest}
    (h : e.db.jobs.insert (e.submitJob req).persisted = none) :
    (e.submitReserved req).2 = ({ e.tick with seqCounter := e.seqCounter + 1 } : JobEngine).tick.releaseSlot := by
  have hins := insertJob_of_taken (e := { e.tick with seqCounter := e.seqCounter + 1 }) hr h
  simp only [submitReserved, hins]

theorem submitReserved_of_fresh (hr : e.Reliable) {req : SubmitRequest} {t : LibTable.Table Job.jobId}
    (h : e.db.jobs.insert (e.submitJob req).persisted = some t) (hopen : (e.submitJob req).state ≠ .pending) :
    (e.submitReserved req).2 = ({ e with
      db := { e.db with jobs := t }
      metrics := { e.metrics with jobsSubmitted := e.metrics.jobsSubmitted + 1 }
      seqCounter := e.seqCounter + 1
      world := { e.world with pos := e.world.pos + 1 + 1 }
      journal := e.journal ++ [.insert (e.submitJob req)] } : JobEngine).enqueue (e.submitJob req) := by
  have hins := insertJob_of_fresh (e := { e.tick with seqCounter := e.seqCounter + 1 }) hr h
  simp only [submitReserved, hins, hopen, if_false]
  rfl

/-- `e₁` is `e` with the row of `job` inserted and a slot reserved for it. -/
theorem Submitted.single {D : Multiset Due} (hs : e.board.Safe D) (hq : e.queue.Consistent) {e₁ : JobEngine}
    {job : Job} {t : LibTable.Table Job.jobId} (hins : e.db.jobs.insert job.persisted = some t)
    (he₁ : e₁ = { e with
      db := { e.db with jobs := t }
      outstanding := e.outstanding + 1
      seqCounter := e₁.seqCounter
      world := e₁.world
      metrics := e₁.metrics
      journal := e₁.journal })
    (hfault : e₁.world.fault = e.world.fault) (hterminal : e₁.metrics.terminal = e.metrics.terminal)
    (hcount : e₁.metrics.jobsSubmitted = e.metrics.jobsSubmitted + 1) (hst : Board.Starts job.stub "" 0)
    (hmore : e.outstanding < e.cfg.maxOutstandingJobs) : e.Submitted (e₁.enqueue job) := by
  have hopen : job.state ≠ .pending := fun hp => absurd (hst.pending_iff.mp hp) (lt_irrefl 0)
  have hqueue : e₁.queue = e.queue := by rw [he₁]
  have hqueued := enqueue_queued (hqueue ▸ hq) job
  have hb := hqueued.board_eq
  rw [board_admitJob hins he₁ hterminal] at hb
  have hadmits := hs.single (board_insertJob hins).1 hst (hqueue ▸ hqueued.live)
  obtain ⟨q, log, n, hshape⟩ := hqueued.shape
  refine ⟨?_, ?_, hqueue ▸ hqueued.kept, ?_, ?_, .inr ⟨{job.jobId}, "", ?_, ?_, ?_, ?_⟩⟩
  · rw [hshape, he₁]
  · rw [hshape]
    exact hfault
  · rw [hshape, he₁]
  · rw [hshape, he₁]
  · rw [hb]
    exact hadmits
  · rw [hshape]
    exact hcount
  · rw [hshape, he₁]
    exact hmore
  · intro hclosed hroom
    obtain ⟨hlive, hlog⟩ := hqueued.room (hqueue ▸ hclosed) (by rw [hqueue]; exact hroom)
    refine ⟨fun j hj r hrow => ?_, by rw [hlog, he₁]⟩
    rw [Finset.mem_singleton.mp hj] at hrow ⊢
    rw [hb] at hrow ⊢
    change Function.update e.board.row job.jobId (some job.stub) job.jobId = some r at hrow
    rw [Function.update_self, Option.some.injEq] at hrow
    refine ⟨fun _ => .inr (hrow ▸ hopen), fun _ => ?_⟩
    change job.jobId ∈ (e₁.enqueue job).queue.live
    rw [hlive]
    simp

/-- With the slot reserved, a single job enters the board or the slot is given back. -/
theorem submitReserved_submitted {D : Multiset Due} (hr : e.Reliable) (hq : e.queue.Consistent)
    (hs : e.board.Safe D) (hmore : e.outstanding < e.cfg.maxOutstandingJobs) {req : SubmitRequest}
    (hwf : req.workflowId = "") (hdeps : req.pendingDeps = 0) :
    e.Submitted (({ e with outstanding := e.outstanding + 1 } : JobEngine).submitReserved req).2 := by
  have hst : Board.Starts (e.submitJob req).stub "" 0 := starts_submitJob hwf hdeps
  have hopen : (e.submitJob req).state ≠ .pending := fun hp => absurd (hst.pending_iff.mp hp) (lt_irrefl 0)
  cases hins : e.db.jobs.insert (e.submitJob req).persisted with
  | none =>
      rw [submitReserved_of_taken (e := { e with outstanding := e.outstanding + 1 }) hr hins]
      exact .refused hq rfl rfl rfl
  | some t =>
      rw [submitReserved_of_fresh (e := { e with outstanding := e.outstanding + 1 }) hr hins hopen]
      exact .single hs hq hins rfl rfl rfl rfl hst hmore

/-- **A single job is refused or enters the board.** -/
theorem submit_submitted {D : Multiset Due} (hr : e.Reliable) (hq : e.queue.Consistent) (hs : e.board.Safe D)
    {req : SubmitRequest} (hwf : req.workflowId = "") (hdeps : req.pendingDeps = 0) :
    e.Submitted (e.submit req).2 := by
  exact submit_rule (P := e.Submitted) req (fun _ => .refused hq rfl rfl rfl) fun hmore =>
    submitReserved_submitted hr hq hs hmore hwf hdeps

end JobEngine

end DistributedJobEngine
