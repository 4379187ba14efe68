import DistributedJobEngine.EngineCapacity
import DistributedJobEngine.EngineKahn

/-! What a call of `submit_workflow` leaves behind: nothing when it is refused, and when it is accepted a row for
every node, of which those without a parent are on the queue. -/

namespace DistributedJobEngine

open LibTable

/-! ### Inserting the rows and edges of a workflow -/

namespace Database

/-- Edges that are new and differ from each other are inserted. -/
theorem insertEdges_ok {db : Database} {w : WorkflowId} {edges : List (JobId × JobId)}
    (h : (db.dependencies.rows ++ edges.map fun e => (⟨w, e.1, e.2⟩ : Dependency)).Nodup) :
    ∃ db', edges.foldlM (fun db e =>
      match db.dependencies.insert ⟨w, e.1, e.2⟩ with
      | none => Except.error ("dependency insert failed: UNIQUE constraint failed: " ++
          "job_dependencies.workflow_id, job_dependencies.parent_job_id, job_dependencies.child_job_id")
      | some dependencies => .ok { db with dependencies }) db = .ok db' := by
  induction edges generalizing db with
  | nil => exact ⟨db, rfl⟩
  | cons d edges ih =>
      have hnew : db.dependencies.lookup ⟨w, d.1, d.2⟩ = none := by
        rw [Table.lookup_eq_none, List.map_id]
        exact fun hmem => List.disjoint_of_nodup_append h hmem List.mem_cons_self
      obtain ⟨t, ht⟩ := Table.insert_of_fresh (r := (⟨w, d.1, d.2⟩ : Dependency)) hnew
      obtain ⟨db', hdb'⟩ := @ih { db with dependencies := t } (by
        rw [(Table.insert_eq_some.mp ht).2, List.append_assoc]
        exact h)
      refine ⟨db', ?_⟩
      rw [List.foldlM_cons, ht]
      exact hdb'

theorem insertWorkflow_ok {db : Database} {wf : WorkflowRecord} {nodes : List Job} {edges : List (JobId × JobId)}
    (hwf : db.getWorkflow wf.workflowId = none) (hjobs : (db.jobs.rows.map Job.jobId ++ nodes.map Job.jobId).Nodup)
    (hdeps : ∀ d ∈ db.dependencies.rows, d.workflowId ≠ wf.workflowId) (hedges : edges.Nodup) :
    ∃ db', db.insertWorkflow wf nodes edges = .ok db' := by
  obtain ⟨t, ht⟩ := Table.insert_of_fresh (t := db.workflows) (r := wf) hwf
  obtain ⟨jobs, -, hinsert⟩ := @insertJobs_ok { db with workflows := t } _ hjobs
  have hnodup : (db.dependencies.rows ++ edges.map fun e => (⟨wf.workflowId, e.1, e.2⟩ : Dependency)).Nodup := by
    refine List.Nodup.append ?_ (hedges.map fun a b hab => ?_) fun d hd hnew => ?_
    · have hnd := db.dependencies.nodup
      rwa [List.map_id] at hnd
    · cases a
      cases b
      cases hab
      rfl
    · obtain ⟨e, -, rfl⟩ := List.mem_map.mp hnew
      exact hdeps _ hd rfl
  obtain ⟨db', hdb'⟩ := @insertEdges_ok { db with workflows := t, jobs } _ _ hnodup
  refine ⟨db', ?_⟩
  rw [insertWorkflow, ht]
  dsimp only
  rw [hinsert]
  exact hdb'

end Database

namespace JobEngine

variable {e e' : JobEngine}

/-! ### Refusals -/

/-- What a workflow touches when it is accepted. -/
structure WorkflowView where
  db : Database
  outstanding : ℕ
  queue : PriorityJobQueue
  children : AList (fun _ : JobId => List JobId)
  pendingDeps : AList (fun _ : JobId => Int)
  wfNodes : AList (fun _ : WorkflowId => Finset JobId)
  wfRemaining : AList (fun _ : WorkflowId => Int)
  wfFailures : AList (fun _ : WorkflowId => Int)

def workflowView (e : JobEngine) : WorkflowView where
  db := e.db
  outstanding := e.outstanding
  queue := e.queue
  children := e.children
  pendingDeps := e.pendingDeps
  wfNodes := e.wfNodes
  wfRemaining := e.wfRemaining
  wfFailures := e.wfFailures

/-- The rows of a workflow take nothing but readings and seqs. -/
theorem length_workflowRows (w : WorkflowId) (created : Int) (edges : List (String × String))
    (nodes : List WorkflowNodeSpec) (e : JobEngine) :
    (workflowRows w created edges nodes e).1.length = nodes.length := by
  have hnames := congrArg List.length (workflowRows_names w created edges nodes e)
  rwa [List.length_map, List.length_map] at hnames

theorem submitWorkflowReserved_refused (e : JobEngine) (name : String) (nodes : List WorkflowNodeSpec)
    (edges : List (String × String))
    (h : (({ e with outstanding := e.outstanding + nodes.length } : JobEngine).submitWorkflowReserved name nodes
      edges).1.status ≠ .ok) :
    (({ e with outstanding := e.outstanding + nodes.length } : JobEngine).submitWorkflowReserved name nodes
        edges).2.workflowView = e.workflowView ∧
      (({ e with outstanding := e.outstanding + nodes.length } : JobEngine).submitWorkflowReserved name nodes
        edges).1.workflowId = "" ∧
      (({ e with outstanding := e.outstanding + nodes.length } : JobEngine).submitWorkflowReserved name nodes
        edges).1.nodeIds = [] := by
  set e₀ : JobEngine := { e with outstanding := e.outstanding + nodes.length } with he₀
  unfold submitWorkflowReserved at h ⊢
  have hshape := workflowRows_shape (e₀.newId "w_") e₀.wallMs edges nodes e₀.tick
  have hlength := length_workflowRows (e₀.newId "w_") e₀.wallMs edges nodes e₀.tick
  rcases hrows : workflowRows (e₀.newId "w_") e₀.wallMs edges nodes e₀.tick with ⟨rows, e₂⟩
  rw [hrows] at hshape hlength
  obtain ⟨n, seq, he₂⟩ := hshape
  dsimp only at he₂ hlength
  simp only [hrows] at h ⊢
  split at h
  · next err herr =>
      have hout : e₂.tick.outstanding = e.outstanding + rows.length := by
        rw [he₂, hlength]
        rfl
      dsimp only
      rw [foldl_releaseSlot (e := e₂.tick) rows e.outstanding hout, he₂]
      exact ⟨rfl, rfl, rfl⟩
  · exact absurd rfl h

theorem checkNodes_blank {types seen : List String} {nodes : List WorkflowNodeSpec} {r : WorkflowResult}
    (h : checkNodes types seen nodes = some r) : r.workflowId = "" ∧ r.nodeIds = [] := by
  induction nodes generalizing seen with
  | nil => cases h
  | cons node nodes ih =>
      rw [checkNodes] at h
      split_ifs at h
      · cases h
        exact ⟨rfl, rfl⟩
      · exact ih h
      · cases h
        exact ⟨rfl, rfl⟩

theorem checkEdges_blank {names : List String} {edges : List (String × String)} {r : WorkflowResult}
    (h : checkEdges names edges = some r) : r.workflowId = "" ∧ r.nodeIds = [] := by
  induction edges with
  | nil => cases h
  | cons d edges ih =>
      rw [checkEdges] at h
      split_ifs at h
      any_goals
        cases h
        exact ⟨rfl, rfl⟩
      exact ih h

/-- A refusal gives out no ids. -/
theorem validateWorkflow_blank {types : List String} {nodes : List WorkflowNodeSpec} {edges : List (String × String)}
    {r : WorkflowResult} (h : validateWorkflow types nodes edges = some r) : r.workflowId = "" ∧ r.nodeIds = [] := by
  rw [validateWorkflow] at h
  split_ifs at h
  · cases h
    exact ⟨rfl, rfl⟩
  · simp only [Option.or_eq_some_iff] at h
    rcases h with h | ⟨-, h | ⟨-, h⟩⟩
    · exact checkNodes_blank h
    · exact checkEdges_blank h
    · split_ifs at h
      cases h
      exact ⟨rfl, rfl⟩

/-- **A workflow that is refused leaves nothing behind**, whatever the reason. An id that is not given out is the
empty one. -/
theorem submitWorkflow_refused (e : JobEngine) (name : String) (nodes : List WorkflowNodeSpec)
    (edges : List (String × String)) (h : (e.submitWorkflow name nodes edges).1.status ≠ .ok) :
    (e.submitWorkflow name nodes edges).2.workflowView = e.workflowView ∧
      (e.submitWorkflow name nodes edges).1.workflowId = "" ∧ (e.submitWorkflow name nodes edges).1.nodeIds = [] := by
  cases hstop : e.stopRequested with
  | true =>
      rw [submitWorkflow, if_pos hstop]
      exact ⟨rfl, rfl, rfl⟩
  | false =>
      cases hvalid : validateWorkflow e.types nodes edges with
      | some refusal =>
          rw [submitWorkflow, if_neg (by rw [hstop]; exact Bool.false_ne_true), hvalid]
          exact ⟨rfl, validateWorkflow_blank hvalid⟩
      | none =>
          -- the slots that the loop got before it failed are given back
          rw [submitWorkflow_of_valid name hstop hvalid] at h ⊢
          split_ifs at h ⊢
          · exact submitWorkflowReserved_refused e name nodes edges h
          · exact ⟨rfl, rfl, rfl⟩

/-- An edge given twice makes the store fail when all slots are reserved; they are given back. -/
theorem submitWorkflow_refused_twice :
    (submitWorkflow { types := ["echo"] } "wf" [⟨"a", { type := "echo" }⟩, ⟨"b", { type := "echo" }⟩]
        [("a", "b"), ("a", "b")]).1.status = .storeError ∧
      (submitWorkflow { types := ["echo"] } "wf" [⟨"a", { type := "echo" }⟩, ⟨"b", { type := "echo" }⟩]
        [("a", "b"), ("a", "b")]).2.workflowView = ({ types := ["echo"] } : JobEngine).workflowView := by
  have hstatus : (submitWorkflow { types := ["echo"] } "wf" [⟨"a", { type := "echo" }⟩, ⟨"b", { type := "echo" }⟩]
      [("a", "b"), ("a", "b")]).1.status = .storeError := by decide +kernel
  exact ⟨hstatus, (submitWorkflow_refused _ "wf" _ _ (by rw [hstatus]; decide)).1⟩

/-! ### Acceptance -/

/-- The ids the next workflow of `n` nodes gets for its nodes. -/
def nodeIds (e : JobEngine) (n : ℕ) : List JobId :=
  (List.range n).map fun i => "j_" ++ e.world.suffix (e.world.pos + 1 + i)

/-- A state in which nothing but the workflow itself can make `submit_workflow` fail: the engine is not stopping,
no write fails, there are slots for `n` nodes and room for them on the queue, and the ids it is going to generate
are fresh. -/
structure Receptive (e : JobEngine) (n : ℕ) : Prop where
  going : e.stopRequested = false
  reliable : e.Reliable
  slots : e.outstanding + n ≤ e.cfg.maxOutstandingJobs
  queue : e.queue.Consistent
  opened : e.queue.closed = false
  capacity : e.queue.capacity = e.cfg.maxOutstandingJobs
  live : e.queue.live.card ≤ e.outstanding
  workflow : e.db.getWorkflow (e.newId "w_") = none
  deps : ∀ d ∈ e.db.dependencies.rows, d.workflowId ≠ e.newId "w_"
  jobs : (e.db.jobs.rows.map Job.jobId ++ e.nodeIds n).Nodup
  unqueued : ∀ j ∈ e.nodeIds n, j ∉ e.queue.live

/-- The distinct parents of a node. -/
def parentsOf (edges : List (String × String)) (name : String) : Finset String :=
  ((edges.filter fun d => d.2 = name).map Prod.fst).toFinset

/-- The workflow was accepted: every node has a row under an id that is given out, a node without parents is on the
queue, any other node is `PENDING` and waits for as many parents as it has, and nothing else was put on the queue. -/
structure AcceptedAs (e e' : JobEngine) (result : WorkflowResult) (nodes : List WorkflowNodeSpec)
    (edges : List (String × String)) : Prop where
  ok : result.status = .ok
  node : ∀ node ∈ nodes, ∃ row, (node.name, row.jobId) ∈ result.nodeIds ∧ e'.db.getJob row.jobId = some row ∧
    row.workflowNode = node.name ∧ row.workflowId = result.workflowId ∧
    (row.jobId ∈ e'.queue.live ↔ parentsOf edges node.name = ∅) ∧
    (parentsOf edges node.name ≠ ∅ → row.state = .pending ∧ row.pendingDeps = (parentsOf edges node.name).card ∧
      e'.pendingDeps.lookup row.jobId = some ((parentsOf edges node.name).card : Int))
  queue : ∀ j, j ∈ e'.queue.live ↔ j ∈ e.queue.live ∨
    ∃ node ∈ nodes, (node.name, j) ∈ result.nodeIds ∧ parentsOf edges node.name = ∅

theorem indegree_eq_zero {edges : List (String × String)} {name : String} :
    indegree edges name = 0 ↔ parentsOf edges name = ∅ := by
  rw [indegree, parentsOf, List.length_eq_zero_iff, List.toFinset_eq_empty_iff, List.map_eq_nil_iff]

/-- Without repeated edges the degree of a node is the number of its parents. -/
theorem indegree_of_nodup {edges : List (String × String)} (h : edges.Nodup) (name : String) :
    indegree edges name = (parentsOf edges name).card := by
  have hinj : ((edges.filter fun d => d.2 = name).map Prod.fst).Nodup := by
    refine List.Nodup.map_on (fun d hd d' hd' hfst => ?_) (h.filter _)
    have h1 := of_decide_eq_true (List.mem_filter.mp hd).2
    have h2 := of_decide_eq_true (List.mem_filter.mp hd').2
    exact Prod.ext hfst (h1.trans h2.symm)
  rw [indegree, parentsOf, List.toFinset_card_of_nodup hinj, List.length_map]

theorem workflowRows_ids (w : WorkflowId) (created : Int) (edges : List (String × String))
    (nodes : List WorkflowNodeSpec) (e : JobEngine) :
    (workflowRows w created edges nodes e).1.map Job.jobId =
      (List.range nodes.length).map fun i => "j_" ++ e.world.suffix (e.world.pos + i) := by
  induction nodes generalizing e with
  | nil => rfl
  | cons node nodes ih =>
      rw [workflowRows, List.map_cons, ih, List.length_cons, List.range_succ_eq_map, List.map_cons, List.map_map]
      refine congrArg₂ List.cons rfl (List.map_congr_left fun i _ => ?_)
      change "j_" ++ e.world.suffix (e.world.pos + 1 + i) = "j_" ++ e.world.suffix (e.world.pos + (i + 1))
      rw [Nat.add_assoc, Nat.add_comm 1 i]

/-- The two ends of a call that has its slots: the store refuses the rows, or they are registered and those that
need not wait go to the queue. -/
theorem submitWorkflowReserved_eq (hr : e.Reliable) (name : String) (nodes : List WorkflowNodeSpec)
    (edges : List (String × String)) :
    ∃ rows, rows.map (·.workflowNode) = nodes.map (·.name) ∧ rows.map Job.jobId = e.nodeIds nodes.length ∧
      (∀ row ∈ rows, Board.Starts row.stub (e.newId "w_") (indegree edges row.workflowNode)) ∧
      ∃ e₁ e₂ : JobEngine, e₁.queue = e.queue ∧
        e₁.pendingDeps = rows.foldl (fun pd j => pd.insert j.jobId j.pendingDeps) e.pendingDeps ∧
        ({ e with outstanding := e.outstanding + nodes.length } : JobEngine).submitWorkflowReserved name nodes edges =
          match e.db.insertWorkflow
            { workflowId := e.newId "w_", name, createdAtMs := e.wallMs, nodeCount := nodes.length } rows
            (edges.map fun d => (idOfNode rows d.1, idOfNode rows d.2)) with
          | .error err => ({ status := .storeError, err }, e₂)
          | .ok db =>
              ({ status := .ok, workflowId := e.newId "w_", nodeIds := rows.map fun j => (j.workflowNode, j.jobId) },
                (rows.filter fun j => j.state ≠ .pending).foldl enqueue { e₁ with db }) := by
  set e₀ : JobEngine := { e with outstanding := e.outstanding + nodes.length } with he₀
  have hshape := workflowRows_shape (e₀.newId "w_") e₀.wallMs edges nodes e₀.tick
  have hnames := workflowRows_names (e₀.newId "w_") e₀.wallMs edges nodes e₀.tick
  have hids := workflowRows_ids (e₀.newId "w_") e₀.wallMs edges nodes e₀.tick
  have hstarts := workflowRows_starts (e₀.newId "w_") e₀.wallMs edges nodes e₀.tick
  unfold submitWorkflowReserved
  rcases hrows : workflowRows (e₀.newId "w_") e₀.wallMs edges nodes e₀.tick with ⟨rows, e₂⟩
  rw [hrows] at hshape hnames hids hstarts
  obtain ⟨n, seq, he₂⟩ := hshape
  dsimp only at he₂ hnames hids hstarts
  have hr₂ : e₂.Reliable := by
    rw [he₂]
    exact hr
  have hdb : e₂.db = e.db := by rw [he₂]; rfl
  simp only [hrows, insertWorkflow_of_reliable hr₂, hdb]
  rw [show e₀.newId "w_" = e.newId "w_" from rfl, show e₀.wallMs = e.wallMs from rfl]
  refine ⟨rows, hnames, hids, hstarts,
    { ({ e₂.tick with journal := e₂.journal ++ [.insertWorkflow
          { workflowId := e.newId "w_", name, createdAtMs := e.wallMs, nodeCount := nodes.length } rows
          (edges.map fun d => (idOfNode rows d.1, idOfNode rows d.2))] } : JobEngine).registerWorkflow (e.newId "w_")
        rows (edges.map fun d => (idOfNode rows d.1, idOfNode rows d.2)) with
      metrics := { e₂.metrics with
        workflowsCreated := e₂.metrics.workflowsCreated + 1
        jobsSubmitted := e₂.metrics.jobsSubmitted + nodes.length } },
    rows.foldl (fun e _ => e.releaseSlot) e₂.tick, by rw [he₂]; rfl, by rw [he₂]; rfl, ?_⟩
  cases e.db.insertWorkflow _ rows _ with
  | error err => rfl
  | ok db => rfl

theorem Receptive.submitWorkflow_eq {nodes : List WorkflowNodeSpec} {edges : List (String × String)}
    (hr : e.Receptive nodes.length) (hnamed : WellNamed e.types nodes edges)
    (hacyclic : ¬LibGraph.Cyclic (EdgeRel edges)) (name : String) :
    e.submitWorkflow name nodes edges =
      ({ e with outstanding := e.outstanding + nodes.length } : JobEngine).submitWorkflowReserved name nodes
        edges := by
  have hvalid : validateWorkflow e.types nodes edges = none := by
    rcases hnamed.validate with ⟨hcyclic, -⟩ | ⟨-, hvalid⟩
    · exact absurd hcyclic hacyclic
    · exact hvalid
  rw [submitWorkflow_of_valid name hr.going hvalid, if_pos hr.slots]

/-- The edges between ids repeat when those between names do. -/
theorem NodeRows.nodup_edges_iff {rows : List Job} {names : List String} (h : NodeRows rows names)
    {edges : List (String × String)} (hedges : ∀ d ∈ edges, d.1 ∈ names ∧ d.2 ∈ names) :
    (edges.map fun d => (idOfNode rows d.1, idOfNode rows d.2)).Nodup ↔ edges.Nodup := by
  have hinj : ∀ {n m : String}, n ∈ names → m ∈ names → idOfNode rows n = idOfNode rows m → n = m := by
    intro n m hn hm hid
    obtain ⟨row, hrow, rfl⟩ := h.exists_row hm
    rw [h.idOfNode_eq hrow] at hid
    exact (h.idOfNode_eq_iff hn hrow).mp hid
  refine ⟨List.Nodup.of_map _, fun hnodup => hnodup.map_on fun d hd d' hd' heq => ?_⟩
  obtain ⟨h1, h2⟩ := Prod.mk.inj heq
  exact Prod.ext (hinj (hedges d hd).1 (hedges d' hd').1 h1) (hinj (hedges d hd).2 (hedges d' hd').2 h2)

/-- What a registered row says of its node. -/
theorem starts_pending {w : WorkflowId} {n : ℕ} {row : Job} (h : Board.Starts row.stub w n) :
    row.workflowId = w ∧ row.pendingDeps = n ∧ (row.state = .pending ↔ n ≠ 0) := by
  refine ⟨h.workflowId, h.deps, ?_⟩
  have hstate := h.state
  split_ifs at hstate with hpos
  · exact iff_of_true hstate hpos.ne'
  · refine iff_of_false (fun hp => ?_) (by omega)
    rcases hstate with hs | hs <;> cases hs.symm.trans hp

/-- A row goes to the queue when its node has no parents. -/
theorem mem_sources_iff {w : WorkflowId} {rows : List Job} {edges : List (String × String)}
    (hids : (rows.map Job.jobId).Nodup)
    (hstarts : ∀ row ∈ rows, Board.Starts row.stub w (indegree edges row.workflowNode)) {row : Job}
    (hrow : row ∈ rows) :
    row.jobId ∈ (rows.filter fun j => j.state ≠ .pending).map (·.jobId) ↔
      parentsOf edges row.workflowNode = ∅ := by
  rw [← indegree_eq_zero, ← not_ne_iff, ← (starts_pending (hstarts row hrow)).2.2, List.mem_map]
  constructor
  · rintro ⟨row', hrow', hid⟩
    obtain ⟨hrow', hstate⟩ := List.mem_filter.mp hrow'
    rw [← List.inj_on_of_nodup_map hids hrow' hrow hid]
    exact of_decide_eq_true hstate
  · exact fun hstate => ⟨row, List.mem_filter.mpr ⟨hrow, decide_eq_true hstate⟩, rfl⟩

/-- There is room on the queue for all rows that go to it. -/
theorem Receptive.foldl_enqueue {n : ℕ} (hr : e.Receptive n) {e₁ : JobEngine} (hqueue : e₁.queue = e.queue)
    {rows : List Job} (hlength : rows.length ≤ n) :
    (rows.foldl enqueue e₁).queue.live = e.queue.live ∪ (rows.map (·.jobId)).toFinset ∧
      (rows.foldl enqueue e₁).db = e₁.db ∧ (rows.foldl enqueue e₁).pendingDeps = e₁.pendingDeps := by
  have hqueued := foldl_enqueue_queued (e := e₁) (hqueue ▸ hr.queue) rows
  obtain ⟨q, log, n, hshape⟩ := hqueued.shape
  have hroom := hqueued.room (by rw [hqueue]; exact hr.opened) (by
    have hslots := hr.slots
    have hcard := hr.live
    rw [List.length_map, hqueue, hr.capacity]
    omega)
  rw [hroom.1, hqueue]
  exact ⟨rfl, by rw [hshape], by rw [hshape]⟩

/-- **Every valid graph is accepted** that has no edge twice: with slots and fresh ids, exactly the nodes without
parents are enqueued and every other node waits for each of its parents. A repeated edge violates the key of
`job_dependencies`, and the workflow is refused. -/
theorem submitWorkflow_accepts_iff (e : JobEngine) (name : String) {nodes : List WorkflowNodeSpec}
    {edges : List (String × String)} (hr : e.Receptive nodes.length) (hnamed : WellNamed e.types nodes edges)
    (hacyclic : ¬LibGraph.Cyclic (EdgeRel edges)) :
    e.AcceptedAs (e.submitWorkflow name nodes edges).2 (e.submitWorkflow name nodes edges).1 nodes edges ↔
      edges.Nodup := by
  obtain ⟨rows, hnames, hids, hstarts, e₁, e₂, hqueue, hpending, heq⟩ :=
    submitWorkflowReserved_eq hr.reliable name nodes edges
  have hjobs := hr.jobs
  rw [← hids] at hjobs
  have hrows : NodeRows rows (nodes.map (·.name)) := ⟨hnames, hnamed.names, List.Nodup.of_append_right hjobs⟩
  rw [hr.submitWorkflow_eq hnamed hacyclic, heq]
  constructor
  · intro haccepted
    have hok := haccepted.ok
    split at hok
    · cases hok
    · next db hdb =>
        have hnodup := db.dependencies.nodup
        rw [(Database.rows_insertWorkflow hdb).2.1, List.map_id] at hnodup
        exact (hrows.nodup_edges_iff hnamed.ends).mp (List.Nodup.of_map _ (List.Nodup.of_append_right hnodup))
  · intro hnodup
    obtain ⟨db, hdb⟩ := @Database.insertWorkflow_ok e.db
      { workflowId := e.newId "w_", name, createdAtMs := e.wallMs, nodeCount := nodes.length } rows _
      hr.workflow hjobs hr.deps ((hrows.nodup_edges_iff hnamed.ends).mpr hnodup)
    rw [hdb]
    dsimp only
    have hlength : (rows.filter fun j => j.state ≠ .pending).length ≤ nodes.length := by
      refine (List.length_filter_le _ _).trans_eq ?_
      rw [hrows.length_eq, List.length_map]
    obtain ⟨hlive, hdb', hpending'⟩ := @Receptive.foldl_enqueue e _ hr { e₁ with db } hqueue _ hlength
    have hsource : ∀ row ∈ rows, _ := fun row hrow => mem_sources_iff hrows.ids hstarts hrow
    refine ⟨rfl, fun node hnode => ?_, fun j => ?_⟩
    · obtain ⟨row, hrow, hname⟩ := hrows.exists_row (List.mem_map_of_mem hnode)
      have hunqueued : row.jobId ∉ e.queue.live :=
        hr.unqueued _ (by rw [← hids]; exact List.mem_map_of_mem hrow)
      have hget : db.getJob row.jobId = some row.persisted := by
        refine Table.lookup_eq_some.mpr ⟨?_, rfl⟩
        rw [(Database.rows_insertWorkflow hdb).1]
        exact List.mem_append_right _ (List.mem_map_of_mem hrow)
      obtain ⟨hwf, hdeps, hstate⟩ := starts_pending (hstarts row hrow)
      rw [hname] at hdeps hstate
      refine ⟨row.persisted, ?_, ?_, hname, hwf, ?_, fun hparents => ?_⟩
      · rw [← hname]
        exact List.mem_map_of_mem hrow
      · rw [hdb']
        exact hget
      · change row.jobId ∈ _ ↔ _
        rw [hlive, Finset.mem_union, List.mem_toFinset, hsource row hrow, hname]
        exact or_iff_right hunqueued
      · have hdegree := indegree_of_nodup hnodup node.name
        refine ⟨hstate.mpr fun hzero => hparents (indegree_eq_zero.mp hzero), ?_, ?_⟩
        · change row.pendingDeps = _
          rw [hdeps, hdegree]
        · rw [hpending']
          change e₁.pendingDeps.lookup row.jobId = _
          rw [hpending, (lookup_foldl_pending rows e.pendingDeps row.jobId).2 hrows.ids row hrow rfl, hdeps, hdegree]
    · rw [hlive, Finset.mem_union, List.mem_toFinset]
      refine or_congr_right ⟨fun hj => ?_, ?_⟩
      · obtain ⟨row, hrow, rfl⟩ := List.mem_map.mp hj
        replace hrow := (List.mem_filter.mp hrow).1
        have hname : row.workflowNode ∈ nodes.map (·.name) := by
          rw [← hnames]
          exact List.mem_map_of_mem hrow
        obtain ⟨node, hnode, heq⟩ := List.mem_map.mp hname
        refine ⟨node, hnode, List.mem_map.mpr ⟨row, hrow, by rw [heq]⟩, ?_⟩
        rw [heq]
        exact (hsource row hrow).mp hj
      · rintro ⟨node, hnode, hid, hparents⟩
        obtain ⟨row, hrow, heq⟩ := List.mem_map.mp hid
        obtain ⟨hname, rfl⟩ := Prod.mk.inj heq
        rw [← hname] at hparents
        exact (hsource row hrow).mpr hparents

theorem receptive_fresh : Receptive { types := ["echo"] } 2 where
  going := rfl
  reliable := fun _ => rfl
  slots := by decide
  queue := PriorityJobQueue.consistent_empty _
  opened := rfl
  capacity := rfl
  live := by decide
  workflow := rfl
  deps := by decide
  jobs := by decide +kernel
  unqueued := by decide +kernel

theorem acyclic_pair {edges : List (String × String)} (h : ∀ d ∈ edges, d = ("a", "b")) :
    ¬LibGraph.Cyclic (EdgeRel edges) := by
  rintro ⟨x, hx⟩
  obtain ⟨y, hxy, hyx⟩ := Relation.TransGen.head'_iff.mp hx
  obtain ⟨rfl, rfl⟩ := Prod.mk.inj (h _ hxy)
  rcases Relation.ReflTransGen.cases_head hyx with heq | ⟨z, hz, -⟩
  · exact absurd heq (by decide)
  · exact absurd (Prod.mk.inj (h _ hz)).1 (by decide)

/-- One edge between two nodes. -/
theorem submitWorkflow_accepts_pair :
    (submitWorkflow { types := ["echo"] } "wf" [⟨"a", { type := "echo" }⟩, ⟨"b", { type := "echo" }⟩]
      [("a", "b")]).1.status = .ok := by
  have hnamed : WellNamed ["echo"] [⟨"a", { type := "echo" }⟩, ⟨"b", { type := "echo" }⟩] [("a", "b")] :=
    ⟨by simp, by decide, by simp, by simp⟩
  have hacyclic : ¬LibGraph.Cyclic (EdgeRel [("a", "b")]) := acyclic_pair (by simp)
  have haccepts := submitWorkflow_accepts_iff { types := ["echo"] } "wf" (by exact receptive_fresh) hnamed hacyclic
  exact (haccepts.mpr (by decide)).ok

/-- The same edge twice is a valid graph, and is refused. -/
theorem submitWorkflow_rejects_twice :
    Receptive { types := ["echo"] } 2 ∧
      WellNamed ["echo"] [⟨"a", { type := "echo" }⟩, ⟨"b", { type := "echo" }⟩] [("a", "b"), ("a", "b")] ∧
      ¬LibGraph.Cyclic (EdgeRel [("a", "b"), ("a", "b")]) ∧
      (submitWorkflow { types := ["echo"] } "wf" [⟨"a", { type := "echo" }⟩, ⟨"b", { type := "echo" }⟩]
        [("a", "b"), ("a", "b")]).1.status = .storeError :=
  ⟨receptive_fresh, ⟨by simp, by decide, by simp, by simp⟩, acyclic_pair (by simp), by decide +kernel⟩

end JobEngine

end DistributedJobEngine
