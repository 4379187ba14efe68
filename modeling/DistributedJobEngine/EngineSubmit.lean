import DistributedJobEngine.Engine

/-! `submit` and `submit_workflow`: admission, validation of a workflow graph, and the rows and counters a
new job or workflow starts with. -/

namespace DistributedJobEngine

structure SubmitRequest where
  type : String
  payload : Json := .object []
  priority : Int := 0
  retry : RetryPolicy := {}
  timeoutMs : Int := 0
  delayMs : Int := 0
  workflowId : WorkflowId := ""
  workflowNode : String := ""
  pendingDeps : Int := 0

structure WorkflowNodeSpec where
  name : String
  request : SubmitRequest

inductive SubmitStatus where
  | ok | unknownType | queueFull | storeError | stopped
  deriving DecidableEq, Repr

inductive WorkflowStatus where
  | ok | empty | unknownType | duplicateNode | unknownNodeRef | selfEdge | cycle | queueFull | storeError | stopped
  deriving DecidableEq, Repr

structure SubmitResult where
  status : SubmitStatus
  jobId : JobId := ""
  err : String := ""

structure WorkflowResult where
  status : WorkflowStatus
  workflowId : WorkflowId := ""
  nodeIds : List (String × JobId) := []
  err : String := ""

/-- The fields both ways of submitting fill alike. -/
def SubmitRequest.toJob (req : SubmitRequest) (jobId : JobId) (createdAtMs enqueuedAtSteady seq : Int) : Job :=
  { jobId
    type := req.type
    payload := req.payload
    priority := req.priority
    retry := { req.retry with maxAttempts := if req.retry.maxAttempts < 1 then 1 else req.retry.maxAttempts }
    timeoutMs := req.timeoutMs
    createdAtMs
    readyAtWallMs := createdAtMs + max 0 req.delayMs
    enqueuedAtSteady
    seq }

/-- The state of a job whose dependencies are met. -/
def SubmitRequest.startState (req : SubmitRequest) : JobState := if 0 < req.delayMs then .scheduled else .queued

namespace JobEngine

/-- `insert_job` of the store. -/
def insertJob (e : JobEngine) (job : Job) : Except String JobEngine :=
  if e.world.fault e.world.pos then .error "job write failed"
  else match e.db.writeJobRow job true with
    | .ok db => .ok { e.tick with db, journal := e.journal ++ [.insert job] }
    | .error err => .error err

/-- The row of a single job. -/
def submitJob (e : JobEngine) (req : SubmitRequest) : Job :=
  { req.toJob (e.newId "j_") e.wallMs e.nowMs e.seqCounter with
    workflowId := req.workflowId
    workflowNode := req.workflowNode
    pendingDeps := req.pendingDeps
    state := if 0 < req.pendingDeps then .pending else req.startState }

/-- `submit` once it has a slot. -/
def submitReserved (e : JobEngine) (req : SubmitRequest) : SubmitResult × JobEngine :=
  let job := e.submitJob req
  let e := { e.tick with seqCounter := e.seqCounter + 1 }
  match e.insertJob job with
  | .error err => ({ status := .storeError, err }, e.tick.releaseSlot)
  | .ok e =>
      let e := { e with metrics := { e.metrics with jobsSubmitted := e.metrics.jobsSubmitted + 1 } }
      ({ status := .ok, jobId := job.jobId }, if job.state = .pending then e else e.enqueue job)

def submit (e : JobEngine) (req : SubmitRequest) : SubmitResult × JobEngine :=
  if e.stopRequested then ({ status := .stopped, err := "engine is stopping" }, e)
  else if req.type ∉ e.types then ({ status := .unknownType, err := "unknown job type: " ++ req.type }, e)
  else match e.reserveSlot with
    | none =>
        ({ status := .queueFull
           err := "engine at capacity (" ++ toString e.cfg.maxOutstandingJobs ++ " outstanding jobs)" },
          { e with metrics := { e.metrics with jobsRejectedQueueFull := e.metrics.jobsRejectedQueueFull + 1 } })
    | some e => e.submitReserved req

end JobEngine

/-! ### Validation of the graph -/

/-- The loop over the nodes: names are new and types are known. -/
def checkNodes (types : List String) : List String → List WorkflowNodeSpec → Option WorkflowResult
  | _, [] => none
  | seen, node :: nodes =>
      if node.name ∈ seen then
        some { status := .duplicateNode, err := "duplicate node name: " ++ node.name }
      else if node.request.type ∉ types then
        some { status := .unknownType
               err := "unknown job type '" ++ node.request.type ++ "' for node " ++ node.name }
      else checkNodes types (node.name :: seen) nodes

/-- The loop over the edges: both ends are nodes, and different ones. -/
def checkEdges (names : List String) : List (String × String) → Option WorkflowResult
  | [] => none
  | (a, b) :: edges =>
      if a ∉ names then some { status := .unknownNodeRef, err := "edge references unknown node: " ++ a }
      else if b ∉ names then some { status := .unknownNodeRef, err := "edge references unknown node: " ++ b }
      else if a = b then some { status := .selfEdge, err := "self edge on node: " ++ a }
      else checkEdges names edges

def indegree (edges : List (String × String)) (name : String) : ℕ := (edges.filter fun e => e.2 = name).length

/-- `adj[n]`, in the order of the edges. -/
def successors (edges : List (String × String)) (name : String) : List String :=
  (edges.filter fun e => e.1 = name).map Prod.snd

/-- The inner loop of Kahn's algorithm: nodes whose degree drops to zero join the queue. -/
def kahnVisit (deg : String → Int) (ready : List String) : List String → (String → Int) × List String
  | [] => (deg, ready)
  | m :: ms =>
      let d := deg m - 1
      kahnVisit (Function.update deg m d) (if d = 0 then ready ++ [m] else ready) ms

/-- The outer loop, at most `fuel` nodes: how many nodes it visits. -/
def kahnLoop (edges : List (String × String)) : ℕ → (String → Int) → List String → ℕ
  | 0, _, _ => 0
  | _ + 1, _, [] => 0
  | fuel + 1, deg, n :: ready =>
      let (deg, ready) := kahnVisit deg ready (successors edges n)
      kahnLoop edges fuel deg ready + 1

/-- Every node joins the queue at most once, so as many turns as there are nodes are enough. -/
def kahn (names : List String) (edges : List (String × String)) : ℕ :=
  kahnLoop edges names.length (fun n => indegree edges n) (names.filter fun n => indegree edges n = 0)

/-- The checks of `submit_workflow` before it reserves anything. -/
def validateWorkflow (types : List String) (nodes : List WorkflowNodeSpec) (edges : List (String × String)) :
    Option WorkflowResult :=
  if nodes.isEmpty then some { status := .empty, err := "workflow has no nodes" }
  else
    let names := nodes.map (·.name)
    (checkNodes types [] nodes).or <| (checkEdges names edges).or <|
      if kahn names edges ≠ nodes.length then some { status := .cycle, err := "workflow contains a cycle" }
      else none

namespace JobEngine

/-- The loop that reserves the last `n` of the slots for a workflow: how many are reserved when it ends. -/
def reserveSlots : ℕ → ℕ → JobEngine → ℕ × JobEngine
  | 0, reserved, e => (reserved, e)
  | n + 1, reserved, e =>
      match e.reserveSlot with
      | none => (reserved, e)
      | some e => reserveSlots n (reserved + 1) e

/-- The rows of the nodes with their ids; the clock and the id source are read once for each node. -/
def workflowRows (workflowId : WorkflowId) (created : Int) (edges : List (String × String)) :
    List WorkflowNodeSpec → JobEngine → List Job × JobEngine
  | [], e => ([], e)
  | node :: nodes, e =>
      let deps := indegree edges node.name
      let job : Job :=
        { node.request.toJob (e.newId "j_") created e.nowMs e.seqCounter with
          workflowId
          workflowNode := node.name
          pendingDeps := deps
          state := if 0 < deps then .pending else node.request.startState }
      let rest := workflowRows workflowId created edges nodes { e.tick with seqCounter := e.seqCounter + 1 }
      (job :: rest.1, rest.2)

/-- The id of the node called `name`. -/
def idOfNode (rows : List Job) (name : String) : JobId :=
  ((rows.find? fun j => j.workflowNode = name).map (·.jobId)).getD ""

/-- `insert_workflow` of the store. -/
def insertWorkflow (e : JobEngine) (wf : WorkflowRecord) (nodes : List Job) (edges : List (JobId × JobId)) :
    Except String JobEngine :=
  if e.world.fault e.world.pos then .error "workflow insert failed"
  else match e.db.insertWorkflow wf nodes edges with
    | .ok db => .ok { e.tick with db, journal := e.journal ++ [.insertWorkflow wf nodes edges] }
    | .error err => .error err

/-- The graph registration under `wf_mutex_`. -/
def registerWorkflow (e : JobEngine) (workflowId : WorkflowId) (rows : List Job) (edges : List (JobId × JobId)) :
    JobEngine :=
  { e with
    children := edges.foldl (fun ch d => ch.insert d.1 ((ch.lookup d.1).getD [] ++ [d.2])) e.children
    pendingDeps := rows.foldl (fun pd j => pd.insert j.jobId j.pendingDeps) e.pendingDeps
    wfNodes :=
      rows.foldl (fun nodes j => nodes.insert workflowId (insert j.jobId ((nodes.lookup workflowId).getD ∅)))
        e.wfNodes
    wfRemaining := e.wfRemaining.insert workflowId rows.length
    wfFailures := e.wfFailures.insert workflowId 0 }

/-- `submit_workflow` once the graph is valid and all nodes have a slot. -/
def submitWorkflowReserved (e : JobEngine) (name : String) (nodes : List WorkflowNodeSpec)
    (edges : List (String × String)) : WorkflowResult × JobEngine :=
  let workflowId := e.newId "w_"
  let created := e.wallMs
  let (rows, e) := workflowRows workflowId created edges nodes e.tick
  let idEdges := edges.map fun d => (idOfNode rows d.1, idOfNode rows d.2)
  let wf : WorkflowRecord := { workflowId, name, createdAtMs := created, nodeCount := nodes.length }
  match e.insertWorkflow wf rows idEdges with
  | .error err => ({ status := .storeError, err }, rows.foldl (fun e _ => e.releaseSlot) e.tick)
  | .ok e =>
      let e := e.registerWorkflow workflowId rows idEdges
      let e := { e with metrics := { e.metrics with
        workflowsCreated := e.metrics.workflowsCreated + 1
        jobsSubmitted := e.metrics.jobsSubmitted + nodes.length } }
      ({ status := .ok, workflowId, nodeIds := rows.map fun j => (j.workflowNode, j.jobId) },
        (rows.filter fun j => j.state ≠ .pending).foldl enqueue e)

def submitWorkflow (e : JobEngine) (name : String) (nodes : List WorkflowNodeSpec)
    (edges : List (String × String)) : WorkflowResult × JobEngine :=
  if e.stopRequested then ({ status := .stopped, err := "engine is stopping" }, e)
  else match validateWorkflow e.types nodes edges with
    | some refusal => (refusal, e)
    | none =>
        let (reserved, e) := e.reserveSlots nodes.length 0
        if reserved < nodes.length then
          let e := releaseSlot^[reserved] e
          ({ status := .queueFull
             err := "engine at capacity for a workflow of " ++ toString nodes.length ++ " nodes" },
            { e with metrics := { e.metrics with jobsRejectedQueueFull := e.metrics.jobsRejectedQueueFull + 1 } })
        else e.submitWorkflowReserved name nodes edges

/-! ### What a submission comes down to -/

variable {e : JobEngine} {P : JobEngine → Prop}

/-- As many slots are reserved as there are, and at most `n`. -/
theorem reserveSlots_eq (n reserved : ℕ) : reserveSlots n reserved e =
    (reserved + min n (e.cfg.maxOutstandingJobs - e.outstanding),
      { e with outstanding := e.outstanding + min n (e.cfg.maxOutstandingJobs - e.outstanding) }) := by
  induction n generalizing e reserved with
  | zero =>
      rw [Nat.zero_min]
      rfl
  | succ n ih =>
      rw [reserveSlots, reserveSlot]
      split_ifs with hfull
      · rw [Nat.sub_eq_zero_of_le hfull, Nat.min_zero]
        rfl
      · dsimp only
        rw [ih, Prod.mk.injEq]
        dsimp only
        have hmin : min (n + 1) (e.cfg.maxOutstandingJobs - e.outstanding) =
            min n (e.cfg.maxOutstandingJobs - (e.outstanding + 1)) + 1 := by omega
        rw [hmin]
        exact ⟨by omega, by rw [Nat.add_assoc, Nat.add_comm 1]⟩

/-- As many slots as were reserved are given back. -/
theorem releaseSlot_iterate (n : ℕ) : releaseSlot^[n] { e with outstanding := e.outstanding + n } = e := by
  induction n with
  | zero => rfl
  | succ n ih =>
      have hone : ({ e with outstanding := e.outstanding + (n + 1) } : JobEngine).releaseSlot =
          { e with outstanding := e.outstanding + n } := by
        rw [releaseSlot]
        dsimp only
        rw [if_neg (by omega), ← Nat.add_assoc, Nat.add_sub_cancel]
      rw [Function.iterate_succ_apply, hone, ih]

/-- A loop that gives slots back moves the counter and nothing else. -/
theorem exists_foldl_releaseSlot (rows : List Job) (e : JobEngine) :
    ∃ n, rows.foldl (fun e _ => e.releaseSlot) e = { e with outstanding := n } := by
  induction rows generalizing e with
  | nil => exact ⟨e.outstanding, rfl⟩
  | cons row rows ih => exact ih e.releaseSlot

/-- **All slots or none**: a valid workflow goes on if there are slots for all its nodes, and otherwise the engine is
as it was, but for the count of refusals. -/
theorem submitWorkflow_of_valid {nodes : List WorkflowNodeSpec} {edges : List (String × String)} (name : String)
    (hstop : e.stopRequested = false) (hvalid : validateWorkflow e.types nodes edges = none) :
    e.submitWorkflow name nodes edges =
      if e.outstanding + nodes.length ≤ e.cfg.maxOutstandingJobs then
        ({ e with outstanding := e.outstanding + nodes.length } : JobEngine).submitWorkflowReserved name nodes edges
      else
        ({ status := .queueFull
           err := "engine at capacity for a workflow of " ++ toString nodes.length ++ " nodes" },
          { e with metrics := { e.metrics with jobsRejectedQueueFull := e.metrics.jobsRejectedQueueFull + 1 } }) := by
  have hnonempty : nodes.length ≠ 0 := by
    intro hzero
    rw [validateWorkflow, List.eq_nil_of_length_eq_zero hzero] at hvalid
    cases hvalid
  rw [submitWorkflow, if_neg (by rw [hstop]; exact Bool.false_ne_true), hvalid]
  dsimp only
  rw [reserveSlots_eq, Nat.zero_add]
  dsimp only
  by_cases hroom : e.outstanding + nodes.length ≤ e.cfg.maxOutstandingJobs
  · rw [Nat.min_eq_left (by omega), if_neg (lt_irrefl _), if_pos hroom]
  · rw [if_pos (by omega), if_neg hroom, releaseSlot_iterate]

/-- A single job is refused, which at most counts, or goes on with a slot. -/
theorem submit_rule (req : SubmitRequest)
    (hrefused : ∀ n, P { e with metrics := { e.metrics with jobsRejectedQueueFull := n } })
    (hreserved : e.outstanding < e.cfg.maxOutstandingJobs →
      P (({ e with outstanding := e.outstanding + 1 } : JobEngine).submitReserved req).2) : P (e.submit req).2 := by
  rw [submit]
  by_cases hstop : e.stopRequested = true
  · rw [if_pos hstop]
    exact hrefused e.metrics.jobsRejectedQueueFull
  by_cases htype : req.type ∉ e.types
  · rw [if_neg hstop, if_pos htype]
    exact hrefused e.metrics.jobsRejectedQueueFull
  rw [if_neg hstop, if_neg htype, reserveSlot]
  by_cases hfull : e.cfg.maxOutstandingJobs ≤ e.outstanding
  · rw [if_pos hfull]
    exact hrefused _
  · rw [if_neg hfull]
    exact hreserved (not_le.mp hfull)

/-- A workflow is refused, which at most counts, or is valid and goes on with a slot for each node. -/
theorem submitWorkflow_rule (name : String) (nodes : List WorkflowNodeSpec) (edges : List (String × String))
    (hrefused : ∀ n, P { e with metrics := { e.metrics with jobsRejectedQueueFull := n } })
    (hreserved : validateWorkflow e.types nodes edges = none →
      e.outstanding + nodes.length ≤ e.cfg.maxOutstandingJobs →
      P (({ e with outstanding := e.outstanding + nodes.length } : JobEngine).submitWorkflowReserved name
        nodes edges).2) :
    P (e.submitWorkflow name nodes edges).2 := by
  cases hstop : e.stopRequested with
  | true =>
      rw [submitWorkflow, if_pos hstop]
      exact hrefused e.metrics.jobsRejectedQueueFull
  | false =>
      cases hvalid : validateWorkflow e.types nodes edges with
      | some refusal =>
          rw [submitWorkflow, if_neg (by rw [hstop]; exact Bool.false_ne_true), hvalid]
          exact hrefused e.metrics.jobsRejectedQueueFull
      | none =>
          rw [submitWorkflow_of_valid name hstop hvalid]
          split_ifs with hroom
          · exact hreserved hvalid hroom
          · exact hrefused _

/-- An insert that succeeds has written the row, which was not there. -/
theorem insertJob_eq_ok {e' : JobEngine} {job : Job} (h : e.insertJob job = .ok e') :
    ∃ t, e.db.jobs.insert job.persisted = some t ∧
      e' = { e.tick with db := { e.db with jobs := t }, journal := e.journal ++ [.insert job] } := by
  unfold insertJob Database.writeJobRow at h
  rw [if_pos rfl] at h
  split_ifs at h
  cases hins : e.db.jobs.insert job.persisted with
  | none =>
      rw [hins] at h
      cases h
  | some t =>
      rw [hins] at h
      cases h
      exact ⟨t, rfl, rfl⟩

theorem insertWorkflow_eq_ok {e' : JobEngine} {wf : WorkflowRecord} {rows : List Job} {edges : List (JobId × JobId)}
    (h : e.insertWorkflow wf rows edges = .ok e') : ∃ db, e.db.insertWorkflow wf rows edges = .ok db ∧
      e' = { e.tick with db, journal := e.journal ++ [.insertWorkflow wf rows edges] } := by
  unfold insertWorkflow at h
  split_ifs at h
  cases hins : e.db.insertWorkflow wf rows edges with
  | error err =>
      rw [hins] at h
      cases h
  | ok db =>
      rw [hins] at h
      cases h
      exact ⟨db, rfl, rfl⟩

/-- What each part of a submission keeps. -/
structure SubmitInvariant (P : JobEngine → Prop) : Prop where
  slots : ∀ e n, P e → P { e with outstanding := n }
  counts : ∀ e a b c, P e → P { e with metrics := { e.metrics with
    jobsSubmitted := a, jobsRejectedQueueFull := b, workflowsCreated := c } }
  tick : ∀ e, P e → P (JobEngine.tick e)
  numbered : ∀ e seq, P e → P { e with seqCounter := seq }
  insertJob : ∀ {e e' job}, JobEngine.insertJob e job = .ok e' → P e → P e'
  insertWorkflow : ∀ {e e' wf rows edges}, JobEngine.insertWorkflow e wf rows edges = .ok e' → wf.state = .running →
    P e → P (e'.registerWorkflow wf.workflowId rows edges)
  enqueue : ∀ e job, P e → P (JobEngine.enqueue e job)

namespace SubmitInvariant

theorem foldl {α : Type} {g : JobEngine → α → JobEngine} (hg : ∀ e a, P e → P (g e a)) (l : List α) (h : P e) :
    P (l.foldl g e) := by
  induction l generalizing e with
  | nil => exact h
  | cons a l ih => exact ih (hg e a h)

theorem submit (hP : SubmitInvariant P) (h : P e) (req : SubmitRequest) : P (e.submit req).2 := by
  refine submit_rule req (fun n => hP.counts e _ n _ h) fun _ => ?_
  have hnumbered := hP.numbered _ (e.seqCounter + 1) (hP.tick _ (hP.slots e (e.outstanding + 1) h))
  simp only [submitReserved]
  split
  · exact hP.slots _ _ (hP.tick _ hnumbered)
  · rename_i e₁ hinsert
    have hinserted := hP.insertJob hinsert hnumbered
    split_ifs
    · exact hP.counts e₁ _ _ _ hinserted
    · exact hP.enqueue _ _ (hP.counts e₁ _ _ _ hinserted)

theorem workflowRows (hP : SubmitInvariant P) (h : P e) (w : WorkflowId) (created : Int)
    (edges : List (String × String))
    (nodes : List WorkflowNodeSpec) : P (workflowRows w created edges nodes e).2 := by
  induction nodes generalizing e with
  | nil => exact h
  | cons node nodes ih => exact ih (hP.numbered _ _ (hP.tick e h))

theorem submitWorkflow (hP : SubmitInvariant P) (h : P e) (name : String) (nodes : List WorkflowNodeSpec)
    (edges : List (String × String)) : P (e.submitWorkflow name nodes edges).2 := by
  refine submitWorkflow_rule name nodes edges (fun n => hP.counts e _ n _ h) fun _ _ => ?_
  have hslots := hP.slots e (e.outstanding + nodes.length) h
  have hrows := hP.workflowRows (hP.tick _ hslots) (e.newId "w_") e.wallMs edges nodes
  simp only [submitWorkflowReserved]
  split
  · exact foldl (fun e _ he => hP.slots e _ he) _ (hP.tick _ hrows)
  · rename_i e₁ hinsert
    exact foldl hP.enqueue _ (hP.counts _ _ _ _ (hP.insertWorkflow hinsert rfl hrows))

end SubmitInvariant

end JobEngine

end DistributedJobEngine
