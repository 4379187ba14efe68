import DistributedJobEngine.EngineAdmission

/-! A workflow that passes validation enters the board as a whole: its nodes get ids of their own, its edges
become dependencies, and every counter of `pending_deps_` is the number of edges that lead to its node. -/

namespace DistributedJobEngine

open LibTable

/-! ### What validation checks -/

theorem checkNodes_eq_none {types : List String} {seen : List String} {nodes : List WorkflowNodeSpec}
    (h : checkNodes types seen nodes = none) :
    (nodes.map (·.name)).Nodup ∧ ∀ n ∈ nodes.map (·.name), n ∉ seen := by
  induction nodes generalizing seen with
  | nil => simp
  | cons node nodes ih =>
      unfold checkNodes at h
      split_ifs at h with hseen htype
      obtain ⟨hnodup, hnew⟩ := ih h
      rw [List.map_cons]
      refine ⟨List.nodup_cons.mpr ⟨fun hmem => hnew _ hmem List.mem_cons_self, hnodup⟩, fun n hn => ?_⟩
      rcases List.mem_cons.mp hn with rfl | hn
      · exact hseen
      · exact fun hs => hnew n hn (List.mem_cons_of_mem _ hs)

theorem checkEdges_eq_none {names : List String} {edges : List (String × String)}
    (h : checkEdges names edges = none) : ∀ d ∈ edges, d.1 ∈ names ∧ d.2 ∈ names := by
  induction edges with
  | nil => simp
  | cons d edges ih =>
      obtain ⟨a, b⟩ := d
      unfold checkEdges at h
      split_ifs at h with ha hb hab
      intro d hd
      rcases List.mem_cons.mp hd with rfl | hd
      · exact ⟨ha, hb⟩
      · exact ih h d hd

/-- What a valid graph is, as far as the rows depend on it. -/
structure ValidGraph (nodes : List WorkflowNodeSpec) (edges : List (String × String)) : Prop where
  nonempty : nodes ≠ []
  nodup : (nodes.map (·.name)).Nodup
  edges : ∀ d ∈ edges, d.1 ∈ nodes.map (·.name) ∧ d.2 ∈ nodes.map (·.name)

theorem validGraph_of_validateWorkflow {types : List String} {nodes : List WorkflowNodeSpec}
    {edges : List (String × String)} (h : validateWorkflow types nodes edges = none) : ValidGraph nodes edges := by
  unfold validateWorkflow at h
  split_ifs at h with hempty
  simp only [Option.or_eq_none_iff] at h
  obtain ⟨hnodes, hedges, -⟩ := h
  exact ⟨by simpa using hempty, (checkNodes_eq_none hnodes).1, checkEdges_eq_none hedges⟩

namespace JobEngine

variable {e e' : JobEngine}

/-! ### The rows of the nodes -/

section Rows

variable (w : WorkflowId) (created : Int) (edges : List (String × String))

theorem workflowRows_shape (nodes : List WorkflowNodeSpec) (e : JobEngine) :
    ∃ n seq, (workflowRows w created edges nodes e).2 =
      { e with world := { e.world with pos := n }, seqCounter := seq } := by
  induction nodes generalizing e with
  | nil => exact ⟨e.world.pos, e.seqCounter, rfl⟩
  | cons node nodes ih =>
      obtain ⟨n, seq, h⟩ := ih { e.tick with seqCounter := e.seqCounter + 1 }
      exact ⟨n, seq, h⟩

theorem workflowRows_names (nodes : List WorkflowNodeSpec) (e : JobEngine) :
    (workflowRows w created edges nodes e).1.map (·.workflowNode) = nodes.map (·.name) := by
  induction nodes generalizing e with
  | nil => rfl
  | cons node nodes ih => exact congrArg (node.name :: ·) (ih _)

theorem workflowRows_starts (nodes : List WorkflowNodeSpec) (e : JobEngine) :
    ∀ row ∈ (workflowRows w created edges nodes e).1,
      Board.Starts row.stub w (indegree edges row.workflowNode) := by
  induction nodes generalizing e with
  | nil =>
      intro row hrow
      cases hrow
  | cons node nodes ih =>
      intro row hrow
      rcases List.mem_cons.mp hrow with rfl | hrow
      · refine ⟨rfl, rfl, ?_⟩
        by_cases hpos : 0 < indegree edges node.name
        · simp [Job.stub, hpos]
        · have hstart : node.request.startState = .queued ∨ node.request.startState = .scheduled := by
            unfold SubmitRequest.startState
            split_ifs
            · exact .inr rfl
            · exact .inl rfl
          simpa [Job.stub, hpos] using hstart
      · exact ih _ row hrow

end Rows

/-- The rows of a workflow, with distinct names and distinct ids. -/
structure NodeRows (rows : List Job) (names : List String) : Prop where
  named : rows.map (·.workflowNode) = names
  nodup : names.Nodup
  ids : (rows.map Job.jobId).Nodup

namespace NodeRows

variable {rows : List Job} {names : List String}

theorem idOfNode_eq (h : NodeRows rows names) {row : Job} (hrow : row ∈ rows) :
    idOfNode rows row.workflowNode = row.jobId := by
  have hnd : (rows.map (·.workflowNode)).Nodup := h.named ▸ h.nodup
  have hfind : rows.find? (fun j => decide (j.workflowNode = row.workflowNode)) = some row := by
    cases hf : rows.find? (fun j => decide (j.workflowNode = row.workflowNode)) with
    | none => exact absurd (decide_eq_true rfl) (List.find?_eq_none.mp hf row hrow)
    | some row' =>
        have hname := List.find?_some hf
        rw [List.inj_on_of_nodup_map hnd (List.mem_of_find?_eq_some hf) hrow (of_decide_eq_true hname)]
  rw [idOfNode, hfind]
  rfl

theorem exists_row (h : NodeRows rows names) {n : String} (hn : n ∈ names) : ∃ row ∈ rows, row.workflowNode = n := by
  rw [← h.named] at hn
  obtain ⟨row, hrow, hname⟩ := List.mem_map.mp hn
  exact ⟨row, hrow, hname⟩

theorem idOfNode_mem (h : NodeRows rows names) {n : String} (hn : n ∈ names) :
    idOfNode rows n ∈ rows.map Job.jobId := by
  obtain ⟨row, hrow, rfl⟩ := h.exists_row hn
  rw [h.idOfNode_eq hrow]
  exact List.mem_map_of_mem hrow

/-- Nodes and ids correspond. -/
theorem idOfNode_eq_iff (h : NodeRows rows names) {n : String} (hn : n ∈ names) {row : Job} (hrow : row ∈ rows) :
    idOfNode rows n = row.jobId ↔ n = row.workflowNode := by
  obtain ⟨row', hrow', rfl⟩ := h.exists_row hn
  rw [h.idOfNode_eq hrow']
  refine ⟨fun hid => by rw [List.inj_on_of_nodup_map h.ids hrow' hrow hid], fun hname => ?_⟩
  have hnd : (rows.map (·.workflowNode)).Nodup := h.named ▸ h.nodup
  rw [List.inj_on_of_nodup_map hnd hrow' hrow hname]

theorem length_eq (h : NodeRows rows names) : rows.length = names.length := by
  rw [← h.named, List.length_map]

/-- As many edges lead to the id of a node as to its name. -/
theorem length_filter_edges (h : NodeRows rows names) {edges : List (String × String)}
    (hedges : ∀ d ∈ edges, d.1 ∈ names ∧ d.2 ∈ names) {row : Job} (hrow : row ∈ rows) :
    ((edges.map fun d => (idOfNode rows d.1, idOfNode rows d.2)).filter fun d => d.2 = row.jobId).length =
      indegree edges row.workflowNode := by
  rw [List.filter_map, List.length_map, indegree]
  congr 1
  refine List.filter_congr fun d hd => ?_
  simp only [Function.comp_apply, decide_eq_decide]
  exact h.idOfNode_eq_iff (hedges d hd).2 hrow

end NodeRows

/-! ### Registration -/

theorem lookup_foldl_children (edges : List (JobId × JobId)) (m : AList fun _ : JobId => List JobId) (p : JobId) :
    ((edges.foldl (fun ch d => ch.insert d.1 ((ch.lookup d.1).getD [] ++ [d.2])) m).lookup p).getD [] =
      (m.lookup p).getD [] ++ (edges.filter fun d => d.1 = p).map Prod.snd := by
  induction edges generalizing m with
  | nil => simp
  | cons d edges ih =>
      rw [List.foldl_cons, ih]
      by_cases hp : d.1 = p
      · subst hp
        simp
      · rw [AList.lookup_insert_ne (Ne.symm hp)]
        simp [hp]

theorem lookup_foldl_pending (rows : List Job) (m : AList fun _ : JobId => Int) (c : JobId) :
    (c ∉ rows.map Job.jobId →
      (rows.foldl (fun pd j => pd.insert j.jobId j.pendingDeps) m).lookup c = m.lookup c) ∧
    ((rows.map Job.jobId).Nodup → ∀ row ∈ rows, row.jobId = c →
      (rows.foldl (fun pd j => pd.insert j.jobId j.pendingDeps) m).lookup c = some row.pendingDeps) := by
  induction rows generalizing m with
  | nil => simp
  | cons row rows ih =>
      obtain ⟨hold, hnew⟩ := ih (m.insert row.jobId row.pendingDeps)
      rw [List.foldl_cons, List.map_cons]
      refine ⟨fun hc => ?_, fun hnd row' hrow' hid => ?_⟩
      · rw [List.mem_cons, not_or] at hc
        obtain ⟨hne, hc⟩ := hc
        rw [hold hc, AList.lookup_insert_ne hne]
      · obtain ⟨hnot, hnd⟩ := List.nodup_cons.mp hnd
        rcases List.mem_cons.mp hrow' with rfl | hrow'
        · rw [hold (hid ▸ hnot), ← hid, AList.lookup_insert]
        · exact hnew hnd row' hrow' hid

/-- The edges that lead to a job, each from a parent of its own. -/
theorem card_parents {b : Board} {edges : List (JobId × JobId)} (hnodup : edges.Nodup) {c : JobId}
    (hdeps : ∀ p, (p, c) ∈ b.deps ↔ (p, c) ∈ edges) :
    (b.parents c).card = (edges.filter fun d => d.2 = c).length := by
  have hset : b.parents c = ((edges.filter fun d => d.2 = c).map Prod.fst).toFinset := by
    ext p
    rw [Board.mem_parents, hdeps, List.mem_toFinset, List.mem_map]
    constructor
    · exact fun h => ⟨(p, c), List.mem_filter.mpr ⟨h, decide_eq_true rfl⟩, rfl⟩
    · rintro ⟨d, hd, rfl⟩
      obtain ⟨hmem, hc⟩ := List.mem_filter.mp hd
      rw [← of_decide_eq_true hc]
      exact hmem
  have hinj : ((edges.filter fun d => d.2 = c).map Prod.fst).Nodup := by
    refine List.Nodup.map_on ?_ (hnodup.filter _)
    intro d hd d' hd' hfst
    have h1 := of_decide_eq_true (List.mem_filter.mp hd).2
    have h2 := of_decide_eq_true (List.mem_filter.mp hd').2
    exact Prod.ext hfst (h1.trans h2.symm)
  rw [hset, List.toFinset_card_of_nodup hinj, List.length_map]

/-! ### The board after registration -/

/-- The engine once the rows and edges of a workflow are in the store and its graph is registered. -/
structure Registered (e e₁ : JobEngine) (wf : WorkflowRecord) (rows : List Job) (edges : List (String × String)) :
    Prop where
  insert : e.db.insertWorkflow wf rows (edges.map fun d => (idOfNode rows d.1, idOfNode rows d.2)) = .ok e₁.db
  shape : e₁ = { e with
    db := e₁.db
    outstanding := e.outstanding + rows.length
    children := e₁.children
    pendingDeps := e₁.pendingDeps
    wfNodes := e₁.wfNodes
    wfRemaining := e.wfRemaining.insert wf.workflowId rows.length
    wfFailures := e.wfFailures.insert wf.workflowId 0
    seqCounter := e₁.seqCounter
    world := e₁.world
    metrics := e₁.metrics
    journal := e₁.journal }
  children : e₁.children = (edges.map fun d => (idOfNode rows d.1, idOfNode rows d.2)).foldl
    (fun ch d => ch.insert d.1 ((ch.lookup d.1).getD [] ++ [d.2])) e.children
  pendingDeps : e₁.pendingDeps = rows.foldl (fun pd j => pd.insert j.jobId j.pendingDeps) e.pendingDeps
  terminal : e₁.metrics.terminal = e.metrics.terminal
  state : wf.state = .running
  named : wf.workflowId ≠ ""
  starts : ∀ row ∈ rows, Board.Starts row.stub wf.workflowId (indegree edges row.workflowNode)

namespace Registered

variable {e₁ : JobEngine} {wf : WorkflowRecord} {rows : List Job} {edges : List (String × String)}
  {names : List String}

theorem rows_eq (h : e.Registered e₁ wf rows edges) :
    e₁.db.jobs.rows = e.db.jobs.rows ++ rows.map Job.persisted :=
  (Database.rows_insertWorkflow h.insert).1

theorem nodup_ids (h : e.Registered e₁ wf rows edges) :
    (e.db.jobs.rows.map Job.jobId ++ rows.map Job.jobId).Nodup := by
  have hnd := e₁.db.jobs.nodup
  rw [h.rows_eq, List.map_append, List.map_map] at hnd
  exact hnd

theorem nodup_edges (h : e.Registered e₁ wf rows edges) :
    (edges.map fun d => (idOfNode rows d.1, idOfNode rows d.2)).Nodup := by
  have hnd := e₁.db.dependencies.nodup
  rw [(Database.rows_insertWorkflow h.insert).2.1, List.map_id] at hnd
  exact List.Nodup.of_map _ (List.Nodup.of_append_right hnd)

theorem nodeRows (h : e.Registered e₁ wf rows edges) (hnames : rows.map (·.workflowNode) = names)
    (hnodup : names.Nodup) : NodeRows rows names :=
  ⟨hnames, hnodup, List.Nodup.of_append_right h.nodup_ids⟩

theorem fresh (h : e.Registered e₁ wf rows edges) {j : JobId} (hj : j ∈ rows.map Job.jobId) :
    e.board.row j = none := by
  have hnone : e.db.getJob j = none :=
    Table.lookup_eq_none.mpr fun hmem => List.disjoint_of_nodup_append h.nodup_ids hmem hj
  rw [board_row, hnone]
  rfl

theorem row_old (h : e.Registered e₁ wf rows edges) {j : JobId} (hj : j ∉ rows.map Job.jobId) :
    e₁.board.row j = e.board.row j := by
  rw [board_row, board_row, Database.getJob_of_rows h.rows_eq, if_neg hj]

theorem row_new (h : e.Registered e₁ wf rows edges) {row : Job} (hrow : row ∈ rows) :
    e₁.board.row row.jobId = some row.stub := by
  have hmem : row.persisted ∈ e₁.db.jobs.rows := by
    rw [h.rows_eq]
    exact List.mem_append_right _ (List.mem_map_of_mem hrow)
  have hget : e₁.db.getJob row.jobId = some row.persisted := Table.lookup_eq_some.mpr ⟨hmem, rfl⟩
  rw [board_row, hget]
  rfl

theorem mem_deps (h : e.Registered e₁ wf rows edges) (d : JobId × JobId) :
    d ∈ e₁.board.deps ↔
      d ∈ e.board.deps ∨ d ∈ edges.map fun d => (idOfNode rows d.1, idOfNode rows d.2) := by
  have hdeps : e₁.db.loadAllDependencies =
      e.db.loadAllDependencies ++ edges.map fun d => (idOfNode rows d.1, idOfNode rows d.2) := by
    unfold Database.loadAllDependencies
    rw [(Database.rows_insertWorkflow h.insert).2.1, List.map_append, List.map_map]
    congr 1
    exact List.map_id' _
  change d ∈ e₁.db.loadAllDependencies.toFinset ↔ d ∈ e.db.loadAllDependencies.toFinset ∨ _
  rw [hdeps, List.toFinset_append, Finset.mem_union, List.mem_toFinset, List.mem_toFinset]

theorem mem_ids_of_edge (hrows : NodeRows rows names) (hedges : ∀ d ∈ edges, d.1 ∈ names ∧ d.2 ∈ names)
    {d : JobId × JobId} (hd : d ∈ edges.map fun d => (idOfNode rows d.1, idOfNode rows d.2)) :
    d.1 ∈ rows.map Job.jobId ∧ d.2 ∈ rows.map Job.jobId := by
  obtain ⟨s, hs, rfl⟩ := List.mem_map.mp hd
  exact ⟨hrows.idOfNode_mem (hedges s hs).1, hrows.idOfNode_mem (hedges s hs).2⟩

/-- The dependencies of a new job are the edges that lead to it. -/
theorem mem_deps_new (h : e.Registered e₁ wf rows edges) (hg : e.board.Graph) {c : JobId}
    (hc : c ∈ rows.map Job.jobId) (p : JobId) :
    (p, c) ∈ e₁.board.deps ↔ (p, c) ∈ edges.map fun d => (idOfNode rows d.1, idOfNode rows d.2) := by
  rw [h.mem_deps]
  refine or_iff_right fun hd => ?_
  obtain ⟨-, rc, -, hrc, -⟩ := hg.edge p c hd
  rw [h.fresh hc] at hrc
  cases hrc

theorem card_parents_new (h : e.Registered e₁ wf rows edges) (hg : e.board.Graph) (hrows : NodeRows rows names)
    (hedges : ∀ d ∈ edges, d.1 ∈ names ∧ d.2 ∈ names) {row : Job} (hrow : row ∈ rows) :
    (e₁.board.parents row.jobId).card = indegree edges row.workflowNode := by
  rw [card_parents h.nodup_edges (h.mem_deps_new hg (List.mem_map_of_mem hrow)),
    hrows.length_filter_edges hedges hrow]

theorem children_eq (h : e.Registered e₁ wf rows edges) (p : JobId) :
    e₁.board.children p = e.board.children p ++
      ((edges.map fun d => (idOfNode rows d.1, idOfNode rows d.2)).filter fun d => d.1 = p).map Prod.snd := by
  change (e₁.children.lookup p).getD [] = _
  rw [h.children, lookup_foldl_children]
  rfl

theorem pending_new (h : e.Registered e₁ wf rows edges) {row : Job} (hrow : row ∈ rows) :
    e₁.board.pending row.jobId = row.pendingDeps := by
  change (e₁.pendingDeps.lookup row.jobId).getD 0 = _
  rw [h.pendingDeps, (lookup_foldl_pending rows e.pendingDeps row.jobId).2
    (List.Nodup.of_append_right h.nodup_ids) row hrow rfl]
  rfl

theorem pending_old (h : e.Registered e₁ wf rows edges) {c : JobId} (hc : c ∉ rows.map Job.jobId) :
    e₁.board.pending c = e.board.pending c := by
  change (e₁.pendingDeps.lookup c).getD 0 = _
  rw [h.pendingDeps, (lookup_foldl_pending rows e.pendingDeps c).1 hc]
  rfl

theorem children_new (h : e.Registered e₁ wf rows edges) (hg : e.board.Graph) {p : JobId}
    (hp : p ∈ rows.map Job.jobId) :
    (e₁.board.children p).Nodup ∧ ∀ c, c ∈ e₁.board.children p ↔ (p, c) ∈ e₁.board.deps := by
  have hnone : ∀ c, (p, c) ∉ e.board.deps := by
    intro c hd
    obtain ⟨rp, -, hrp, -⟩ := hg.edge p c hd
    rw [h.fresh hp] at hrp
    cases hrp
  have hempty : e.board.children p = [] := by
    rw [List.eq_nil_iff_forall_not_mem]
    exact fun c hc => hnone c ((hg.children p c).mp hc)
  rw [h.children_eq, hempty, List.nil_append]
  refine ⟨?_, fun c => ?_⟩
  · refine List.Nodup.map_on ?_ (h.nodup_edges.filter _)
    intro d hd d' hd' hsnd
    have h1 := of_decide_eq_true (List.mem_filter.mp hd).2
    have h2 := of_decide_eq_true (List.mem_filter.mp hd').2
    exact Prod.ext (h1.trans h2.symm) hsnd
  · rw [h.mem_deps, or_iff_right (hnone c), List.mem_map]
    constructor
    · rintro ⟨d, hd, rfl⟩
      obtain ⟨hmem, hfst⟩ := List.mem_filter.mp hd
      rw [← of_decide_eq_true hfst]
      exact hmem
    · exact fun hd => ⟨(p, c), List.mem_filter.mpr ⟨hd, decide_eq_true rfl⟩, rfl⟩

theorem children_old (h : e.Registered e₁ wf rows edges) (hrows : NodeRows rows names)
    (hedges : ∀ d ∈ edges, d.1 ∈ names ∧ d.2 ∈ names) {p : JobId} (hp : p ∉ rows.map Job.jobId) :
    e₁.board.children p = e.board.children p := by
  have hnil : ((edges.map fun d => (idOfNode rows d.1, idOfNode rows d.2)).filter fun d => d.1 = p) = [] := by
    rw [List.filter_eq_nil_iff]
    intro d hd hfst
    exact hp (of_decide_eq_true hfst ▸ (mem_ids_of_edge hrows hedges hd).1)
  rw [h.children_eq, hnil, List.map_nil, List.append_nil]

theorem record_eq (h : e.Registered e₁ wf rows edges) :
    e.board.record wf.workflowId = none ∧
      e₁.board.record = Function.update e.board.record wf.workflowId (some .running) := by
  have hins := (Database.rows_insertWorkflow h.insert).2.2
  have hnone : e.db.getWorkflow wf.workflowId = none := (Table.insert_eq_some.mp hins).1
  refine ⟨by simp [board, hnone], ?_⟩
  funext v
  change (e₁.db.workflows.lookup v).map _ = _
  rw [Table.lookup_of_insert hins]
  by_cases hv : v = wf.workflowId
  · subst hv
    rw [if_pos rfl, Function.update_self, Option.map_some, h.state]
  · rw [if_neg (Ne.symm hv), Function.update_of_ne hv]
    rfl

/-- **The nodes of a registered workflow enter the board.** -/
theorem admits {D : Multiset Due} (h : e.Registered e₁ wf rows edges) (hs : e.board.Safe D)
    (hrows : NodeRows rows names) (hedges : ∀ d ∈ edges, d.1 ∈ names ∧ d.2 ∈ names) (hnonempty : rows ≠ [])
    {live : Finset JobId}
    (hlive : e.board.live ⊆ live ∧ live ⊆ e.board.live ∪ (rows.map Job.jobId).toFinset) :
    e.board.Admits { e₁.board with live } (rows.map Job.jobId).toFinset wf.workflowId := by
  have hg := hs.graph
  have hcard : (rows.map Job.jobId).toFinset.card = rows.length := by
    rw [List.toFinset_card_of_nodup hrows.ids, List.length_map]
  have hreceipts : ∀ {α : Type} (f : Receipt → Option α), e₁.receipts f = e.receipts f := by
    intro α f
    rw [receipts, h.shape]
    rfl
  refine
    { fresh := fun j hj => h.fresh (List.mem_toFinset.mp hj)
      ids := ?_
      old := fun j hj => h.row_old fun hmem => hj (List.mem_toFinset.mpr hmem)
      new := fun j hj => ?_
      depsOld := fun d hd => (h.mem_deps d).mpr (.inl hd)
      depsNew := fun d hd => ?_
      childrenOld := fun p hp => h.children_old hrows hedges fun hmem => hp (List.mem_toFinset.mpr hmem)
      childrenNew := fun p hp => h.children_new hg (List.mem_toFinset.mp hp)
      pendingOld := fun c hc => h.pending_old fun hmem => hc (List.mem_toFinset.mpr hmem)
      pendingNew := fun c hc => ?_
      lease := ?_
      live := hlive
      outstanding := ?_
      tally := h.terminal
      slots := hreceipts _
      callbacks := hreceipts _
      counted := hreceipts _
      units := hreceipts _
      cancelled := hreceipts _
      single := fun hw => absurd hw h.named
      registered := fun _ => ⟨?_, h.record_eq.1, ?_, ?_, h.record_eq.2⟩ }
  · change (e₁.db.jobs.rows.map Job.jobId).toFinset = _
    rw [h.rows_eq, List.map_append, List.toFinset_append, List.map_map]
    rfl
  · obtain ⟨row, hrow, rfl⟩ := List.mem_map.mp (List.mem_toFinset.mp hj)
    refine ⟨row.stub, h.row_new hrow, ?_⟩
    change Board.Starts row.stub wf.workflowId (e₁.board.parents row.jobId).card
    rw [h.card_parents_new hg hrows hedges hrow]
    exact h.starts row hrow
  · rcases (h.mem_deps d).mp hd with hd | hd
    · exact .inl hd
    · obtain ⟨h1, h2⟩ := mem_ids_of_edge hrows hedges hd
      exact .inr ⟨List.mem_toFinset.mpr h1, List.mem_toFinset.mpr h2, h.named⟩
  · obtain ⟨row, hrow, rfl⟩ := List.mem_map.mp (List.mem_toFinset.mp hc)
    intro _
    change e₁.board.pending row.jobId = (e₁.board.parents row.jobId).card
    rw [h.pending_new hrow, h.card_parents_new hg hrows hedges hrow]
    exact (h.starts row hrow).deps
  · change e₁.board.lease = e.board.lease
    rw [h.shape]
    rfl
  · rw [hcard]
    change e₁.outstanding = _
    rw [h.shape]
    rfl
  · rw [← Finset.card_pos, hcard]
    exact List.length_pos_iff.mpr hnonempty
  · change (fun w => e₁.wfRemaining.lookup w) = _
    rw [hcard, h.shape]
    exact lookup_insert_update e.wfRemaining wf.workflowId id _
  · change (fun w => (e₁.wfFailures.lookup w).getD 0) = _
    rw [h.shape]
    exact lookup_insert_update e.wfFailures wf.workflowId (fun o => o.getD 0) _

end Registered

/-! ### Submitting a workflow -/

theorem foldl_releaseSlot (rows : List Job) (n : ℕ) (h : e.outstanding = n + rows.length) :
    rows.foldl (fun e _ => e.releaseSlot) e = { e with outstanding := n } := by
  have hiterate := releaseSlot_iterate (e := { e with outstanding := n }) rows.length
  rwa [← h, ← List.foldl_const] at hiterate

theorem newId_ne_empty {k : String} (h : k ≠ "") : e.newId k ≠ "" := by
  unfold newId
  intro hnil
  exact h (String.append_eq_empty_iff.mp hnil).1

theorem insertWorkflow_of_reliable (hr : e.Reliable) (wf : WorkflowRecord) (rows : List Job)
    (edges : List (JobId × JobId)) :
    e.insertWorkflow wf rows edges = (e.db.insertWorkflow wf rows edges).map fun db =>
      { e.tick with db, journal := e.journal ++ [.insertWorkflow wf rows edges] } := by
  rw [insertWorkflow, hr e.world.pos]
  simp only [Bool.false_eq_true, if_false]
  cases e.db.insertWorkflow wf rows edges <;> rfl

/-- The nodes that need not wait for others are put on the queue. -/
theorem Registered.submitted {D : Multiset Due} {e₁ : JobEngine} {wf : WorkflowRecord} {rows : List Job}
    {edges : List (String × String)} {names : List String} (h : e.Registered e₁ wf rows edges)
    (hs : e.board.Safe D) (hq : e.queue.Consistent) (hrows : NodeRows rows names)
    (hedges : ∀ d ∈ edges, d.1 ∈ names ∧ d.2 ∈ names) (hnonempty : rows ≠ [])
    (hfault : e₁.world.fault = e.world.fault)
    (hcount : e₁.metrics.jobsSubmitted = e.metrics.jobsSubmitted + rows.length)
    (hmore : e.outstanding + rows.length ≤ e.cfg.maxOutstandingJobs) :
    e.Submitted ((rows.filter fun j => j.state ≠ .pending).foldl enqueue e₁) := by
  have hqueue : e₁.queue = e.queue := by rw [h.shape]
  have hcard : (rows.map Job.jobId).toFinset.card = rows.length := by
    rw [List.toFinset_card_of_nodup hrows.ids, List.length_map]
  have hqueued := foldl_enqueue_queued (hqueue ▸ hq) (rows.filter fun j => j.state ≠ .pending)
  have hb := hqueued.board_eq
  have hsub : ((rows.filter fun j => j.state ≠ .pending).map (·.jobId)).toFinset ⊆ (rows.map Job.jobId).toFinset := by
    intro j hj
    rw [List.mem_toFinset] at hj ⊢
    obtain ⟨row, hrow, rfl⟩ := List.mem_map.mp hj
    exact List.mem_map_of_mem (List.mem_of_mem_filter hrow)
  have hlive := hqueued.live
  rw [hqueue] at hlive
  have hadmits := h.admits hs hrows hedges hnonempty
    ⟨hlive.1, hlive.2.trans (Finset.union_subset_union_right hsub)⟩
  obtain ⟨q, log, n, hshape⟩ := hqueued.shape
  refine ⟨?_, ?_, hqueue ▸ hqueued.kept, ?_, ?_, .inr ⟨(rows.map Job.jobId).toFinset, wf.workflowId, ?_, ?_, ?_, ?_⟩⟩
  · rw [hshape, h.shape]
  · rw [hshape]
    exact hfault
  · rw [hshape, h.shape]
  · rw [hshape, h.shape]
  · rw [hb]
    exact hadmits
  · rw [hshape, hcard]
    exact hcount
  · rw [hshape, h.shape]
    exact hmore
  · intro hclosed hroom
    rw [hcard] at hroom
    have hle : ((rows.filter fun j => j.state ≠ .pending).map (·.jobId)).length ≤ rows.length := by
      rw [List.length_map]
      exact List.length_filter_le _ _
    obtain ⟨hfull, hlog⟩ := hqueued.room (hqueue ▸ hclosed) (by rw [hqueue]; omega)
    refine ⟨fun j hj r hrow => ?_, by rw [hlog, h.shape]⟩
    obtain ⟨row, hmem, rfl⟩ := List.mem_map.mp (List.mem_toFinset.mp hj)
    rw [hb] at hrow ⊢
    have hr : r = row.stub := Option.some.inj (hrow.symm.trans (h.row_new hmem))
    change row.jobId ∈ (List.foldl enqueue e₁ _).queue.live ↔ _
    rw [hfull, hr, hqueue, Finset.mem_union, List.mem_toFinset]
    refine or_congr_right ⟨fun hin => ?_, fun hne => ?_⟩
    · obtain ⟨row', hmem', hid⟩ := List.mem_map.mp hin
      obtain ⟨hmem', hne⟩ := List.mem_filter.mp hmem'
      rw [← List.inj_on_of_nodup_map hrows.ids hmem' hmem hid]
      exact of_decide_eq_true hne
    · exact List.mem_map_of_mem (List.mem_filter.mpr ⟨hmem, decide_eq_true hne⟩)

/-- With all slots reserved, the nodes of a valid workflow enter the board or all slots are given back. -/
theorem submitWorkflowReserved_submitted {D : Multiset Due} (hr : e.Reliable) (hq : e.queue.Consistent)
    (hs : e.board.Safe D) (name : String) {nodes : List WorkflowNodeSpec} {edges : List (String × String)}
    (hmore : e.outstanding + nodes.length ≤ e.cfg.maxOutstandingJobs) (hvalid : ValidGraph nodes edges) :
    e.Submitted
      (({ e with outstanding := e.outstanding + nodes.length } : JobEngine).submitWorkflowReserved name nodes
        edges).2 := by
  set e₀ : JobEngine := { e with outstanding := e.outstanding + nodes.length } with he₀
  have hshape := workflowRows_shape (e₀.newId "w_") e₀.wallMs edges nodes e₀.tick
  have hnames := workflowRows_names (e₀.newId "w_") e₀.wallMs edges nodes e₀.tick
  have hstarts := workflowRows_starts (e₀.newId "w_") e₀.wallMs edges nodes e₀.tick
  unfold submitWorkflowReserved
  rcases hw : workflowRows (e₀.newId "w_") e₀.wallMs edges nodes e₀.tick with ⟨rows, e₂⟩
  rw [hw] at hshape hnames hstarts
  obtain ⟨n, seq, he₂⟩ := hshape
  dsimp only at he₂ hnames hstarts
  have hlen : rows.length = nodes.length := by
    have hmap := congrArg List.length hnames
    rwa [List.length_map, List.length_map] at hmap
  replace he₂ : e₂ = { e with
      outstanding := e.outstanding + rows.length
      world := { e.world with pos := n }
      seqCounter := seq } := by
    rw [he₂, hlen]
    rfl
  simp only [hw]
  have hr₂ : e₂.Reliable := by
    rw [he₂]
    exact hr
  have hdb : e₂.db = e.db := by rw [he₂]
  have hout : e₂.outstanding = e.outstanding + rows.length := by rw [he₂]
  rw [insertWorkflow_of_reliable hr₂, hdb]
  cases hins : e.db.insertWorkflow
      { workflowId := e₀.newId "w_", name := name, createdAtMs := e₀.wallMs, nodeCount := nodes.length } rows
      (edges.map fun d => (idOfNode rows d.1, idOfNode rows d.2)) with
  | error err =>
      simp only [Except.map]
      rw [foldl_releaseSlot (e := e₂.tick) rows e.outstanding hout, he₂]
      exact .refused hq rfl rfl rfl
  | ok db =>
      have hnonempty : rows ≠ [] := by
        rw [← List.length_pos_iff, hlen]
        exact List.length_pos_iff.mpr hvalid.nonempty
      have hsubmitted : ∀ e₁ wf, e.Registered e₁ wf rows edges → e₁.world.fault = e.world.fault →
          e₁.metrics.jobsSubmitted = e.metrics.jobsSubmitted + rows.length →
          e.Submitted ((rows.filter fun j => j.state ≠ .pending).foldl enqueue e₁) :=
        fun e₁ wf hreg hfault hcount =>
          hreg.submitted hs hq (hreg.nodeRows hnames hvalid.nodup) hvalid.edges hnonempty hfault hcount
            (by rw [hlen]; exact hmore)
      rw [he₂, ← hlen]
      exact hsubmitted _ _ ⟨hins, rfl, rfl, rfl, rfl, rfl, newId_ne_empty (by decide), hstarts⟩ rfl rfl

/-- **A workflow is refused or enters the board as a whole.** -/
theorem submitWorkflow_submitted {D : Multiset Due} (hr : e.Reliable) (hq : e.queue.Consistent)
    (hs : e.board.Safe D) (name : String) (nodes : List WorkflowNodeSpec) (edges : List (String × String)) :
    e.Submitted (e.submitWorkflow name nodes edges).2 := by
  exact submitWorkflow_rule (P := e.Submitted) name nodes edges (fun _ => .refused hq rfl rfl rfl) fun hvalid hroom =>
    submitWorkflowReserved_submitted hr hq hs name hroom (validGraph_of_validateWorkflow hvalid)

end JobEngine

end DistributedJobEngine
