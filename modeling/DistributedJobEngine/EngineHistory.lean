import DistributedJobEngine.EngineClock
import DistributedJobEngine.EngineRecover
import DistributedJobEngine.EngineTurns

/-! The row writes in issue order. What a store holds after a prefix of them is one of the states the tables went
through, so what holds of the tables after every write holds of every store that a crash can leave. -/

namespace DistributedJobEngine

open LibTable

/-- The rows and edges that writes leave in an empty store. -/
structure Image where
  jobs : List Job := []
  deps : List Dependency := []

def RowWrite.apply (im : Image) : RowWrite → Image
  | .insert job => { im with jobs := im.jobs ++ [job.persisted] }
  | .update job => { im with jobs := Table.updateRows im.jobs job.persisted Job.jobId }
  | .insertWorkflow wf nodes edges =>
      { jobs := im.jobs ++ nodes.map Job.persisted
        deps := im.deps ++ edges.map fun d => ⟨wf.workflowId, d.1, d.2⟩ }

def replay (ws : List RowWrite) : Image := ws.foldl RowWrite.apply {}

theorem replay_concat (ws : List RowWrite) (w : RowWrite) : replay (ws ++ [w]) = w.apply (replay ws) := by
  rw [replay, List.foldl_append]
  rfl

/-- The store holds the effect of the row writes `ws`. -/
structure Database.Holds (db : Database) (ws : List RowWrite) : Prop where
  jobs : db.jobs.rows = (replay ws).jobs
  deps : db.dependencies.rows = (replay ws).deps

/-- Every write of a row that is there relates the row to what it becomes. -/
def Journaled (L : Job → Job → Prop) (ws : List RowWrite) : Prop :=
  ∀ pre row post, ws = pre ++ .update row :: post → ∀ old ∈ (replay pre).jobs, old.jobId = row.jobId → L old row

theorem Journaled.nil (L : Job → Job → Prop) : Journaled L [] := fun _ _ _ h =>
  absurd h.symm (List.append_ne_nil_of_right_ne_nil _ (List.cons_ne_nil _ _))

theorem Journaled.concat {L : Job → Job → Prop} {ws : List RowWrite} {w : RowWrite} (h : Journaled L ws)
    (hw : ∀ row, w = .update row → ∀ old ∈ (replay ws).jobs, old.jobId = row.jobId → L old row) :
    Journaled L (ws ++ [w]) := by
  intro pre row post heq old hold hid
  rcases List.eq_nil_or_concat post with rfl | ⟨post', x, rfl⟩
  · obtain ⟨hpre, hlast⟩ := List.append_inj' heq rfl
    rw [← hpre] at hold
    exact hw row (List.singleton_inj.mp hlast) old hold hid
  · have hinit : ws = pre ++ .update row :: post' := by
      have hlist : ws ++ [w] = (pre ++ .update row :: post') ++ [x] := by
        rw [heq, List.concat_eq_append, List.append_assoc]
        rfl
      exact (List.append_inj' hlist rfl).1
    exact h pre row post' hinit old hold hid

theorem Journaled.of_prefix {L : Job → Job → Prop} {ws kept : List RowWrite} (h : Journaled L ws)
    (hkept : kept <+: ws) : Journaled L kept := by
  obtain ⟨lost, rfl⟩ := hkept
  intro pre row post hpost
  refine h pre row (post ++ lost) ?_
  rw [hpost, List.append_assoc]
  rfl

namespace JobEngine

variable {e e' : JobEngine}

/-! ### The writes of a step -/

theorem foldl_enqueue_rows (jobs : List Job) :
    (jobs.foldl enqueue e).db = e.db ∧ (jobs.foldl enqueue e).journal = e.journal := by
  induction jobs generalizing e with
  | nil => exact ⟨rfl, rfl⟩
  | cons job jobs ih =>
      obtain ⟨hdb, hjournal⟩ := ih (e := e.enqueue job)
      rw [List.foldl_cons, hdb, hjournal]
      exact enqueue_rows job

/-- What a call that submits jobs writes. -/
inductive Issues (e e' : JobEngine) : Prop
  | nothing (hdb : e'.db = e.db) (hjournal : e'.journal = e.journal)
  | job (job : Job) (hjobs : e'.db.jobs.rows = e.db.jobs.rows ++ [job.persisted])
      (hdeps : e'.db.dependencies = e.db.dependencies) (hjournal : e'.journal = e.journal ++ [.insert job])
  | workflow (wf : WorkflowRecord) (rows : List Job) (edges : List (JobId × JobId))
      (hins : e.db.insertWorkflow wf rows edges = .ok e'.db) (hends : ∀ d ∈ edges, d.1 ∈ rows.map Job.jobId)
      (hjournal : e'.journal = e.journal ++ [.insertWorkflow wf rows edges])

theorem Issues.congr {e₀ : JobEngine} (h : e₀.Issues e') (hdb : e₀.db = e.db) (hjournal : e₀.journal = e.journal) :
    e.Issues e' := by
  cases h with
  | nothing hdb' hjournal' => exact .nothing (hdb'.trans hdb) (hjournal'.trans hjournal)
  | job job hjobs hdeps hjournal' => exact .job job (hdb ▸ hjobs) (hdb ▸ hdeps) (hjournal ▸ hjournal')
  | workflow wf rows edges hins hends hjournal' =>
      exact .workflow wf rows edges (hdb ▸ hins) hends (hjournal ▸ hjournal')

theorem submitReserved_issues (req : SubmitRequest) : e.Issues (e.submitReserved req).2 := by
  unfold submitReserved
  dsimp only
  split
  · exact .nothing rfl rfl
  · rename_i e₁ hinsert
    obtain ⟨t, hins, rfl⟩ := insertJob_eq_ok hinsert
    obtain ⟨-, hrows⟩ := Table.insert_eq_some.mp hins
    split
    · exact .job _ hrows rfl rfl
    · refine .job (e.submitJob req) ?_ ?_ ?_
      · rw [(enqueue_rows _).1]
        exact hrows
      · rw [(enqueue_rows _).1]
        rfl
      · rw [(enqueue_rows _).2]
        rfl

theorem idOfNode_mem_of_names {rows : List Job} {n : String} (h : n ∈ rows.map (·.workflowNode)) :
    idOfNode rows n ∈ rows.map Job.jobId := by
  obtain ⟨row, hrow, hname⟩ := List.mem_map.mp h
  have hsome : (rows.find? fun j => j.workflowNode = n).isSome :=
    List.find?_isSome.mpr ⟨row, hrow, decide_eq_true hname⟩
  obtain ⟨row', hfind⟩ := Option.isSome_iff_exists.mp hsome
  rw [idOfNode, hfind]
  exact List.mem_map_of_mem (List.mem_of_find?_eq_some hfind)

theorem submitWorkflowReserved_issues (name : String) {nodes : List WorkflowNodeSpec} {edges : List (String × String)}
    (hvalid : ValidGraph nodes edges) : e.Issues (e.submitWorkflowReserved name nodes edges).2 := by
  have hshape := workflowRows_shape (e.newId "w_") e.wallMs edges nodes e.tick
  have hnames := workflowRows_names (e.newId "w_") e.wallMs edges nodes e.tick
  unfold submitWorkflowReserved
  rcases hw : workflowRows (e.newId "w_") e.wallMs edges nodes e.tick with ⟨rows, e₂⟩
  rw [hw] at hshape hnames
  obtain ⟨n, seq, he₂⟩ := hshape
  dsimp only at he₂ hnames
  simp only [hw]
  have hdb : e₂.db = e.db := by rw [he₂]; rfl
  have hjournal : e₂.journal = e.journal := by rw [he₂]; rfl
  have hends : ∀ d ∈ edges.map fun d => (idOfNode rows d.1, idOfNode rows d.2), d.1 ∈ rows.map Job.jobId := by
    intro d hd
    obtain ⟨s, hs, rfl⟩ := List.mem_map.mp hd
    exact idOfNode_mem_of_names (hnames ▸ (hvalid.edges s hs).1)
  have hback : (rows.foldl (fun e _ => e.releaseSlot) e₂.tick).db = e₂.db ∧
      (rows.foldl (fun e _ => e.releaseSlot) e₂.tick).journal = e₂.journal := by
    obtain ⟨n, hn⟩ := exists_foldl_releaseSlot rows e₂.tick
    rw [hn]
    exact ⟨rfl, rfl⟩
  split
  · exact .nothing (hback.1.trans hdb) (hback.2.trans hjournal)
  · rename_i e₁ hinsert
    obtain ⟨db, hins, rfl⟩ := insertWorkflow_eq_ok hinsert
    rw [hdb] at hins
    refine .workflow
      { workflowId := e.newId "w_", name := name, createdAtMs := e.wallMs, nodeCount := nodes.length } rows _ ?_
      hends ?_
    · rw [(foldl_enqueue_rows _).1]
      exact hins
    · rw [(foldl_enqueue_rows _).2, ← hjournal]
      rfl

theorem submits_issues (h : Submits e e') : e.Issues e' := by
  cases h with
  | job req =>
      refine submit_rule (P := e.Issues) req (fun _ => .nothing rfl rfl) fun _ => ?_
      exact (submitReserved_issues (e := { e with outstanding := e.outstanding + 1 }) req).congr rfl rfl
  | workflow name nodes edges =>
      refine submitWorkflow_rule (P := e.Issues) name nodes edges (fun _ => .nothing rfl rfl) fun hvalid _ => ?_
      exact (submitWorkflowReserved_issues (e := { e with outstanding := e.outstanding + nodes.length }) name
        (validGraph_of_validateWorkflow hvalid)).congr rfl rfl

/-! ### What every store content satisfies -/

/-- The rows and edges of a store on which recovery can build: `Board.Safe` without the maps of a process. -/
structure Stored (e : JobEngine) : Prop where
  edge : ∀ p c, (p, c) ∈ e.board.deps → ∃ rp rc, e.board.row p = some rp ∧ e.board.row c = some rc ∧
    rp.workflowId = rc.workflowId ∧ rp.workflowId ≠ ""
  parents : ∀ c r, e.board.row c = some r → ¬ Board.Held r.state → ∀ p, (p, c) ∈ e.board.deps → e.board.Succ p
  column : ∀ c r, e.board.row c = some r → (r.state = .pending → ((e.board.parents c).card : Int) ≤ r.deps) ∧
    (r.state.isTerminal = false → r.state ≠ .pending → r.deps ≤ 0)
  unique : e.db.loadAllDependencies.Nodup

theorem Stored.of_safe {D : Multiset Due} (h : e.board.Safe D) (hdeps : e.db.loadAllDependencies.Nodup) : e.Stored :=
  ⟨h.graph.edge, h.parents, h.column, hdeps⟩

theorem Stored.congr (h : e.Stored) (hjobs : e'.db.jobs = e.db.jobs)
    (hdeps : e'.db.dependencies = e.db.dependencies) : e'.Stored := by
  have hrow : e'.board.row = e.board.row := by
    funext j
    rw [board_row, board_row, Database.getJob, hjobs]
    rfl
  have hloads : e'.db.loadAllDependencies = e.db.loadAllDependencies := by
    rw [Database.loadAllDependencies, hdeps]
    rfl
  have hedges : e'.board.deps = e.board.deps := congrArg List.toFinset hloads
  refine ⟨?_, ?_, ?_, by rw [hloads]; exact h.unique⟩
  · rw [hrow, hedges]
    exact h.edge
  · simp only [Board.Succ, hrow, hedges]
    exact h.parents
  · simp only [Board.parents, hrow, hedges]
    exact h.column

/-! ### The chronicle -/

/-- A change of state is one of the table unless it starts a job that was scheduled or retrying. -/
def Lawful (s t : JobState) : Prop :=
  s ≠ t → (s.isValidTransition t = true ↔ ¬ (t = .running ∧ (s = .scheduled ∨ s = .retrying)))

instance (s t : JobState) : Decidable (Lawful s t) := inferInstanceAs (Decidable (_ → _))

/-- What the row writes so far say: the tables are their effect, after each of them the tables were such that recovery
can build on them, and each changed the state of its row lawfully. -/
structure Chronicle (e : JobEngine) : Prop where
  holds : e.db.Holds e.journal
  stored : ∀ ws, ws <+: e.journal → ∃ e₀ : JobEngine, e₀.db.Holds ws ∧ e₀.Stored
  lawful : ∀ pre row post, e.journal = pre ++ .update row :: post → ∀ old ∈ (replay pre).jobs,
    old.jobId = row.jobId → Lawful old.state row.state

theorem Chronicle.same (h : e.Chronicle) (hjobs : e'.db.jobs = e.db.jobs)
    (hdeps : e'.db.dependencies = e.db.dependencies) (hjournal : e'.journal = e.journal) : e'.Chronicle := by
  refine ⟨⟨?_, ?_⟩, ?_, ?_⟩
  · rw [hjobs, hjournal]
    exact h.holds.jobs
  · rw [hdeps, hjournal]
    exact h.holds.deps
  · rw [hjournal]
    exact h.stored
  · rw [hjournal]
    exact h.lawful

theorem Chronicle.extend {w : RowWrite} (h : e.Chronicle) (hjournal : e'.journal = e.journal ++ [w])
    (hholds : e'.db.Holds e'.journal) (hstored : e'.Stored)
    (hlawful : ∀ row, w = .update row → ∀ old ∈ e.db.jobs.rows, old.jobId = row.jobId → Lawful old.state row.state) :
    e'.Chronicle := by
  refine ⟨hholds, fun ws hws => ?_, fun pre row post heq old hold hid => ?_⟩
  · rw [hjournal, List.prefix_concat_iff] at hws
    rcases hws with rfl | hws
    · exact ⟨e', hjournal ▸ hholds, hstored⟩
    · exact h.stored ws hws
  · rw [hjournal] at heq
    refine Journaled.concat (L := fun old row => Lawful old.state row.state) h.lawful (fun row' hw old hold => ?_)
      pre row post heq old hold hid
    rw [← h.holds.jobs] at hold
    exact hlawful row' hw old hold

/-- A row was written. -/
theorem Chronicle.wrote {row : Job} (h : e.Chronicle) (hjobs : e'.db.jobs = e.db.jobs.update row.persisted)
    (hdeps : e'.db.dependencies = e.db.dependencies) (hjournal : e'.journal = e.journal ++ [.update row])
    (hstored : e'.Stored) (hlawful : ∀ old, e.db.getJob row.jobId = some old → Lawful old.state row.state) :
    e'.Chronicle := by
  refine h.extend hjournal ⟨?_, ?_⟩ hstored fun row' hw old hold hid => ?_
  · rw [hjobs, hjournal, replay_concat]
    change Table.updateRows e.db.jobs.rows row.persisted Job.jobId = Table.updateRows (replay e.journal).jobs _ _
    rw [h.holds.jobs]
  · rw [hdeps, hjournal, replay_concat]
    exact h.holds.deps
  · obtain rfl := RowWrite.update.inj hw
    exact hlawful old (Table.lookup_eq_some.mpr ⟨hold, hid⟩)

/-! ### Steps -/

theorem row_of_update {row : Job} (h : e'.db.jobs = e.db.jobs.update row.persisted) :
    e'.board.row = (e.board.write row.jobId row.stub).row := by
  rw [← congrArg Board.row (board_updateJob (e := e) row)]
  funext j
  rw [board_row, board_row, Database.getJob, h]
  rfl

theorem lawful_of_shift {s t : JobState} (h : Board.Shift s t) : Lawful s t := by
  cases h with
  | launch h => rcases JobState.isWaiting_iff.mp h with rfl | rfl | rfl <;> decide
  | release h => rcases h with rfl | rfl <;> decide
  | cancel h =>
      rcases h with h | rfl
      · rcases JobState.isWaiting_iff.mp h with rfl | rfl | rfl <;> decide
      · decide
  | finish h hs => revert h hs; cases t <;> decide
  | _ => decide

/-- The invariant of operations that run one at a time, and of the row writes they made. -/
structure Steady (e : JobEngine) (F : Multiset Frame) : Prop where
  sound : e.Sound F
  exact : e.board.Exact (duesIn F)
  chronicle : e.Chronicle
  unique : e.db.loadAllDependencies.Nodup

theorem Steady.stored {F : Multiset Frame} (h : e.Steady F) : e.Stored := .of_safe h.sound.safe h.unique

/-- The row that a step writes changes its state in one of the lawful ways. -/
theorem Steady.lawful {c : Choice} {f : Frame} {O : Multiset Frame} (h : e.Steady (f ::ₘ O)) {row old : Job}
    (hjobs : (e.advance c f).1.db.jobs = e.db.jobs.update row.persisted)
    (hold : e.db.getJob row.jobId = some old) : Lawful old.state row.state := by
  obtain ⟨d, d', x, -, -, hbefore, -, hmove⟩ := h.sound.step (c := c)
  have hsafe := h.sound.safe
  have hexact := h.exact
  rw [hbefore] at hsafe hexact
  have hrow : e.board.row row.jobId = some old.stub := by rw [board_row, hold]; rfl
  have hnew : (e.advance c f).1.board.row row.jobId = some row.stub := by
    rw [row_of_update hjobs, Board.write_row_self hrow]
  have hsame : (e.advance c f).1.board.row row.jobId = e.board.row row.jobId → Lawful old.state row.state := by
    intro heq hne
    rw [hnew, hrow, Option.some.injEq] at heq
    exact absurd (congrArg Stub.state heq.symm) hne
  rcases hsafe.shift hexact hmove with heq | ⟨k, j, r, cur, s, -, hcur, -, hb, hshift⟩
  · exact hsame (congrFun heq _)
  · by_cases hj : row.jobId = j
    · subst hj
      rw [hb, Board.write_row_self hcur, Option.some.injEq] at hnew
      rw [hrow, Option.some.injEq] at hcur
      subst hnew hcur
      exact lawful_of_shift hshift
    · exact hsame (by rw [hb, Board.write_row_of_ne hj])

theorem Steady.advance {c : Choice} {f : Frame} {O : Multiset Frame} (h : e.Steady (f ::ₘ O))
    (hO : ∀ g ∈ O, g.kind.still = true) : (e.advance c f).1.Steady (((e.advance c f).2 : Multiset Frame) + O) := by
  have hsound := h.sound.advance (c := c) (free_of_still hO) (raceFree_of_still hO)
  have hdeps := (advance_onward (e := e) c f).dependencies
  have hunique : (e.advance c f).1.db.loadAllDependencies.Nodup := by
    rw [Database.loadAllDependencies, hdeps]
    exact h.unique
  refine ⟨hsound, ?_, ?_, hunique⟩
  · obtain ⟨d, d', x, hd, -, hbefore, hafter, hmove⟩ := h.sound.step (c := c)
    have hexact := h.exact
    rw [hbefore] at hexact
    rw [hafter]
    refine hexact.move hmove fun hwin y hy => ?_
    rcases Multiset.mem_add.mp hy with hy | hy
    · exact rest_of_window hd hwin y hy
    · exact not_isWindow_of_still hO hy
  · cases advance_rows (e := e) c f with
    | same hjobs hjournal => exact h.chronicle.same hjobs hdeps hjournal
    | wrote row _ hjobs hjournal =>
        exact h.chronicle.wrote hjobs hdeps hjournal (.of_safe hsound.safe hunique) fun old hold =>
          h.lawful hjobs hold

theorem Steady.spawn {f : Frame} {F : Multiset Frame} (h : e.Steady F) (hcall : Call f) : e.Steady (f ::ₘ F) := by
  refine ⟨h.sound.spawn hcall, ?_, h.chronicle, h.unique⟩
  rw [duesIn_cons, Frame.dues_of_call hcall, zero_add]
  exact h.exact

/-- The edges of a new workflow join new jobs. -/
theorem unique_of_insertWorkflow {wf : WorkflowRecord} {rows : List Job} {edges : List (JobId × JobId)}
    (hst : e.Stored) (hins : e.db.insertWorkflow wf rows edges = .ok e'.db)
    (hends : ∀ d ∈ edges, d.1 ∈ rows.map Job.jobId) : e'.db.loadAllDependencies.Nodup := by
  obtain ⟨hrows, hdeps, -⟩ := Database.rows_insertWorkflow hins
  have hload : e'.db.loadAllDependencies = e.db.loadAllDependencies ++ edges := by
    unfold Database.loadAllDependencies
    rw [hdeps, List.map_append, List.map_map]
    congr 1
    exact List.map_id' _
  have hedges : edges.Nodup := by
    have hnd := e'.db.dependencies.nodup
    rw [hdeps, List.map_id] at hnd
    exact List.Nodup.of_map _ (List.Nodup.of_append_right hnd)
  rw [hload]
  refine List.Nodup.append hst.unique hedges fun d hold hnew => ?_
  obtain ⟨rp, -, hrow, -⟩ := hst.edge d.1 d.2 (List.mem_toFinset.mpr hold)
  obtain ⟨job, hjob, -⟩ := Option.map_eq_some_iff.mp hrow
  have hnd := e'.db.jobs.nodup
  rw [hrows, List.map_append, List.map_map] at hnd
  have hid := Table.lookup_eq_some.mp hjob
  exact List.disjoint_of_nodup_append hnd (List.mem_map.mpr ⟨job, hid⟩) (hends d hnew)

theorem Steady.submits {F : Multiset Frame} (h : e.Steady F) (hF : ∀ g ∈ F, g.parks = true) (hsub : Submits e e') :
    e'.Steady F := by
  have hsound := h.sound.submits hsub
  have hexact : e'.board.Exact (duesIn F) := by
    intro k j r hmem
    obtain ⟨_, _, hx⟩ := duesIn_of_parks hF hmem
    cases hx
  cases submits_issues hsub with
  | nothing hdb hjournal =>
      exact ⟨hsound, hexact,
        h.chronicle.same (congrArg Database.jobs hdb) (congrArg Database.dependencies hdb) hjournal,
        by rw [hdb]; exact h.unique⟩
  | job job hjobs hdeps hjournal =>
      have hunique : e'.db.loadAllDependencies.Nodup := by
        rw [Database.loadAllDependencies, hdeps]
        exact h.unique
      refine ⟨hsound, hexact, h.chronicle.extend hjournal ⟨?_, ?_⟩ (.of_safe hsound.safe hunique) ?_, hunique⟩
      · rw [hjobs, hjournal, replay_concat, h.chronicle.holds.jobs]
        rfl
      · rw [hdeps, hjournal, replay_concat, h.chronicle.holds.deps]
        rfl
      · intro row hw
        cases hw
  | workflow wf rows edges hins hends hjournal =>
      have hunique := unique_of_insertWorkflow h.stored hins hends
      obtain ⟨hjobs, hdeps, -⟩ := Database.rows_insertWorkflow hins
      refine ⟨hsound, hexact, h.chronicle.extend hjournal ⟨?_, ?_⟩ (.of_safe hsound.safe hunique) ?_, hunique⟩
      · rw [hjobs, hjournal, replay_concat, h.chronicle.holds.jobs]
        rfl
      · rw [hdeps, hjournal, replay_concat, h.chronicle.holds.deps]
        rfl
      · intro row hw
        cases hw

/-! ### Recovery -/

/-- Requeueing a row that was running keeps what recovery builds on. -/
theorem Stored.requeue {j : JobId} {r s : Stub} (h : e.Stored) (hrow : e.board.row j = some r)
    (hrun : r.state = .running) (hs : s.state = .queued) (hwf : s.workflowId = r.workflowId) (hdeps : s.deps = r.deps)
    (hrows : e'.board.row = (e.board.write j s).row) (hedges : e'.db.dependencies = e.db.dependencies) :
      e'.Stored := by
  have hload : e'.db.loadAllDependencies = e.db.loadAllDependencies := by
    rw [Database.loadAllDependencies, hedges]
    rfl
  have hw : e.board.Wrote (e.board.write j s) j s := Board.wrote_write e.board j s
  have hopen : r.state.isTerminal = false := by rw [hrun]; rfl
  have hsucc : ∀ {p}, e.board.Succ p → e'.board.Succ p := fun hp => by
    simp only [Board.Succ, hrows]
    exact hw.succ hrow hopen hp
  have hback : ∀ {c x}, e'.board.row c = some x → c = j ∧ x = s ∨ e.board.row c = some x := by
    intro c x hx
    rw [hrows] at hx
    by_cases hc : c = j
    · subst hc
      rw [hw.row_self hrow, Option.some.injEq] at hx
      exact .inl ⟨rfl, hx.symm⟩
    · exact .inr (by rwa [hw.row_of_ne hc] at hx)
  have hset : e'.board.deps = e.board.deps := congrArg List.toFinset hload
  refine ⟨fun p c hpc => ?_, fun c x hx hheld p hpc => ?_, fun c x hx => ?_, by rw [hload]; exact h.unique⟩
  · rw [hset] at hpc
    obtain ⟨rp, rc, hp, hc, heq, hne⟩ := h.edge p c hpc
    obtain ⟨yp, hyp, hwp⟩ := hw.keeps hrow hwf hp
    obtain ⟨yc, hyc, hwc⟩ := hw.keeps hrow hwf hc
    rw [hrows]
    exact ⟨yp, yc, hyp, hyc, by rw [hwp, hwc, heq], by rw [hwp]; exact hne⟩
  · rw [hset] at hpc
    rcases hback hx with ⟨rfl, rfl⟩ | hx
    · exact hsucc (h.parents c r hrow (by rw [hrun]; simp [Board.Held]) p hpc)
    · exact hsucc (h.parents c x hx hheld p hpc)
  · rw [Board.parents, hset]
    rcases hback hx with ⟨rfl, rfl⟩ | hx
    · refine ⟨fun hp => ?_, fun _ _ => ?_⟩
      · rw [hs] at hp
        cases hp
      · rw [hdeps]
        exact (h.column c r hrow).2 hopen (by rw [hrun]; simp)
    · exact h.column c x hx

end JobEngine

end DistributedJobEngine
