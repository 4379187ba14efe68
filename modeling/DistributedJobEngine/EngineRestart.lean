import DistributedJobEngine.EngineCrash

/-! What a restart keeps of the maps of workflows. Recovery rebuilds them from the rows: the counters of completion by
counting the nodes, the child lists from the table of dependencies, and the counter of a job in `PENDING` from its
column `pending_deps`, which is written when the job is submitted and when it is released and at no time between. -/

namespace DistributedJobEngine

open LibPool LibTable

namespace Board

variable {b b' : Board} {D d d' O : Multiset Due} {w : WorkflowId}

/-- The column of a job in `PENDING` is the number of its parents. -/
def Columns (b : Board) : Prop := ∀ c r, b.row c = some r → r.state = .pending → r.deps = (b.parents c).card

theorem Columns.move (h : b.Columns) (hs : b.Safe (d + O)) (hx : b.Exact (d + O)) (hmove : Move b d b' d')
    (hdeps : b'.deps = b.deps) : b'.Columns := by
  intro c r hrow hpend
  rw [h c r (hs.pending_of_move hx hmove hrow hpend) hpend, parents, parents, hdeps]

theorem Columns.admits {N : Finset JobId} (h : b.Columns) (ha : b.Admits b' N w) : b'.Columns := by
  intro c r hrow hpend
  by_cases hc : c ∈ N
  · obtain ⟨r', hrow', hstarts⟩ := ha.new c hc
    rw [hrow, Option.some.injEq] at hrow'
    rw [hrow', hstarts.deps]
  · rw [ha.old c hc] at hrow
    rw [h c r hrow hpend, ha.parents_of_old hc]

/-- With no unit left to be subtracted, the units of a workflow are its nodes that have ended. -/
theorem Accounted.countP_units (h : b.Accounted D) (hg : b.Graph) (hD : ∀ j, D.countP (·.unitOf j) = 0) (hw : w ≠ "")
    (R : JobId → Prop) [DecidablePred R] :
    (b.units.countP fun j => b.workflow j = w ∧ R j) = ((b.nodes w).filter fun j => b.ended j = true ∧ R j).card := by
  have hcount : ∀ j, b.units.count j = (b.ended j && decide (b.workflow j ≠ "")).toNat := fun j => by
    rw [← h.unit j, hD j, add_zero]
  have hnodup : b.units.Nodup := Multiset.nodup_iff_count_le_one.mpr fun j => by
    rw [hcount j]
    exact Bool.toNat_le _
  rw [Multiset.countP_eq_card_filter, ← Multiset.toFinset_card_of_nodup (hnodup.filter _)]
  congr 1
  ext j
  rw [Multiset.mem_toFinset, Multiset.mem_filter, Finset.mem_filter, nodes, Finset.mem_filter]
  constructor
  · rintro ⟨hmem, hwf, hR⟩
    have hend := h.ended_of_unit hmem
    exact ⟨⟨hg.mem_ids_of_ended hend, hwf⟩, hend, hR⟩
  · rintro ⟨⟨-, hwf⟩, hend, hR⟩
    refine ⟨Multiset.count_pos.mp ?_, hwf, hR⟩
    rw [hcount j, hend, hwf, decide_eq_true hw]
    exact Nat.one_pos

end Board

namespace JobEngine

variable {e e' : JobEngine} {F : Multiset Frame} {w v : WorkflowId} {j : JobId} {job : Job}

/-! ### The counters that recovery builds -/

theorem getD_bump (m : AList fun _ : WorkflowId => Int) :
    ((bump m w).lookup v).getD 0 = (m.lookup v).getD 0 + if v = w then 1 else 0 := by
  unfold bump
  split_ifs with hv
  · rw [hv, AList.lookup_insert, Option.getD_some]
  · rw [AList.lookup_insert_ne hv, add_zero]

theorem getD_countNodes (jobs : List Job)
    (acc : (AList fun _ : WorkflowId => Int) × AList fun _ : WorkflowId => Int) :
    ((countNodes w jobs acc).1.lookup v).getD 0 =
        (acc.1.lookup v).getD 0 + (if v = w then jobs.countP fun job => !job.state.isTerminal else 0 : ℕ) ∧
      ((countNodes w jobs acc).2.lookup v).getD 0 = (acc.2.lookup v).getD 0 +
        (if v = w then jobs.countP fun job => job.state.isTerminal && decide (job.state ≠ .succeeded)
          else 0 : ℕ) := by
  induction jobs generalizing acc with
  | nil => simp [countNodes]
  | cons job jobs ih =>
      rw [countNodes, List.foldl_cons]
      rw [← countNodes, (ih _).1, (ih _).2]
      by_cases hopen : job.state.isTerminal = false
      · rw [if_pos hopen, getD_bump, List.countP_cons_of_pos (by simp [hopen]),
          List.countP_cons_of_neg (by simp [hopen])]
        refine ⟨?_, rfl⟩
        split_ifs <;> push_cast <;> ring
      · rw [Bool.not_eq_false] at hopen
        by_cases hsucc : job.state = .succeeded
        · rw [if_neg (by simp [hopen]), if_neg (not_not.mpr hsucc), List.countP_cons_of_neg (by simp [hopen]),
            List.countP_cons_of_neg (by simp [hsucc])]
          exact ⟨rfl, rfl⟩
        · rw [if_neg (by simp [hopen]), if_pos hsucc, getD_bump, List.countP_cons_of_neg (by simp [hopen]),
            List.countP_cons_of_pos (by simp [hopen, hsucc])]
          refine ⟨rfl, ?_⟩
          split_ifs <;> push_cast <;> ring

theorem getD_counters (nodes : WorkflowId → List Job) (ws : List WorkflowId)
    (acc : (AList fun _ : WorkflowId => Int) × AList fun _ : WorkflowId => Int) :
    ((ws.foldl (fun acc w => countNodes w (nodes w) acc) acc).1.lookup v).getD 0 =
        (acc.1.lookup v).getD 0 + (ws.count v * (nodes v).countP fun job => !job.state.isTerminal : ℕ) ∧
      ((ws.foldl (fun acc w => countNodes w (nodes w) acc) acc).2.lookup v).getD 0 = (acc.2.lookup v).getD 0 +
        (ws.count v * (nodes v).countP fun job => job.state.isTerminal && decide (job.state ≠ .succeeded) : ℕ) := by
  induction ws generalizing acc with
  | nil => simp
  | cons w ws ih =>
      rw [List.foldl_cons, (ih _).1, (ih _).2, (getD_countNodes _ _).1, (getD_countNodes _ _).2, List.count_cons]
      by_cases hw : v = w
      · subst hw
        simp only [beq_self_eq_true, if_true]
        push_cast
        constructor <;> ring
      · have hne : (w == v) = false := beq_false_of_ne (Ne.symm hw)
        rw [if_neg hw, if_neg hw, hne]
        simp

/-! ### The counters at rest -/

theorem nodup_listWorkflowJobs (db : Database) (w : WorkflowId) : ((db.listWorkflowJobs w).map (·.jobId)).Nodup := by
  rw [Database.listWorkflowJobs, ((List.perm_insertionSort _ _).map _).nodup_iff]
  exact db.jobs.nodup.sublist (List.filter_sublist.map _)

/-- The rows of a workflow and the nodes of the board, counted. -/
theorem countP_listWorkflowJobs (hg : e.board.Graph) {P : Job → Bool} {R : JobId → Prop} [DecidablePred R]
    (h : ∀ job ∈ e.db.listWorkflowJobs w, P job = true ↔ R job.jobId) :
    (e.db.listWorkflowJobs w).countP P = ((e.board.nodes w).filter R).card := by
  have hset : (e.board.nodes w).filter R = (((e.db.listWorkflowJobs w).filter P).map (·.jobId)).toFinset := by
    ext j
    rw [Finset.mem_filter, mem_nodes hg, List.mem_toFinset, List.mem_map]
    constructor
    · rintro ⟨⟨job, hmem, rfl⟩, hR⟩
      exact ⟨job, List.mem_filter.mpr ⟨hmem, (h job hmem).mpr hR⟩, rfl⟩
    · rintro ⟨job, hmem, rfl⟩
      obtain ⟨hmem, hP⟩ := List.mem_filter.mp hmem
      exact ⟨⟨job, hmem, rfl⟩, (h job hmem).mp hP⟩
  rw [hset, List.toFinset_card_of_nodup ((nodup_listWorkflowJobs _ _).sublist (List.filter_sublist.map _)),
    List.length_map, List.countP_eq_length_filter]

/-- The counters of a workflow are those that recovery computes. -/
theorem Settled.counters (h : e.Settled F) (hF : Clear F) (hw : w ≠ "")
    (hopen : ∃ job ∈ e.db.listWorkflowJobs w, job.state.isTerminal = false) :
    e.wfRemaining.lookup w = some ((e.db.listWorkflowJobs w).countP fun job => !job.state.isTerminal : ℕ) ∧
      (e.wfFailures.lookup w).getD 0 =
        ((e.db.listWorkflowJobs w).countP fun job => job.state.isTerminal && decide (job.state ≠ .succeeded) :
          ℕ) := by
  have hg := h.books.sound.safe.graph
  have hacc := h.books.accounted
  have hunits := hacc.countP_units hg (fun j => hF.countP fun x hx => Due.unitOf_of_settles hx j) hw
  have hused : e.board.used w = ((e.board.nodes w).filter fun j => e.board.ended j = true).card := by
    rw [Board.used]
    simpa using hunits fun _ => True
  have hsplit := Finset.card_filter_add_card_filter_not (s := e.board.nodes w) fun j => e.board.ended j = true
  rw [countP_listWorkflowJobs hg (R := fun j => ¬ e.board.ended j = true) fun job hmem => by
      rw [ended_of_node hmem, Bool.not_eq_true', Bool.not_eq_true],
    countP_listWorkflowJobs hg (R := fun j => e.board.ended j = true ∧ e.board.failed j = true) fun job hmem => by
      rw [ended_of_node hmem, failed_of_node hmem, Bool.and_eq_true]
      tauto]
  obtain ⟨job, hmem, hjob⟩ := hopen
  have hpos : 0 < ((e.board.nodes w).filter fun j => ¬ e.board.ended j = true).card := by
    refine Finset.card_pos.mpr ⟨job.jobId, Finset.mem_filter.mpr ⟨(mem_nodes hg).mpr ⟨job, hmem, rfl⟩, ?_⟩⟩
    rw [ended_of_node hmem, hjob]
    exact Bool.false_ne_true
  have hrem : e.board.remaining w = some
      (((e.board.nodes w).filter fun j => ¬ e.board.ended j = true).card : Int) := by
    rw [hacc.remaining w hw, if_neg (by omega), Option.some.injEq]
    omega
  refine ⟨hrem, ?_⟩
  have hfail := hacc.failures w hw
  rw [if_neg (by rw [hrem]; simp)] at hfail
  exact hfail.trans (congrArg Nat.cast (hunits fun j => e.board.failed j = true))

/-! ### The maps that recovery builds -/

theorem eq_some_of_getD {o : Option Int} {n : ℕ} (h : o.getD 0 = n) (hn : 0 < n) : o = some (n : Int) := by
  cases o with
  | none =>
      rw [Option.getD_none] at h
      omega
  | some m => exact congrArg some h

section Recovery

variable {cfg : EngineConfig} {types : List String} {world : World} {db : Database} {kept : List RowWrite}

theorem mem_openWorkflows (hw : w ≠ "") (hopen : ∃ job ∈ db.listWorkflowJobs w, job.state.isTerminal = false) :
    w ∈ openWorkflows db.loadNonTerminalJobs := by
  obtain ⟨job, hmem, hjob⟩ := hopen
  obtain ⟨hget, hid⟩ := (mem_listWorkflowJobs (e := restart {} [] {} db [])).mp hmem
  have hrow := mem_loadNonTerminalJobs.mpr ⟨(Table.lookup_eq_some.mp hget).1, hjob⟩
  rw [openWorkflows, List.mem_dedup, List.mem_filter, decide_eq_true_eq]
  exact ⟨List.mem_map.mpr ⟨job, hrow, hid⟩, hw⟩

/-- What recovery puts into the maps. -/
theorem maps_recover :
    (restart cfg types world db kept).recover.2.wfRemaining =
        ((restart cfg types world db kept).recoverCounters db.loadNonTerminalJobs).1 ∧
      (restart cfg types world db kept).recover.2.wfFailures =
        ((restart cfg types world db kept).recoverCounters db.loadNonTerminalJobs).2 ∧
      (restart cfg types world db kept).recover.2.pendingDeps =
        db.loadNonTerminalJobs.foldl (fun pd j => pd.insert j.jobId j.pendingDeps) ∅ := by
  obtain ⟨q, log, n, rows, journal, hshape⟩ := (recover_recovered cfg types world db kept).shape
  refine ⟨?_, ?_, congrArg JobEngine.pendingDeps hshape⟩
  · exact (congrArg JobEngine.wfRemaining hshape).trans AList.union_empty
  · exact (congrArg JobEngine.wfFailures hshape).trans AList.union_empty

theorem counters_recover (hw : w ≠ "") (hopen : ∃ job ∈ db.listWorkflowJobs w, job.state.isTerminal = false) :
    (restart cfg types world db kept).recover.2.wfRemaining.lookup w =
        some ((db.listWorkflowJobs w).countP fun job => !job.state.isTerminal : ℕ) ∧
      ((restart cfg types world db kept).recover.2.wfFailures.lookup w).getD 0 =
        ((db.listWorkflowJobs w).countP fun job => job.state.isTerminal && decide (job.state ≠ .succeeded) : ℕ) := by
  obtain ⟨hrem, hfail, -⟩ := @maps_recover cfg types world db kept
  have hone : (openWorkflows db.loadNonTerminalJobs).count w = 1 :=
    List.count_eq_one_of_mem (List.nodup_dedup _) (mem_openWorkflows hw hopen)
  obtain ⟨hremaining, hfailures⟩ := getD_counters (v := w) db.listWorkflowJobs
    (openWorkflows db.loadNonTerminalJobs) (∅, ∅)
  rw [hone, one_mul, AList.lookup_empty, Option.getD_none, zero_add] at hremaining hfailures
  rw [hrem, hfail]
  refine ⟨?_, hfailures⟩
  have hpos : 0 < (db.listWorkflowJobs w).countP fun job => !job.state.isTerminal := by
    obtain ⟨job, hmem, hjob⟩ := hopen
    exact List.countP_pos_iff.mpr ⟨job, hmem, by rw [hjob]; rfl⟩
  exact eq_some_of_getD hremaining hpos

theorem pendingDeps_recover (hget : db.getJob j = some job) (hopen : job.state.isTerminal = false) :
    (restart cfg types world db kept).recover.2.pendingDeps.lookup j = some job.pendingDeps := by
  obtain ⟨hmem, hid⟩ := Table.lookup_eq_some.mp hget
  rw [(@maps_recover cfg types world db kept).2.2]
  exact (lookup_foldl_pending db.loadNonTerminalJobs ∅ j).2 nodup_loadNonTerminalJobs job
    (mem_loadNonTerminalJobs.mpr ⟨hmem, hopen⟩) hid

end Recovery

/-! ### Runs -/

/-- The invariant of one life: besides the places of jobs, the column of a job in `PENDING`. -/
structure Columned (e : JobEngine) (F : Multiset Frame) : Prop where
  settled : e.Settled F
  columns : e.board.Columns

theorem Columned.advance {c : Choice} {f : Frame} {O : Multiset Frame} (h : e.Columned (f ::ₘ O))
    (hO : ∀ g ∈ O, g.kind.still = true) : (e.advance c f).1.Columned (((e.advance c f).2 : Multiset Frame) + O) := by
  obtain ⟨d, d', x, -, -, hbefore, -, hmove⟩ := h.settled.books.sound.step (c := c)
  have hsafe := h.settled.books.sound.safe
  have hexact := h.settled.exact
  rw [hbefore] at hsafe hexact
  refine ⟨h.settled.advance hO, h.columns.move hsafe hexact hmove ?_⟩
  change (Database.loadAllDependencies _).toFinset = (Database.loadAllDependencies _).toFinset
  rw [Database.loadAllDependencies, Database.loadAllDependencies, (advance_onward c f).dependencies]

theorem Columned.spawn {f : Frame} (h : e.Columned F) (hF : ∀ g ∈ F, g.parks = true) (hcall : Call f) :
    e.Columned (f ::ₘ F) :=
  ⟨h.settled.spawn hF hcall, h.columns⟩

theorem Columned.submits (h : e.Columned F) (hF : ∀ g ∈ F, g.parks = true) (hsub : Submits e e') : e'.Columned F := by
  refine ⟨h.settled.submits hF hsub, ?_⟩
  rcases (submits_submitted h.settled.books.sound hsub).board with ⟨hb, -⟩ | ⟨N, v, hadm⟩
  · rw [hb]
    exact h.columns
  · exact h.columns.admits hadm.admits

/-- The child lists of a fresh engine have the same members. -/
theorem children_recover {cfg : EngineConfig} {types : List String} {world : World} (hg : e.board.Graph)
    (hworld : ∀ n, world.fault n = false) (q : JobId) :
    (((restart cfg types world e.db e.journal).recover.2.children.lookup q).getD []).toFinset =
      ((e.children.lookup q).getD []).toFinset := by
  ext c
  rw [List.mem_toFinset, List.mem_toFinset]
  exact (@recover_rebuilt cfg types world e.db e.journal hworld).mem_children.trans
    ((hg.children q c).trans List.mem_toFinset).symm

/-- A fresh engine `e'` has the maps of a workflow that `e` had, and the counter of a job in `PENDING` is the
number of parents it still waits for. -/
structure Continues (e e' : JobEngine) (w : WorkflowId) : Prop where
  remaining : e'.wfRemaining.lookup w = e.wfRemaining.lookup w
  failures : (e'.wfFailures.lookup w).getD 0 = (e.wfFailures.lookup w).getD 0
  children : ∀ job ∈ e.db.listWorkflowJobs w,
    ((e'.children.lookup job.jobId).getD []).toFinset = ((e.children.lookup job.jobId).getD []).toFinset
  pending : ∀ job ∈ e.db.listWorkflowJobs w, job.state = .pending →
    e'.pendingDeps.lookup job.jobId = some ((e.openParents job.jobId).card : Int)

section Runs

variable {cfg cfg' : EngineConfig} {types types' : List String} {world world' : World} {p : Pool JobEngine Frame}

/-- The counter that recovery gives a job in `PENDING` is right if none of its parents has succeeded. -/
theorem Columned.pending_recover_iff (h : e.Columned F) (hget : e.db.getJob j = some job)
    (hpend : job.state = .pending) :
    (restart cfg' types' world' e.db e.journal).recover.2.pendingDeps.lookup j = some ((e.openParents j).card : Int) ↔
      ∀ q ∈ e.board.parents j, ¬ e.board.Succ q := by
  have hcolumn : job.pendingDeps = (e.board.parents j).card :=
    h.columns j job.stub (by rw [board_row, hget]; rfl) hpend
  have hfilter : e.openParents j = (e.board.parents j).filter fun q => q ∈ e.openParents j := by
    ext q
    rw [Finset.mem_filter, mem_openParents]
    tauto
  rw [pendingDeps_recover hget (by rw [hpend]; rfl), Option.some.injEq, hcolumn, Nat.cast_inj, hfilter, eq_comm,
    Finset.card_filter_eq_iff]
  refine forall₂_congr fun q hq => ?_
  rw [mem_openParents, and_iff_right hq]

/-- **Restart.** Recovery over the rows of a process at rest rebuilds the maps of a workflow that is not finished just
if none of its jobs in `PENDING` has a parent that has succeeded. -/
theorem restart_continues_iff (hworld : ∀ n, world.fault n = false) (hrun : Serial ⟨boot cfg types world, []⟩ p)
    (hworld' : ∀ n, world'.fault n = false) (hw : w ≠ "")
    (hopen : ∃ job ∈ p.state.db.listWorkflowJobs w, job.state.isTerminal = false) :
    p.state.Continues (restart cfg' types' world' p.state.db p.state.journal).recover.2 w ↔
      ∀ job ∈ p.state.db.listWorkflowJobs w, job.state = .pending →
        ∀ q parent, (q, job.jobId) ∈ p.state.db.loadAllDependencies → p.state.db.getJob q = some parent →
          parent.state ≠ .succeeded := by
  have hinv : p.state.Columned p.frames :=
    serial_invariant hrun atRest_boot
      (fun _ _ _ _ hO h => h.advance hO)
      (fun _ _ _ hF hsub h => h.submits hF hsub) (fun _ _ _ hF hcall h => h.spawn hF hcall)
      ⟨boot_settled hworld, fun c r hrow => by cases hrow⟩
  have hrest : AtRest p.frames := ⟨fun g hg => (System.Turns.atRest hrun atRest_boot).parks hg⟩
  obtain ⟨hrem, hfail⟩ := hinv.settled.counters hrest.clear hw hopen
  obtain ⟨hrem', hfail'⟩ := @counters_recover w cfg' types' world' p.state.db p.state.journal hw hopen
  have hcond : ∀ job ∈ p.state.db.listWorkflowJobs w, job.state = .pending →
      ((restart cfg' types' world' p.state.db p.state.journal).recover.2.pendingDeps.lookup job.jobId =
          some ((p.state.openParents job.jobId).card : Int) ↔
        ∀ q parent, (q, job.jobId) ∈ p.state.db.loadAllDependencies → p.state.db.getJob q = some parent →
          parent.state ≠ .succeeded) := by
    intro job hmem hpend
    rw [hinv.pending_recover_iff (mem_listWorkflowJobs.mp hmem).1 hpend]
    refine forall_congr' fun q => ?_
    rw [Board.mem_parents, show p.state.board.deps = p.state.db.loadAllDependencies.toFinset from rfl,
      List.mem_toFinset,
      Board.Succ, board_row]
    cases p.state.db.getJob q <;> simp [Job.stub]
  constructor
  · exact fun h job hmem hpend => (hcond job hmem hpend).mp (h.pending job hmem hpend)
  · refine fun h => ⟨hrem'.trans hrem.symm, hfail'.trans hfail.symm, fun job _ => ?_,
      fun job hmem hpend => (hcond job hmem hpend).mpr (h job hmem hpend)⟩
    exact children_recover hinv.settled.books.sound.safe.graph hworld' job.jobId

/-- Three nodes in a row. -/
def longChain : List WorkflowNodeSpec × List (String × String) :=
  ([⟨"a", { type := "t" }⟩, ⟨"b", { type := "t" }⟩, ⟨"c", { type := "t" }⟩], [("a", "b"), ("b", "c")])

/-- The first of them has succeeded. -/
def chainMidway : List (System.Play JobEngine Frame Choice) :=
  [.env fun e => (e.submitWorkflow "w" longChain.1 longChain.2).2, .call (.workerPop "w") {},
    .resume 0 { outcome := { ok := true } }]

theorem chainMidway_playable : ∀ a ∈ chainMidway, System.Playable Submits Call a := by
  simp only [chainMidway, List.forall_mem_cons, System.Playable, Call, Frame.isCall, true_and]
  exact ⟨fun e => .workflow _ _ _, by simp⟩

set_option maxRecDepth 8000 in
set_option synthInstance.maxSize 256 in
/-- The second node is queued and the third waits for it. -/
theorem restart_continues_midway : ∃ p, Serial ⟨boot {} ["t"] {}, []⟩ p ∧
    p.state.wfRemaining.lookup "w_0" = some 2 ∧
      p.state.Continues (restart {} ["t"] {} p.state.db p.state.journal).recover.2 "w_0" := by
  have hplay : (engineSystem.plays 40 ⟨boot {} ["t"] {}, []⟩ chainMidway).map (fun p =>
      (p.state.wfRemaining.lookup "w_0", p.state.db.loadAllDependencies,
        p.state.db.jobs.rows.map fun job => (job.jobId, job.workflowId, job.state))) =
      some (some 2, [("j_1", "j_2"), ("j_2", "j_3")],
        [("j_1", "w_0", .succeeded), ("j_2", "w_0", .queued), ("j_3", "w_0", .pending)]) := by
    decide +kernel
  obtain ⟨p, hrun, hview⟩ := System.exists_turns chainMidway_playable hplay
  simp only [Prod.mk.injEq] at hview
  obtain ⟨hrem, hedges, hrows⟩ := hview
  have hcols : ∀ job ∈ p.state.db.listWorkflowJobs "w_0", (job.jobId, job.workflowId, job.state) ∈
      [("j_1", "w_0", JobState.succeeded), ("j_2", "w_0", .queued), ("j_3", "w_0", .pending)] := by
    intro job hmem
    rw [← hrows]
    exact List.mem_map_of_mem (Table.lookup_eq_some.mp (mem_listWorkflowJobs.mp hmem).1).1
  obtain ⟨second, hmem, hsecond⟩ := List.mem_map.mp (hrows ▸ (by simp :
    ("j_2", "w_0", JobState.queued) ∈
      [("j_1", "w_0", JobState.succeeded), ("j_2", "w_0", .queued), ("j_3", "w_0", .pending)]))
  simp only [Prod.mk.injEq] at hsecond
  obtain ⟨hid, hw, hqueued⟩ := hsecond
  have hget := Table.lookup_eq_some.mpr ⟨hmem, rfl⟩
  refine ⟨p, hrun, hrem, (restart_continues_iff (fun _ => rfl) hrun (fun _ => rfl) (by decide)
    ⟨second, mem_listWorkflowJobs.mpr ⟨hget, hw⟩, by rw [hqueued]; rfl⟩).mpr ?_⟩
  intro job hmem hpend q parent hedge hparent hsucc
  have hjob := hcols job hmem
  simp only [hpend, List.mem_cons, Prod.mk.injEq, reduceCtorEq, and_false, List.not_mem_nil, or_false,
    false_or] at hjob
  rw [hedges, hjob.1] at hedge
  obtain rfl : q = second.jobId := by simpa [hid] using hedge
  rw [Database.getJob, hget, Option.some.injEq] at hparent
  rw [hparent, hsucc] at hqueued
  cases hqueued

/-- Two nodes with a child in common. -/
def join : List WorkflowNodeSpec × List (String × String) :=
  ([⟨"a", { type := "t" }⟩, ⟨"b", { type := "t" }⟩, ⟨"c", { type := "t" }⟩], [("a", "c"), ("b", "c")])

/-- One of the parents has succeeded. -/
def joinHalf : List (System.Play JobEngine Frame Choice) :=
  [.env fun e => (e.submitWorkflow "w" join.1 join.2).2, .call (.workerPop "w") {},
    .resume 0 { outcome := { ok := true } }]

theorem joinHalf_playable : ∀ a ∈ joinHalf, System.Playable Submits Call a := by
  simp only [joinHalf, List.forall_mem_cons, System.Playable, Call, Frame.isCall, true_and]
  exact ⟨fun e => .workflow _ _ _, by simp⟩

set_option maxRecDepth 8000 in
/-- The counter of the child is two again, and one parent is left to count it down. -/
theorem restart_forgets : ∃ p job, Serial ⟨boot {} ["t"] {}, []⟩ p ∧ job ∈ p.state.db.listWorkflowJobs "w_0" ∧
    job.state = .pending ∧ p.state.pendingDeps.lookup job.jobId = some 1 ∧
      (restart {} ["t"] {} p.state.db p.state.journal).recover.2.pendingDeps.lookup job.jobId = some 2 ∧
        ¬ p.state.Continues (restart {} ["t"] {} p.state.db p.state.journal).recover.2 "w_0" := by
  have hplay : (engineSystem.plays 40 ⟨boot {} ["t"] {}, []⟩ joinHalf).map (fun p =>
      ((p.state.db.getJob "j_3").map fun job => (job.workflowId, job.state), p.state.pendingDeps.lookup "j_3",
        (restart {} ["t"] {} p.state.db p.state.journal).recover.2.pendingDeps.lookup "j_3",
        (p.state.openParents "j_3").card)) = some (some ("w_0", .pending), some 1, some 2, 1) := by
    decide +kernel
  obtain ⟨p, hrun, hview⟩ := System.exists_turns joinHalf_playable hplay
  simp only [Prod.mk.injEq] at hview
  obtain ⟨hrow, hbefore, hafter, hopen⟩ := hview
  obtain ⟨job, hget, hcols⟩ := Option.map_eq_some_iff.mp hrow
  obtain ⟨hw, hpend⟩ := Prod.mk.inj hcols
  have hid := getJob_jobId hget
  rw [← hid] at hget hbefore hafter hopen
  have hmem := mem_listWorkflowJobs.mpr ⟨hget, hw⟩
  refine ⟨p, job, hrun, hmem, hpend, hbefore, hafter, fun h => ?_⟩
  have hcount := h.pending job hmem hpend
  rw [hafter, hopen] at hcount
  cases hcount

end Runs

end JobEngine

end DistributedJobEngine
