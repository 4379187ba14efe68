import DistributedJobEngine.EngineRestart

/-! Processes one after the other over one store. A process crashes in the middle of an operation, the next one
recovers from the rows it has left and runs until it crashes itself. The accounts of a process that is gone are
carried on by the board of the next one: what they say can be read from the rows. -/

namespace DistributedJobEngine

open LibPool LibTable

/-- No job in `PENDING` has a parent that has succeeded, so that the columns tell how many parents it waits for. -/
def Database.Recountable (db : Database) : Prop :=
  ∀ j job q parent, db.getJob j = some job → job.state = .pending → (q, j) ∈ db.loadAllDependencies →
    db.getJob q = some parent → parent.state ≠ .succeeded

namespace Board

variable {b b' : Board} {j : JobId} {w : WorkflowId}

/-- The jobs of `S` that have ended. -/
def endedIn (b : Board) (S : Finset JobId) : Finset JobId := S.filter fun j => b.ended j = true

def openIn (b : Board) (S : Finset JobId) : Finset JobId := S.filter fun j => ¬ b.ended j = true

theorem card_openIn_add (b : Board) (S : Finset JobId) : (b.openIn S).card + (b.endedIn S).card = S.card := by
  rw [add_comm]
  exact Finset.card_filter_add_card_filter_not _

/-- What earlier processes must have paid, as far as the rows tell. -/
def paidBefore (b : Board) (cancelled : Multiset WorkflowId) : Accounts where
  tally := (b.endedIn b.ids).card
  slots := (b.endedIn b.ids).val
  callbacks := (b.endedIn b.ids).val
  counted := (b.endedIn b.ids).val
  units := ((b.endedIn b.ids).filter fun j => b.workflow j ≠ "").val
  cancelled := cancelled

/-- The board of a process that has just recovered: nothing is paid, and the counters are those of the rows. -/
structure Recounted (b : Board) : Prop where
  graph : b.Graph
  tally : b.tally = 0
  paid : b.slots = 0 ∧ b.callbacks = 0 ∧ b.counted = 0 ∧ b.units = 0 ∧ b.cancelled = 0
  outstanding : b.outstanding = (b.openIn b.ids).card
  remaining : ∀ w, w ≠ "" →
    b.remaining w = if b.openIn (b.nodes w) = ∅ then none else some ((b.openIn (b.nodes w)).card : Int)
  failures : ∀ w, w ≠ "" →
    b.failures w = if b.openIn (b.nodes w) = ∅ then 0 else
      (((b.nodes w).filter fun j => b.failed j = true).card : Int)

theorem count_endedIn (hg : b.Graph) (j : JobId) : (b.endedIn b.ids).val.count j = (b.ended j).toNat := by
  rw [Multiset.count_eq_of_nodup (b.endedIn b.ids).nodup]
  cases hend : b.ended j with
  | false => simp [endedIn, hend]
  | true => simp [endedIn, hend, hg.mem_ids_of_ended hend]

theorem ended_of_failed (h : b.failed j = true) : b.ended j = true := by
  cases hrow : b.row j with
  | none => simp [failed, hrow] at h
  | some r =>
      rw [failed_of_row hrow, Bool.and_eq_true] at h
      rw [ended_of_row hrow]
      exact h.1

/-- The units of a workflow that were paid are its nodes that have ended. -/
theorem countP_paidBefore (cancelled : Multiset WorkflowId) (hw : w ≠ "") (R : JobId → Prop) [DecidablePred R] :
    ((b.paidBefore cancelled).units.countP fun j => b.workflow j = w ∧ R j) =
      ((b.nodes w).filter fun j => b.ended j = true ∧ R j).card := by
  rw [paidBefore, Multiset.countP_eq_card_filter, ← Finset.filter_val, Finset.card_val]
  congr 1
  ext j
  simp only [endedIn, nodes, Finset.mem_filter]
  constructor
  · rintro ⟨⟨⟨hid, hend⟩, -⟩, hwf, hR⟩
    exact ⟨⟨hid, hwf⟩, hend, hR⟩
  · rintro ⟨⟨hid, hwf⟩, hend, hR⟩
    exact ⟨⟨⟨hid, hend⟩, hwf ▸ hw⟩, hwf, hR⟩

/-- **The accounts go on.** -/
theorem Recounted.accounted (h : b.Recounted) (cancelled : Multiset WorkflowId) :
    (b.carry (b.paidBefore cancelled)).Accounted 0 := by
  obtain ⟨hslots, hcallbacks, hcounted, hunits, -⟩ := h.paid
  have hcount := count_endedIn h.graph
  have hunits : (b.carry (b.paidBefore cancelled)).units = (b.paidBefore cancelled).units := by
    change _ + b.units = _
    rw [hunits, add_zero]
  have hused : ∀ w, w ≠ "" → (b.carry (b.paidBefore cancelled)).used w = (b.endedIn (b.nodes w)).card :=
    fun w hw => by
    have hpaid := b.countP_paidBefore cancelled hw fun _ => True
    simp only [and_true] at hpaid
    rw [used, hunits]
    exact hpaid
  have hfailed : ∀ w, w ≠ "" → (b.carry (b.paidBefore cancelled)).usedFailed w =
      ((b.nodes w).filter fun j => b.failed j = true).card := fun w hw => by
    rw [usedFailed, hunits]
    refine (b.countP_paidBefore cancelled hw fun j => b.failed j = true).trans ?_
    exact congrArg Finset.card (Finset.filter_congr fun j _ => and_iff_right_of_imp ended_of_failed)
  have hnodes : ∀ w, (b.nodes w).card = (b.endedIn (b.nodes w)).card ↔ b.openIn (b.nodes w) = ∅ := fun w => by
    have hsum := b.card_openIn_add (b.nodes w)
    rw [← Finset.card_eq_zero]
    omega
  refine ⟨fun j => ?_, fun j => ?_, fun j => ?_, fun j => ?_, ?_, ?_, fun w hw => ?_, fun w hw => ?_⟩
  · change (_ + b.slots).count j + 0 = _
    rw [hslots, add_zero, add_zero]
    exact hcount j
  · change (_ + b.callbacks).count j + 0 = _
    rw [hcallbacks, add_zero, add_zero]
    exact hcount j
  · change (_ + b.counted).count j + 0 = _
    rw [hcounted, add_zero, add_zero]
    exact hcount j
  · rw [hunits, Multiset.countP_zero, add_zero]
    change ((b.endedIn b.ids).filter fun j => b.workflow j ≠ "").val.count j =
      (b.ended j && decide (b.workflow j ≠ "")).toNat
    rw [Finset.filter_val, Multiset.count_filter, hcount j]
    by_cases hwf : b.workflow j = "" <;> simp [hwf]
  · change b.outstanding + (_ + b.slots).card = _
    rw [hslots, add_zero, h.outstanding]
    exact b.card_openIn_add b.ids
  · change _ + b.tally = (_ + b.counted).card
    rw [hcounted, add_zero, h.tally]
    rfl
  · rw [hused w hw]
    change b.remaining w = if (b.nodes w).card = _ then none else some ((b.nodes w).card - _ : Int)
    have hsum := b.card_openIn_add (b.nodes w)
    rw [h.remaining w hw]
    refine if_congr (hnodes w).symm rfl (congrArg some ?_)
    omega
  · rw [hfailed w hw]
    change b.failures w = if b.remaining w = none then 0 else _
    rw [h.failures w hw, h.remaining w hw]
    by_cases hopen : b.openIn (b.nodes w) = ∅
    · rw [if_pos hopen, if_pos (if_pos hopen)]
    · rw [if_neg hopen, if_neg (by rw [if_neg hopen]; exact Option.some_ne_none _)]

/-- `b'` has the jobs, edges and records of `b`, and the same jobs have ended with the same success. -/
structure SameEnds (b b' : Board) : Prop where
  ids : b'.ids = b.ids
  ended : b'.ended = b.ended
  failed : b'.failed = b.failed
  workflow : b'.workflow = b.workflow
  record : b'.record = b.record
  deps : b'.deps = b.deps

theorem SameEnds.nodes (h : b.SameEnds b') (w : WorkflowId) : b'.nodes w = b.nodes w := by
  rw [Board.nodes, Board.nodes, h.ids, h.workflow]

theorem SameEnds.openIn (h : b.SameEnds b') (S : Finset JobId) : b'.openIn S = b.openIn S := by
  rw [Board.openIn, Board.openIn, h.ended]

/-- What became of a workflow is seen again. -/
theorem Finished.recounted {a a' : Accounts} {D : Multiset Due} {failed : Bool} (hfin : (b.carry a).Finished w failed)
    (h : b'.Recounted) (hsame : b.SameEnds b') (hg : b.Graph) (hacc : (b.carry a).Accounted D) :
    (b'.carry a').Finished w failed := by
  refine ⟨?_, hfin.named, (h.remaining w hfin.named).trans (if_pos ?_), ?_⟩
  · change (b'.record w).isSome
    rw [hsame.record]
    exact hfin.record
  · rw [hsame.nodes, hsame.openIn, openIn, Finset.filter_eq_empty_iff]
    exact fun j hj => not_not.mpr (hfin.ended hacc (hg.carry a) hj)
  · rw [hfin.failed]
    change (∃ j ∈ b.nodes w, b.failed j = true) ↔ ∃ j ∈ b'.nodes w, b'.failed j = true
    rw [hsame.nodes, hsame.failed]

/-- **The labels go on**: those that one process has left are right for the next one. -/
theorem Recounted.labels {a : Accounts} {D : Multiset Due} (h : b'.Recounted) (hsame : b.SameEnds b') (hg : b.Graph)
    (hacc : (b.carry a).Accounted D) (hlabels : (b.carry a).Labels D)
    (hrunning : ∀ w, b.record w = some .running → b.openIn (b.nodes w) ≠ ∅) {cancelled : Multiset WorkflowId}
    (hcancelled : ∀ w, w ∈ cancelled ↔ b.record w = some .cancelled) :
    (b'.carry (b'.paidBefore cancelled)).Labels 0 := by
  intro w
  have hlabel := hlabels w
  have hrecord : (b'.carry (b'.paidBefore cancelled)).record w = (b.carry a).record w := by
    change b'.record w = b.record w
    rw [hsame.record]
  refine ⟨fun hsome => hlabel.named (hrecord ▸ hsome), fun hrun => .inl ?_, fun failed hmem => (by cases hmem),
    fun hrec => (hlabel.succeeded (hrecord.symm.trans hrec)).recounted h hsame hg hacc,
    fun hrec => (hlabel.failed (hrecord.symm.trans hrec)).recounted h hsame hg hacc, ?_⟩
  · have hrun' : b.record w = some .running := hrecord.symm.trans hrun
    have hw := hlabel.named (show (b.record w).isSome by rw [hrun']; rfl)
    change b'.remaining w ≠ none
    rw [h.remaining w hw, hsame.nodes, hsame.openIn, if_neg (hrunning w hrun')]
    exact Option.some_ne_none _
  · rw [hrecord]
    change b.record w = _ ↔ w ∈ cancelled + b'.cancelled ∨ _
    rw [h.paid.2.2.2.2, add_zero, hcancelled]
    simp

end Board

namespace JobEngine

variable {e e' : JobEngine} {F : Multiset Frame} {w v : WorkflowId}

/-! ### What recovery finds in the rows -/

section Recovery

variable {cfg : EngineConfig} {types : List String} {world : World} {db : Database} {kept : List RowWrite}

theorem lookup_countNodes_of_ne (hne : v ≠ w) (jobs : List Job)
    (acc : (AList fun _ : WorkflowId => Int) × AList fun _ : WorkflowId => Int) :
    (countNodes w jobs acc).1.lookup v = acc.1.lookup v := by
  induction jobs generalizing acc with
  | nil => rfl
  | cons job jobs ih =>
      rw [countNodes, List.foldl_cons, ← countNodes, ih]
      split_ifs
      · exact AList.lookup_insert_ne hne
      · rfl
      · rfl

theorem lookup_counters_of_notMem (nodes : WorkflowId → List Job) {ws : List WorkflowId} (hv : v ∉ ws)
    (acc : (AList fun _ : WorkflowId => Int) × AList fun _ : WorkflowId => Int) :
    (ws.foldl (fun acc w => countNodes w (nodes w) acc) acc).1.lookup v = acc.1.lookup v := by
  induction ws generalizing acc with
  | nil => rfl
  | cons w ws ih =>
      rw [List.mem_cons, not_or] at hv
      rw [List.foldl_cons, ih hv.2, lookup_countNodes_of_ne hv.1]

/-- A workflow without a node to run gets no counters. -/
theorem counters_recover_of_done (hdone : ∀ job ∈ db.listWorkflowJobs w, job.state.isTerminal = true) :
    (restart cfg types world db kept).recover.2.wfRemaining.lookup w = none ∧
      ((restart cfg types world db kept).recover.2.wfFailures.lookup w).getD 0 = 0 := by
  obtain ⟨hrem, hfail, -⟩ := @maps_recover cfg types world db kept
  have hnot : w ∉ openWorkflows db.loadNonTerminalJobs := by
    intro hmem
    rw [openWorkflows, List.mem_dedup, List.mem_filter, List.mem_map] at hmem
    obtain ⟨⟨job, hjob, hid⟩, -⟩ := hmem
    obtain ⟨hrow, hopen⟩ := mem_loadNonTerminalJobs.mp hjob
    rw [hdone job ((mem_listWorkflowJobs (e := restart cfg types world db kept)).mpr
      ⟨Table.lookup_eq_some.mpr ⟨hrow, rfl⟩, hid⟩)] at hopen
    cases hopen
  have hcount := getD_counters (v := w) db.listWorkflowJobs (openWorkflows db.loadNonTerminalJobs) (∅, ∅)
  rw [List.count_eq_zero.mpr hnot] at hcount
  rw [hrem, hfail]
  exact ⟨lookup_counters_of_notMem db.listWorkflowJobs hnot (∅, ∅), hcount.2.trans (by simp)⟩

/-- A process that starts on what another one left finds its rows and its log. -/
theorem Steady.restarted (h : e.Steady F) (cfg : EngineConfig) (types : List String) (world : World) :
    (restart cfg types world e.db e.journal).Chronicle ∧ (restart cfg types world e.db e.journal).Stored :=
  ⟨h.chronicle.restart List.prefix_rfl h.chronicle.holds, .restart h.chronicle List.prefix_rfl h.chronicle.holds⟩

variable (cfg types) in
/-- Recovery ends no job and changes no edge and no record. -/
theorem sameEnds_recover (h : e.Steady F) (hworld : ∀ n, world.fault n = false) :
    e.board.SameEnds (restart cfg types world e.db e.journal).recover.2.board := by
  obtain ⟨hstart, hstored⟩ := h.restarted cfg types world
  have hrows := getJob_recover hstart hstored hworld
  have hids : (restart cfg types world e.db e.journal).recover.2.board.ids = e.board.ids := by
    ext j
    rw [board_ids, board_ids, board_row, board_row]
    rcases hrows j with ⟨hnone, hnone'⟩ | ⟨job, row, hget, hrow, -⟩
    · rw [hnone, hnone']
    · rw [hget, hrow]
      rfl
  refine ⟨hids, funext fun j => ?_, funext fun j => ?_, funext fun j => ?_, funext fun v => ?_, ?_⟩
  · rw [Board.ended, Board.ended, board_row, board_row]
    rcases hrows j with ⟨hnone, hnone'⟩ | ⟨job, row, hget, hrow, hrec⟩
    · rw [hnone, hnone']
    · rw [hget, hrow]
      exact hrec.ended
  · rw [Board.failed, Board.failed, board_row, board_row]
    rcases hrows j with ⟨hnone, hnone'⟩ | ⟨job, row, hget, hrow, hrec⟩
    · rw [hnone, hnone']
    · rw [hget, hrow]
      change (row.state.isTerminal && decide (row.state ≠ .succeeded)) =
        (job.state.isTerminal && decide (job.state ≠ .succeeded))
      rw [hrec.ended, decide_eq_decide.mpr (not_congr (hrec.ended_as rfl))]
  · rw [Board.workflow, Board.workflow, board_row, board_row]
    rcases hrows j with ⟨hnone, hnone'⟩ | ⟨job, row, hget, hrow, hrec⟩
    · rw [hnone, hnone']
    · rw [hget, hrow]
      exact hrec.workflowId
  · change (Database.getWorkflow _ v).map _ = (Database.getWorkflow _ v).map _
    rw [Database.getWorkflow, Database.getWorkflow, workflows_recover]
  · change (Database.loadAllDependencies _).toFinset = (Database.loadAllDependencies _).toFinset
    rw [Database.loadAllDependencies, Database.loadAllDependencies, (recover_rebuilt hworld).deps]

/-- The slots that recovery counts are those of the jobs that have not ended. -/
theorem length_loadNonTerminalJobs (hg : e.board.Graph) :
    e.db.loadNonTerminalJobs.length = (e.board.openIn e.board.ids).card := by
  have hset : e.board.openIn e.board.ids = (e.db.loadNonTerminalJobs.map (·.jobId)).toFinset := by
    ext j
    rw [Board.openIn, Finset.mem_filter, List.mem_toFinset, List.mem_map, hg.ids, board_row]
    constructor
    · rintro ⟨hsome, hopen⟩
      cases hget : e.db.getJob j with
      | none => simp [hget] at hsome
      | some job =>
          obtain ⟨hmem, hid⟩ := Table.lookup_eq_some.mp hget
          rw [Board.ended_of_row (r := job.stub) (by rw [board_row, hget]; rfl), Bool.not_eq_true] at hopen
          exact ⟨job, mem_loadNonTerminalJobs.mpr ⟨hmem, hopen⟩, hid⟩
    · rintro ⟨job, hmem, rfl⟩
      obtain ⟨hrow, hopen⟩ := mem_loadNonTerminalJobs.mp hmem
      have hget : e.db.getJob job.jobId = some job := Table.lookup_eq_some.mpr ⟨hrow, rfl⟩
      rw [hget, Board.ended_of_row (r := job.stub) (by rw [board_row, hget]; rfl), Bool.not_eq_true]
      exact ⟨rfl, hopen⟩
  rw [hset, List.toFinset_card_of_nodup nodup_loadNonTerminalJobs, List.length_map]

end Recovery

/-! ### The invariant of all processes -/

/-- What holds in every process of a store, as long as each one before it could be recovered from: the invariant of
the rows, the counters of jobs in `PENDING` and their columns, and the labels, with what earlier processes have
paid. -/
structure Sustained (e : JobEngine) (F : Multiset Frame) : Prop where
  steady : e.Steady F
  counting : e.board.Counting (duesIn F)
  swept : e.board.Swept (duesIn F)
  columns : e.board.Columns
  marked : ∃ a, e.Marked a F

theorem boot_sustained {cfg : EngineConfig} {types : List String} {world : World}
    (hworld : ∀ n, world.fault n = false) : (boot cfg types world).Sustained 0 :=
  ⟨boot_steady hworld, (boot_settled hworld).counting, (boot_settled hworld).swept, fun _ _ hrow => (by cases hrow),
    _, boot_marked⟩

theorem Sustained.advance {c : Choice} {f : Frame} {O : Multiset Frame} (h : e.Sustained (f ::ₘ O))
    (hO : ∀ g ∈ O, g.kind.still = true) :
    (e.advance c f).1.Sustained (((e.advance c f).2 : Multiset Frame) + O) := by
  obtain ⟨d, d', x, -, -, hbefore, hafter, hmove⟩ := h.steady.sound.step (c := c)
  have hsafe := h.steady.sound.safe
  have hexact := h.steady.exact
  have hcounting := h.counting
  have hswept := h.swept
  rw [hbefore] at hsafe hexact hcounting hswept
  obtain ⟨a, hmarked⟩ := h.marked
  refine ⟨h.steady.advance hO, ?_, ?_, h.columns.move hsafe hexact hmove ?_, a, hmarked.advance h.steady.sound hO⟩
  · rw [hafter]
    exact hcounting.move hsafe hexact hmove
  · rw [hafter]
    exact hswept.move hsafe hexact hmove
  · change (Database.loadAllDependencies _).toFinset = (Database.loadAllDependencies _).toFinset
    rw [Database.loadAllDependencies, Database.loadAllDependencies, (advance_onward c f).dependencies]

theorem Sustained.spawn {f : Frame} (h : e.Sustained F) (hcall : Call f) : e.Sustained (f ::ₘ F) := by
  have hdues := duesIn_spawn (F := F) hcall
  exact ⟨h.steady.spawn hcall, hdues ▸ h.counting, hdues ▸ h.swept, h.columns,
    h.marked.imp fun _ hmarked => hmarked.spawn hcall⟩

theorem Sustained.submits (h : e.Sustained F) (hF : ∀ g ∈ F, g.parks = true) (hsub : Submits e e') :
    e'.Sustained F := by
  have hsound := h.steady.sound
  have hmarked : ∃ a, e'.Marked a F := h.marked.imp fun _ hmarked => hmarked.submits hsound hF hsub
  rcases (submits_submitted hsound hsub).board with ⟨hb, -⟩ | ⟨N, v, hadm⟩
  · exact ⟨h.steady.submits hF hsub, hb ▸ h.counting, hb ▸ h.swept, hb ▸ h.columns, hmarked⟩
  · refine ⟨h.steady.submits hF hsub, h.counting.admits hsound.safe.graph hadm.admits,
      h.swept.admits hsound.safe.graph hadm.admits fun c hmem => ?_, h.columns.admits hadm.admits, hmarked⟩
    obtain ⟨j, s, hx⟩ := duesIn_of_parks hF hmem
    cases hx

theorem atRest_nil (e : JobEngine) : engineSystem.AtRest ⟨e, []⟩ := fun _ ht => by cases ht

/-- The invariant holds at every point at which a process may crash. -/
theorem Sustained.amid {p : Pool JobEngine Frame} {e₀ : JobEngine} (h : e₀.Sustained 0) (hrun : Serial ⟨e₀, []⟩ p)
    (hcrash : engineSystem.Amid Call p e F) : e.Sustained F := by
  have hrest := System.Turns.atRest hrun (atRest_nil e₀)
  refine System.Amid.invariant (Q := fun g : Frame => g.kind.still = true) (I := Sustained)
    (fun _ c f => (advance_follows c f).tail) (fun _ _ _ _ hO h => h.advance hO) hcrash hrest
    (fun _ => Frame.still_of_parks) (fun _ _ _ _ hcall h => h.spawn hcall) ?_
  exact serial_invariant hrun (atRest_nil e₀)
    (fun _ _ _ _ hO h => h.advance hO)
    (fun _ _ _ hF hsub h => h.submits hF hsub) (fun _ _ _ _ hcall h => h.spawn hcall) h

theorem Sustained.unstuck (h : e.Sustained F) (hF : Clear F) : e.db.Unstuck := by
  obtain ⟨a, hmarked⟩ := h.marked
  exact hF.unstuck h.steady.sound.safe.graph h.counting h.swept hmarked

/-! ### From one process to the next -/

section Next

variable {cfg cfg' : EngineConfig} {types types' : List String} {world world' : World} {p : Pool JobEngine Frame}

theorem openIn_nodes_eq_empty_iff (hg : e.board.Graph) :
    e.board.openIn (e.board.nodes w) = ∅ ↔ ∀ job ∈ e.db.listWorkflowJobs w, job.state.isTerminal = true := by
  rw [Board.openIn, Finset.filter_eq_empty_iff]
  constructor
  · intro hall job hmem
    rw [← ended_of_node hmem]
    exact not_not.mp (hall ((mem_nodes hg).mpr ⟨job, hmem, rfl⟩))
  · intro hall j hj
    obtain ⟨job, hmem, rfl⟩ := (mem_nodes hg).mp hj
    rw [ended_of_node hmem, hall job hmem]
    simp

variable (cfg types) in
/-- Recovery counts what the rows say. -/
theorem recounted_recover (h : e.Steady F) (hworld : ∀ n, world.fault n = false) :
    (restart cfg types world e.db e.journal).recover.2.board.Recounted := by
  have hsame := sameEnds_recover cfg types h hworld
  have hg := h.sound.safe.graph
  obtain ⟨hstart, hstored⟩ := h.restarted cfg types world
  have hsteady := steady_recover hstart hstored hworld
  obtain ⟨q, log, n, rows, journal, hshape⟩ := (recover_recovered cfg types world e.db e.journal).shape
  have hledger : (restart cfg types world e.db e.journal).recover.2.ledger = [] := congrArg JobEngine.ledger hshape
  have hmetrics : (restart cfg types world e.db e.journal).recover.2.metrics = {} := congrArg JobEngine.metrics hshape
  have hopen : ∀ w, (restart cfg types world e.db e.journal).recover.2.board.openIn
      ((restart cfg types world e.db e.journal).recover.2.board.nodes w) = e.board.openIn (e.board.nodes w) :=
        fun w => by
    rw [hsame.nodes, hsame.openIn]
  have hnone : ∀ w, ¬ e.board.openIn (e.board.nodes w) = ∅ →
      ∃ job ∈ e.db.listWorkflowJobs w, job.state.isTerminal = false := fun w hne => by
    rw [openIn_nodes_eq_empty_iff hg] at hne
    push Not at hne
    simpa using hne
  refine ⟨hsteady.sound.safe.graph, ?_, ?_, ?_, fun w hw => ?_, fun w hw => ?_⟩
  · change Metrics.terminal _ = 0
    rw [hmetrics]
    rfl
  · simp only [board, receipts, hledger]
    exact ⟨rfl, rfl, rfl, rfl, rfl⟩
  · rw [hsame.ids, hsame.openIn]
    exact (outstanding_recover cfg types world e.db e.journal).trans (length_loadNonTerminalJobs hg)
  · rw [hopen]
    change AList.lookup w _ = _
    split_ifs with hdone
    · exact (counters_recover_of_done ((openIn_nodes_eq_empty_iff hg).mp hdone)).1
    · rw [(counters_recover hw (hnone w hdone)).1,
        countP_listWorkflowJobs hg (R := fun j => ¬ e.board.ended j = true)]
      · rfl
      · intro job hmem
        rw [ended_of_node hmem, Bool.not_eq_true', Bool.not_eq_true]
  · rw [hopen]
    change Option.getD (AList.lookup w (JobEngine.wfFailures _)) (0 : Int) = _
    split_ifs with hdone
    · exact (counters_recover_of_done ((openIn_nodes_eq_empty_iff hg).mp hdone)).2
    · rw [(counters_recover hw (hnone w hdone)).2, countP_listWorkflowJobs hg (R := fun j => e.board.failed j = true),
        hsame.nodes, hsame.failed]
      intro job hmem
      rw [failed_of_node hmem]

/-- The row of a job in `PENDING` was in `PENDING` before, with the same column. -/
theorem pending_of_recover (h : e.Steady F) (hworld : ∀ n, world.fault n = false) {c : JobId} {r : Stub}
    (hrow : (restart cfg types world e.db e.journal).recover.2.board.row c = some r) (hpend : r.state = .pending) :
    ∃ job, e.db.getJob c = some job ∧ job.state = .pending ∧ r.deps = job.pendingDeps := by
  obtain ⟨row, hget, rfl⟩ := Option.map_eq_some_iff.mp hrow
  obtain ⟨hstart, hstored⟩ := h.restarted cfg types world
  rcases getJob_recover hstart hstored hworld c with ⟨-, hnone⟩ | ⟨job, row', hjob, hrow', hrec⟩
  · rw [hnone] at hget
    cases hget
  · rw [hget, Option.some.injEq] at hrow'
    subst hrow'
    exact ⟨job, hjob, hrec.pending_iff.mp hpend, hrec.pendingDeps⟩

/-- The counters of the jobs in `PENDING` are right again if none of their parents has succeeded. -/
theorem Sustained.counting_recover (h : e.Sustained F) (hcount : e.db.Recountable)
    (hworld : ∀ n, world.fault n = false)
    (hwaits : (restart cfg types world e.db e.journal).recover.2.db.Unstuck) :
    (restart cfg types world e.db e.journal).recover.2.board.Counting 0 := by
  have hsame := sameEnds_recover cfg types h.steady hworld
  have hpending : ∀ {c : JobId} {r : Stub}, (restart cfg types world e.db e.journal).recover.2.board.row c = some r →
      r.state = .pending → (restart cfg types world e.db e.journal).recover.2.board.pending c =
        ((restart cfg types world e.db e.journal).recover.2.board.parents c).card := by
    intro c r hrow hpend
    obtain ⟨job, hget, hjob, -⟩ := pending_of_recover h.steady hworld hrow hpend
    have hlookup : (restart cfg types world e.db e.journal).recover.2.pendingDeps.lookup c = some job.pendingDeps :=
      pendingDeps_recover hget (by rw [hjob]; rfl)
    change Option.getD (AList.lookup c (JobEngine.pendingDeps _)) (0 : Int) = _
    rw [hlookup, Option.getD_some, Board.parents, hsame.deps]
    exact h.columns c job.stub (by rw [board_row, hget]; rfl) hjob
  refine ⟨fun c r hrow hpend => ?_, fun c r hrow hpend => .inl ?_⟩
  · rw [hpending hrow hpend]
    congr 2
    ext q
    rw [Board.mem_parents, Board.mem_openParents]
    refine (and_iff_left_of_imp fun hedge => .inl ?_).symm
    -- a parent that has succeeded had succeeded before
    rintro ⟨rq, hrq, hsucc⟩
    obtain ⟨job, hget, hjob, -⟩ := pending_of_recover h.steady hworld hrow hpend
    rw [hsame.deps] at hedge
    have hended : e.board.ended q = true := by
      rw [← hsame.ended, Board.ended_of_row hrq, hsucc]
      rfl
    have hnotfailed : e.board.failed q = false := by
      rw [← hsame.failed, Board.failed_of_row hrq, hsucc]
      rfl
    obtain ⟨parent, hparent⟩ := Option.isSome_iff_exists.mp (show (e.db.getJob q).isSome by
      by_contra hnone
      rw [Option.not_isSome_iff_eq_none] at hnone
      simp [Board.ended, board_row, hnone] at hended)
    have hq : e.board.row q = some parent.stub := by rw [board_row, hparent]; rfl
    rw [Board.ended_of_row hq] at hended
    rw [Board.failed_of_row hq, hended, Bool.true_and, decide_eq_false_iff_not, not_not] at hnotfailed
    exact hcount c job q parent hget hjob (List.mem_toFinset.mp hedge) hparent hnotfailed
  · rw [hpending hrow hpend]
    obtain ⟨row, hget, rfl⟩ := Option.map_eq_some_iff.mp hrow
    obtain ⟨q, parent, hedge, -⟩ := hwaits.waits c row hget hpend
    exact_mod_cast Finset.card_pos.mpr ⟨q, Board.mem_parents.mpr (List.mem_toFinset.mpr hedge)⟩

/-- The workflows whose record is labelled `CANCELLED`. -/
def cancelledRecords (e : JobEngine) : Multiset WorkflowId :=
  ((e.db.workflows.rows.filter fun wf => wf.state = .cancelled).map (·.workflowId) : List WorkflowId)

theorem mem_cancelledRecords : w ∈ e.cancelledRecords ↔ e.board.record w = some .cancelled := by
  change w ∈ (List.map _ _ : List WorkflowId) ↔ (e.db.getWorkflow w).map _ = _
  rw [List.mem_map, Option.map_eq_some_iff]
  refine exists_congr fun wf => ?_
  rw [List.mem_filter, decide_eq_true_eq, Database.getWorkflow, Table.lookup_eq_some]
  tauto

/-- **A process that crashes can be recovered from** if the end of no node was being worked off and the counters of
the jobs in `PENDING` can be read from the rows. -/
theorem Sustained.recover (h : e.Sustained F) (hF : Clear F) (hcount : e.db.Recountable)
    (hworld : ∀ n, world.fault n = false) : (restart cfg types world e.db e.journal).recover.2.Sustained 0 := by
  obtain ⟨hstart, hstored⟩ := h.steady.restarted cfg types world
  have hsame := sameEnds_recover cfg types h.steady hworld
  have hfresh := recounted_recover cfg types h.steady hworld
  have hunstuck := unstuck_recover hstart hstored hworld (h.unstuck hF)
  have hg := h.steady.sound.safe.graph
  obtain ⟨a, hmarked⟩ := h.marked
  have hrunning : ∀ w, e.board.record w = some .running → e.board.openIn (e.board.nodes w) ≠ ∅ := by
    intro w hrun hdone
    obtain ⟨wf, hget, hstate⟩ := Option.map_eq_some_iff.mp hrun
    obtain ⟨job, hmem, hopen⟩ := (h.unstuck hF).running w wf hget hstate
    rw [(openIn_nodes_eq_empty_iff hg).mp hdone job hmem] at hopen
    cases hopen
  refine ⟨steady_recover hstart hstored hworld, h.counting_recover hcount hworld hunstuck, ⟨?_, ?_⟩, ?_, _,
    ⟨hfresh.accounted _, ?_, hfresh.labels hsame hg hmarked.accounted hmarked.labels hrunning
      fun _ => mem_cancelledRecords, fun f hf => (by cases hf)⟩⟩
  · rintro q c r hrow hpend hedge ⟨rq, hrq, hend, hne⟩
    obtain ⟨row, hget, rfl⟩ := Option.map_eq_some_iff.mp hrow
    obtain ⟨parent, hparent, rfl⟩ := Option.map_eq_some_iff.mp hrq
    refine absurd ?_ (hunstuck.spared c row q parent hget hpend (List.mem_toFinset.mp hedge) hparent)
    change parent.state.isTerminal = true at hend
    change parent.state ≠ .succeeded at hne
    cases hs : parent.state <;> simp_all [JobState.isTerminal]
  · exact fun c r hmem => (by cases hmem)
  · intro c r hrow hpend
    obtain ⟨job, hget, hjob, hdeps⟩ := pending_of_recover h.steady hworld hrow hpend
    rw [hdeps, Board.parents, hsame.deps]
    exact h.columns c job.stub (by rw [board_row, hget]; rfl) hjob
  · intro j r hrow hw
    rw [hsame.record]
    have hwf : e.board.workflow j = r.workflowId := by rw [← hsame.workflow, Board.workflow_of_row hrow]
    cases hold : e.board.row j with
    | none =>
        rw [Board.workflow, hold] at hwf
        exact absurd hwf.symm hw
    | some r' =>
        rw [Board.workflow_of_row hold] at hwf
        exact hwf ▸ hmarked.filed j r' hold (hwf ▸ hw)

/-- The processes of one store, each with what it starts from. The first one finds no rows; each other one recovers
from the rows that the one before it left when it crashed in the middle of an operation, which was not at the work
that follows the end of a node, while the counters of jobs in `PENDING` could be read from the rows. -/
inductive Generation : JobEngine → Prop
  | first {cfg : EngineConfig} {types : List String} {world : World} (hworld : ∀ n, world.fault n = false) :
      Generation (boot cfg types world)
  | next {cfg : EngineConfig} {types : List String} {world : World} {e₀ e : JobEngine} {p : Pool JobEngine Frame}
      {F : Multiset Frame} (h : Generation e₀) (hrun : Serial ⟨e₀, []⟩ p) (hcrash : engineSystem.Amid Call p e F)
      (hclear : Clear F) (hcount : e.db.Recountable) (hworld : ∀ n, world.fault n = false) :
      Generation (restart cfg types world e.db e.journal).recover.2

theorem Generation.sustained {e₀ : JobEngine} (h : Generation e₀) : e₀.Sustained 0 := by
  induction h with
  | first hworld => exact boot_sustained hworld
  | next _ hrun hcrash hclear hcount hworld ih => exact (ih.amid hrun hcrash).recover hclear hcount hworld

/-- **Crash recovery.** A process of any generation that has run its operations one after the other stops in the
middle of one, which was not at the work that follows the end of a node. Then no workflow is stuck after it. -/
theorem recovery_leaves_unstuck {e₀ : JobEngine} (hgen : Generation e₀) (hrun : Serial ⟨e₀, []⟩ p)
    (hcrash : engineSystem.Amid Call p e F) (hclear : Clear F) (hworld : ∀ n, world.fault n = false) :
    (restart cfg types world e.db e.journal).recover.2.db.Unstuck := by
  have h := hgen.sustained.amid hrun hcrash
  have hchronicle := h.steady.chronicle
  exact unstuck_recover (hchronicle.restart List.prefix_rfl hchronicle.holds)
    (.restart hchronicle List.prefix_rfl hchronicle.holds) hworld (h.unstuck hclear)

end Next

/-! ### Two processes -/

/-- A chain has been submitted. -/
def chainSubmitted : JobEngine := ((boot {} ["t"] {}).submitWorkflow "w" chain.1 chain.2).2

/-- An embedded worker has come `n` steps far with the first node, which succeeds. -/
def chainCut (n : ℕ) (e : JobEngine) : JobEngine × List Frame :=
  engineSystem.steps (fun _ => { outcome := { ok := true } }) n (e, [.workerPop "w"])

/-- The process crashes before the row of the node is written, and the next one recovers. -/
def chainAgain : JobEngine :=
  (restart {} ["t"] {} (chainCut 6 chainSubmitted).1.db (chainCut 6 chainSubmitted).1.journal).recover.2

theorem serial_chainSubmitted : Serial ⟨boot {} ["t"] {}, []⟩ ⟨chainSubmitted, []⟩ :=
  .single (.env (.workflow _ _ _))

theorem amid_chainCut (n : ℕ) (e : JobEngine) :
    engineSystem.Amid Call ⟨e, []⟩ (chainCut n e).1 (((chainCut n e).2 : Multiset Frame) + 0) :=
  .call (show Call (.workerPop "w") from rfl) _ n

theorem clear_of_forall {fs : List Frame} (h : ∀ g ∈ fs, g.settles = false) : Clear ((fs : Multiset Frame) + 0) := by
  rw [add_zero]
  exact ⟨fun g hg => h g hg⟩

set_option maxRecDepth 8000 in
theorem generation_chainAgain : Generation chainAgain := by
  refine .next (.first fun _ => rfl) serial_chainSubmitted (amid_chainCut 6 _)
    (clear_of_forall (by decide +kernel)) ?_
    fun _ => rfl
  have hview : (chainCut 6 chainSubmitted).1.db.loadAllDependencies = [("j_1", "j_2")] ∧
      ((chainCut 6 chainSubmitted).1.db.getJob "j_1").map (·.state) = some .running := by
    decide +kernel
  intro j job q parent hget hpend hedge hparent hsucc
  rw [hview.1, List.mem_singleton, Prod.mk.injEq] at hedge
  rw [← hedge.1, hparent, Option.map_some, hsucc] at hview
  cases hview.2

set_option maxRecDepth 8000 in
/-- The second process crashes at the same point, in the second attempt of the node. -/
theorem recovery_leaves_unstuck_again : ∃ e₀ p e F, Generation e₀ ∧ Serial ⟨e₀, []⟩ p ∧
    engineSystem.Amid Call p e F ∧ Clear F ∧
      (e.db.getJob "j_1").map (fun job => (job.state, job.attempt)) = some (.running, 2) ∧
        (restart {} ["t"] {} e.db e.journal).recover.2.db.Unstuck := by
  have hclear : Clear (((chainCut 6 chainAgain).2 : Multiset Frame) + 0) := clear_of_forall (by decide +kernel)
  exact ⟨_, _, _, _, generation_chainAgain, .refl, amid_chainCut 6 chainAgain, hclear, by decide +kernel,
    recovery_leaves_unstuck generation_chainAgain .refl (amid_chainCut 6 chainAgain) hclear fun _ => rfl⟩

/-- A child in `PENDING` all of whose parents have succeeded waits for nothing. -/
theorem not_unstuck {db : Database} {j : JobId} {job : Job} (hget : db.getJob j = some job)
    (hpend : job.state = .pending)
    (hparents : ∀ q parent, (q, j) ∈ db.loadAllDependencies → db.getJob q = some parent → parent.state = .succeeded) :
    ¬ db.Unstuck := by
  intro h
  obtain ⟨q, parent, hedge, hparent, hopen⟩ := h.waits j job hget hpend
  rw [hparents q parent hedge hparent] at hopen
  cases hopen

/-- The other parent succeeds. -/
def joinRest : List (System.Play JobEngine Frame Choice) :=
  [.call (.workerPop "w") {}, .resume 0 { outcome := { ok := true } }]

theorem joinRest_playable : ∀ a ∈ joinRest, System.Playable Submits Call a := by
  simp [joinRest, System.Playable, Call, Frame.isCall]

set_option maxRecDepth 8000 in
/-- In the first process, the row of a node is written and its child is not yet released. Or the second process has
come to rest, and the first one had left a join with one parent done. Either way a child waits for nothing. -/
theorem recovery_leaves_stuck :
    (∃ p e F, Serial ⟨boot {} ["t"] {}, []⟩ p ∧ engineSystem.Amid Call p e F ∧
      ¬ (restart {} ["t"] {} e.db e.journal).recover.2.db.Unstuck) ∧
    ∃ p p' e F, Serial ⟨boot {} ["t"] {}, []⟩ p ∧
      Serial ⟨(restart {} ["t"] {} p.state.db p.state.journal).recover.2, []⟩ p' ∧ engineSystem.Amid Call p' e F ∧
      Clear F ∧ ¬ (restart {} ["t"] {} e.db e.journal).recover.2.db.Unstuck := by
  constructor
  · refine ⟨_, _, _, serial_chainSubmitted, amid_chainCut 7 _, ?_⟩
    have hview : ((restart {} ["t"] {} (chainCut 7 chainSubmitted).1.db
          (chainCut 7 chainSubmitted).1.journal).recover.2.db.getJob "j_2").map (·.state) = some .pending ∧
        (restart {} ["t"] {} (chainCut 7 chainSubmitted).1.db
          (chainCut 7 chainSubmitted).1.journal).recover.2.db.loadAllDependencies = [("j_1", "j_2")] ∧
        ((restart {} ["t"] {} (chainCut 7 chainSubmitted).1.db
          (chainCut 7 chainSubmitted).1.journal).recover.2.db.getJob "j_1").map (·.state) = some .succeeded := by
      decide +kernel
    obtain ⟨hchild, hedges, hfirst⟩ := hview
    obtain ⟨job, hjob, hpend⟩ := Option.map_eq_some_iff.mp hchild
    refine not_unstuck hjob hpend fun q parent hedge hparent => ?_
    rw [hedges, List.mem_singleton, Prod.mk.injEq] at hedge
    rw [← hedge.1, hparent, Option.map_some, Option.some.injEq] at hfirst
    exact hfirst
  · have hplay : ((engineSystem.plays 40 ⟨boot {} ["t"] {}, []⟩ joinHalf).bind fun p =>
        (engineSystem.plays 40 ⟨(restart {} ["t"] {} p.state.db p.state.journal).recover.2, []⟩ joinRest).map
          fun p' =>
          let db := (restart {} ["t"] {} p'.state.db p'.state.journal).recover.2.db
          ((db.getJob "j_3").map (·.state), db.loadAllDependencies, (db.getJob "j_1").map (·.state),
            (db.getJob "j_2").map (·.state))) =
        some (some .pending, [("j_1", "j_3"), ("j_2", "j_3")], some .succeeded, some .succeeded) := by
      decide +kernel
    obtain ⟨p, hp, hrest⟩ := Option.bind_eq_some_iff.mp hplay
    obtain ⟨p', hrun', hview⟩ := System.exists_turns joinRest_playable hrest
    simp only [Prod.mk.injEq] at hview
    obtain ⟨hchild, hedges, hfirst, hsecond⟩ := hview
    obtain ⟨job, hjob, hpend⟩ := Option.map_eq_some_iff.mp hchild
    have hrest' := System.Turns.atRest hrun' (atRest_nil _)
    refine ⟨p, p', p'.state, _, System.plays_turns joinHalf_playable hp, hrun',
      .call (show Call (.workerPop "w") from rfl) (fun _ => {}) 0, ⟨fun g hg => ?_⟩,
      not_unstuck hjob hpend fun q parent hedge hparent => ?_⟩
    · rcases Multiset.mem_add.mp hg with hg | hg
      · rw [List.mem_singleton.mp (Multiset.mem_coe.mp hg)]
        rfl
      · exact Frame.settles_of_parks (hrest'.parks hg)
    · rw [hedges] at hedge
      simp only [List.mem_cons, Prod.mk.injEq, and_true, List.not_mem_nil, or_false] at hedge
      rcases hedge with rfl | rfl
      · rw [hparent, Option.map_some, Option.some.injEq] at hfirst
        exact hfirst
      · rw [hparent, Option.map_some, Option.some.injEq] at hsecond
        exact hsecond

end JobEngine

end DistributedJobEngine
