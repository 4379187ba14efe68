import DistributedJobEngine.EnginePlaces
import DistributedJobEngine.BoardLabels

/-! Completion of workflows. When operations run one at a time, a workflow is `RUNNING` until its last node has
ended or it is cancelled by a client; the label it then gets says which, and stays. -/

namespace DistributedJobEngine

open LibPool Due

/-- The frame writes the record of a workflow. -/
def Kind.labels : Kind → Bool
  | cancelWorkflowWrite | finalizeWrite => true
  | _ => false

theorem Kind.labels_of_next (k : Kind) : ∀ k' ∈ k.next, k'.labels = true → k = .cancelWorkflow ∨ k = .finalize := by
  cases k <;> decide

namespace Frame

/-- The workflow whose record the frame has read as `RUNNING` and is to write. -/
def labels : Frame → Option WorkflowId
  | cancelWorkflowWrite wf | finalizeWrite wf _ => some wf.workflowId
  | _ => none

theorem kind_labels {f : Frame} {w : WorkflowId} (h : f.labels = some w) : f.kind.labels = true := by
  cases f <;> first | rfl | cases h

theorem labels_of_still {f : Frame} (h : f.kind.still = true) : f.labels = none := by
  cases f <;> first | rfl | cases h

theorem labels_of_call {f : Frame} (h : f.isCall = true) : f.labels = none := by
  cases f <;> first | rfl | cases h

theorem labels_of_relabel {f : Frame} {w : WorkflowId} (h : Due.relabel w ∈ f.dues) : f.labels = some w := by
  cases f with
  | cancelWorkflowWrite wf =>
      simp only [dues, Multiset.mem_singleton, Due.relabel.injEq] at h
      rw [h]
      rfl
  | onTerminal | cancelWrite | skipLoop | skipRemove | skipWrite | skipChildren =>
      cases not_sole_of_composite rfl h
  | _ => simp [dues] at h

theorem labels_of_verdict {f : Frame} {w : WorkflowId} {failed : Bool} (h : Due.verdict w failed ∈ f.dues) :
    f = .finalize w failed ∨ f.labels = some w := by
  cases f with
  | finalize v failed' =>
      simp only [dues, Multiset.mem_singleton, Due.verdict.injEq] at h
      rw [h.1, h.2]
      exact .inl rfl
  | finalizeWrite wf failed' =>
      simp only [dues, Multiset.mem_singleton, Due.verdict.injEq] at h
      rw [h.1]
      exact .inr rfl
  | onTerminal | cancelWrite | skipLoop | skipRemove | skipWrite | skipChildren =>
      cases not_sole_of_composite rfl h
  | _ => simp [dues] at h

end Frame

namespace JobEngine

variable {e e' : JobEngine} {w : WorkflowId} {c : Choice} {f : Frame} {O : Multiset Frame}

/-- A record is to be written only after it was read as `RUNNING`. -/
theorem labels_advance {c : Choice} {f g : Frame} (hg : g ∈ (e.advance c f).2) (hw : g.labels = some w) :
    e.board.record w = some .running ∧ (e.advance c f).1.db = e.db := by
  rcases Kind.labels_of_next _ _ ((advance_follows c f).next g hg) (Frame.kind_labels hw) with hk | hk
  · cases f with
    | cancelWorkflow v =>
        simp only [advance, cancelWorkflow] at hg ⊢
        cases hget : e.db.getWorkflow v with
        | none => simp [hget] at hg
        | some wf =>
            simp only [hget] at hg ⊢
            split_ifs at hg ⊢ with hrun
            · cases hg
            · rw [List.mem_singleton.mp hg] at hw
              obtain rfl := Option.some.inj hw
              have hid : wf.workflowId = v := LibTable.Table.key_of_lookup hget
              refine ⟨?_, rfl⟩
              change (e.db.getWorkflow wf.workflowId).map _ = _
              rw [hid, hget, Option.map_some, not_not.mp hrun]
    | _ => cases hk
  · cases f with
    | finalize v failed =>
        simp only [advance, finalize] at hg ⊢
        split_ifs at hg with hv
        · cases hg
        cases hget : e.db.getWorkflow v with
        | none => simp [hget] at hg
        | some wf =>
            simp only [hget] at hg
            split_ifs at hg with hrun
            · rw [List.mem_singleton.mp hg] at hw
              obtain rfl := Option.some.inj hw
              have hid : wf.workflowId = v := LibTable.Table.key_of_lookup hget
              refine ⟨?_, trivial⟩
              change (e.db.getWorkflow wf.workflowId).map _ = _
              rw [hid, hget, Option.map_some, hrun]
            · cases hg
    | _ => cases hk

/-- The labels of workflows and the accounts they rest on, with the accounts `a` of earlier processes. -/
structure Marked (a : Board.Accounts) (e : JobEngine) (F : Multiset Frame) : Prop where
  accounted : (e.board.carry a).Accounted (duesIn F)
  filed : e.board.Filed
  labels : (e.board.carry a).Labels (duesIn F)
  running : ∀ f ∈ F, ∀ w, f.labels = some w → e.board.record w = some .running

variable {a : Board.Accounts}

theorem Marked.of_relabel {f : Frame} {O : Multiset Frame} (h : e.Marked a (f ::ₘ O)) (hx : Due.relabel w ∈ f.dues) :
    e.board.record w = some .running :=
  h.running f (Multiset.mem_cons_self f O) w (Frame.labels_of_relabel hx)

theorem Marked.of_verdict {failed : Bool} (h : e.Marked a (f ::ₘ O))
    (hx : Due.verdict w failed ∈ f.dues) (hrec : (e.advance c f).1.board.record w ≠ e.board.record w) :
    e.board.record w = some .running := by
  rcases Frame.labels_of_verdict hx with rfl | hw
  · exact absurd rfl hrec
  · exact h.running f (Multiset.mem_cons_self f O) w hw

/-- The label of a workflow changes from `RUNNING` only. -/
theorem Marked.record_advance (h : e.Marked a (f ::ₘ O))
    (hs : e.Sound (f ::ₘ O)) (hrec : (e.advance c f).1.board.record w ≠ e.board.record w) :
    e.board.record w = some .running := by
  obtain ⟨d, d', x, hd, -, -, -, hmove⟩ := hs.step (c := c)
  have hmem : ∀ {y : Due}, y ∈ d → y ∈ f.dues := fun hy => hd ▸ Multiset.mem_add.mpr (.inl hy)
  exact Board.record_of_move hmove (fun v hv => h.of_relabel (hmem hv)) (fun v b hv => h.of_verdict (hmem hv)) hrec

theorem Marked.advance (h : e.Marked a (f ::ₘ O))
    (hs : e.Sound (f ::ₘ O)) (hO : ∀ g ∈ O, g.kind.still = true) :
    (e.advance c f).1.Marked a (((e.advance c f).2 : Multiset Frame) + O) := by
  obtain ⟨d, d', x, hd, -, hbefore, hafter, hmove⟩ := hs.step (c := c)
  have hmem : ∀ {y : Due}, y ∈ d → y ∈ f.dues := fun hy => hd ▸ Multiset.mem_add.mpr (.inl hy)
  have hlabels := h.labels
  have hsafe := hs.safe
  have hacc := h.accounted
  rw [hbefore] at hlabels hsafe hacc
  have hcarried := Board.carry_move hmove a
  refine ⟨?_, h.filed.move hsafe hmove, ?_, fun g hg v hv => ?_⟩
  · rw [hafter]
    exact hacc.move (hsafe.carry a) hcarried
  · rw [hafter]
    exact hlabels.move (hsafe.carry a) hacc h.filed hcarried (fun v hv => h.of_relabel (hmem hv))
      fun v b hv => h.of_verdict (hmem hv)
  · rcases Multiset.mem_add.mp hg with hg | hg
    · obtain ⟨hrun, hdb⟩ := labels_advance hg hv
      rw [← hrun]
      change ((e.advance c f).1.db.getWorkflow v).map _ = (e.db.getWorkflow v).map _
      rw [hdb]
    · rw [Frame.labels_of_still (hO g hg)] at hv
      cases hv

theorem Marked.spawn {f : Frame} {F : Multiset Frame} (h : e.Marked a F) (hcall : Call f) :
    e.Marked a (f ::ₘ F) := by
  have hdues : duesIn (f ::ₘ F) = duesIn F := by rw [duesIn_cons, Frame.dues_of_call hcall, zero_add]
  refine ⟨hdues ▸ h.accounted, h.filed, hdues ▸ h.labels, fun g hg v hv => ?_⟩
  rcases Multiset.mem_cons.mp hg with rfl | hg
  · rw [Frame.labels_of_call hcall] at hv
    cases hv
  · exact h.running g hg v hv

theorem Marked.submits {F : Multiset Frame} (h : e.Marked a F) (hs : e.Sound F) (hF : ∀ g ∈ F, g.parks = true)
    (hsub : Submits e e') : e'.Marked a F := by
  have hrunning : ∀ f ∈ F, ∀ w, f.labels = some w → e'.board.record w = some .running := fun g hg v hv => by
    rw [Frame.labels_of_still (Frame.still_of_parks (hF g hg))] at hv
    cases hv
  rcases (submits_submitted hs hsub).board with ⟨hb, -⟩ | ⟨N, v, hadm⟩
  · exact ⟨hb ▸ h.accounted, hb ▸ h.filed, hb ▸ h.labels, hrunning⟩
  · have hgraph := hs.safe.graph.carry a
    have hcarried := hadm.admits.carry a
    exact ⟨h.accounted.admits hcarried hgraph h.filed, h.filed.admits hadm.admits, h.labels.admits hgraph hcarried,
      hrunning⟩

/-- The invariant of labels when operations run one at a time. -/
structure Labelled (e : JobEngine) (F : Multiset Frame) : Prop where
  settled : e.Settled F
  marked : e.Marked .none F

theorem Labelled.labels {F : Multiset Frame} (h : e.Labelled F) : e.board.Labels (duesIn F) := by
  rw [← Board.carry_none e.board]
  exact h.marked.labels

theorem Labelled.advance (h : e.Labelled (f ::ₘ O))
    (hO : ∀ g ∈ O, g.kind.still = true) : (e.advance c f).1.Labelled (((e.advance c f).2 : Multiset Frame) + O) :=
  ⟨h.settled.advance hO, h.marked.advance h.settled.books.sound hO⟩

theorem Labelled.spawn {f : Frame} {F : Multiset Frame} (h : e.Labelled F) (hF : ∀ g ∈ F, g.parks = true)
    (hcall : Call f) : e.Labelled (f ::ₘ F) :=
  ⟨h.settled.spawn hF hcall, h.marked.spawn hcall⟩

theorem Labelled.submits {F : Multiset Frame} (h : e.Labelled F) (hF : ∀ g ∈ F, g.parks = true)
    (hsub : Submits e e') : e'.Labelled F :=
  ⟨h.settled.submits hF hsub, h.marked.submits h.settled.books.sound hF hsub⟩

/-! ### What the label says -/

/-- What a workflow's label should be: whether a client cancelled it, whether a node has not ended, and whether all
nodes succeeded. -/
def outcome (e : JobEngine) (w : WorkflowId) : WorkflowState :=
  if Receipt.cancelled w ∈ e.ledger then .cancelled
  else if ∃ job ∈ e.db.listWorkflowJobs w, job.state.isTerminal = false then .running
  else if ∀ job ∈ e.db.listWorkflowJobs w, job.state = .succeeded then .succeeded
  else .failed

theorem mem_cancelled : w ∈ e.board.cancelled ↔ Receipt.cancelled w ∈ e.ledger := by
  change w ∈ ((e.ledger.filterMap Receipt.cancelledOf : List WorkflowId) : Multiset WorkflowId) ↔ _
  rw [Multiset.mem_coe, List.mem_filterMap]
  constructor
  · rintro ⟨x, hx, hw⟩
    cases x <;> cases hw
    exact hx
  · exact fun hx => ⟨_, hx, rfl⟩

theorem mem_listWorkflowJobs {job : Job} :
    job ∈ e.db.listWorkflowJobs w ↔ e.db.getJob job.jobId = some job ∧ job.workflowId = w := by
  rw [Database.listWorkflowJobs, List.mem_insertionSort, List.mem_filter, decide_eq_true_eq, Database.getJob,
    LibTable.Table.lookup_eq_some]
  simp

theorem mem_nodes (hg : e.board.Graph) {j : JobId} :
    j ∈ e.board.nodes w ↔ ∃ job ∈ e.db.listWorkflowJobs w, job.jobId = j := by
  rw [Board.nodes, Finset.mem_filter, hg.ids, Board.workflow, board_row]
  constructor
  · rintro ⟨hsome, hw⟩
    cases hget : e.db.getJob j with
    | none => simp [hget] at hsome
    | some job =>
        have hid := getJob_jobId hget
        refine ⟨job, mem_listWorkflowJobs.mpr ⟨by rw [hid, hget], ?_⟩, hid⟩
        rw [hget] at hw
        exact hw
  · rintro ⟨job, hmem, rfl⟩
    obtain ⟨hget, hw⟩ := mem_listWorkflowJobs.mp hmem
    rw [hget]
    exact ⟨rfl, hw⟩

section Nodes

variable {job : Job} (hmem : job ∈ e.db.listWorkflowJobs w)

include hmem

theorem ended_of_node : e.board.ended job.jobId = job.state.isTerminal := by
  refine Board.ended_of_row (r := job.stub) ?_
  rw [board_row, (mem_listWorkflowJobs.mp hmem).1]
  rfl

theorem failed_of_node :
    e.board.failed job.jobId = (job.state.isTerminal && decide (job.state ≠ .succeeded)) := by
  refine Board.failed_of_row (r := job.stub) ?_
  rw [board_row, (mem_listWorkflowJobs.mp hmem).1]
  rfl

end Nodes

/-- The counter of a workflow is there for a node that has not ended. -/
theorem Marked.exists_open {F : Multiset Frame} (h : e.Marked a F) (hg : e.board.Graph) (hF : Clear F) (hw : w ≠ "")
    (hrem : e.board.remaining w ≠ none) : ∃ job ∈ e.db.listWorkflowJobs w, job.state.isTerminal = false := by
  obtain ⟨j, hj, hunit⟩ := h.accounted.exists_node (hg.carry a) hw hrem
  obtain ⟨job, hmem, rfl⟩ := (mem_nodes hg).mp hj
  refine ⟨job, hmem, ?_⟩
  have hcount := h.accounted.unit job.jobId
  rw [hF.countP (fun x hx => Due.unitOf_of_settles hx _), Multiset.count_eq_zero_of_notMem hunit,
    show (e.board.carry a).ended job.jobId = job.state.isTerminal from ended_of_node hmem,
    (Finset.mem_filter.mp hj).2, decide_eq_true hw, Bool.and_true] at hcount
  cases hend : job.state.isTerminal with
  | false => rfl
  | true =>
      rw [hend] at hcount
      cases hcount

/-- **At rest every label is the outcome.** -/
theorem Labelled.record_eq {F : Multiset Frame} {wf : WorkflowRecord} (h : e.Labelled F) (hF : AtRest F)
    (hget : e.db.getWorkflow w = some wf) : wf.state = e.outcome w := by
  have hg := h.settled.books.sound.safe.graph
  have hacc := h.settled.books.accounted
  have hlabel := h.labels w
  have hrec : e.board.record w = some wf.state := by
    change (e.db.getWorkflow w).map _ = _
    rw [hget]
    rfl
  have hcan : wf.state = .cancelled ↔ Receipt.cancelled w ∈ e.ledger := by
    have hiff := hlabel.cancelled
    rw [hrec, Option.some.injEq, or_iff_left (hF.notMem (by simp)), mem_cancelled] at hiff
    exact hiff
  have hended : ∀ {f : Bool}, e.board.Finished w f → ∀ job ∈ e.db.listWorkflowJobs w, job.state.isTerminal = true :=
    fun hfin job hmem => by
      rw [← ended_of_node hmem]
      exact hfin.ended hacc hg ((mem_nodes hg).mpr ⟨job, hmem, rfl⟩)
  have hnone : ∀ {f : Bool}, e.board.Finished w f →
      ¬ ∃ job ∈ e.db.listWorkflowJobs w, job.state.isTerminal = false := by
    rintro f hfin ⟨job, hmem, hopen⟩
    rw [hended hfin job hmem] at hopen
    cases hopen
  cases hs : wf.state with
  | running =>
      have hrem : e.board.remaining w ≠ none := by
        rcases hlabel.running (by rw [hrec, hs]) with hrem | ⟨f, hf⟩
        · exact hrem
        · exact absurd hf (hF.notMem (by simp))
      rw [outcome, if_neg (by rw [← hcan, hs]; simp),
        if_pos (h.marked.exists_open hg hF.clear (hlabel.named (by rw [hrec]; rfl)) hrem)]
  | succeeded =>
      have hfin := hlabel.succeeded (by rw [hrec, hs])
      rw [outcome, if_neg (by rw [← hcan, hs]; simp), if_neg (hnone hfin), if_pos]
      intro job hmem
      by_contra hbad
      have hfailed := hfin.failed.mpr ⟨job.jobId, (mem_nodes hg).mpr ⟨job, hmem, rfl⟩, by
        rw [failed_of_node hmem, hended hfin job hmem, decide_eq_true hbad]
        rfl⟩
      cases hfailed
  | failed =>
      have hfin := hlabel.failed (by rw [hrec, hs])
      rw [outcome, if_neg (by rw [← hcan, hs]; simp), if_neg (hnone hfin), if_neg]
      intro hall
      obtain ⟨j, hj, hfailed⟩ := hfin.failed.mp rfl
      obtain ⟨job, hmem, rfl⟩ := (mem_nodes hg).mp hj
      rw [failed_of_node hmem, hall job hmem] at hfailed
      cases hfailed
  | cancelled => rw [outcome, if_pos (hcan.mp hs)]

section Runs

variable {cfg : EngineConfig} {types : List String} {world : World} {p p' : Pool JobEngine Frame}

theorem boot_marked : (boot cfg types world).Marked .none 0 := by
  refine ⟨?_, Board.filed_empty, fun w => ?_, fun f hf => by cases hf⟩
  · rw [Board.carry_none]
    exact Board.accounted_empty
  · rw [Board.carry_none]
    refine ⟨fun h => (by cases h), fun h => (by cases h), fun b h => (by cases h), fun h => (by cases h),
      fun h => (by cases h), iff_of_false (fun h => (by cases h)) fun h => ?_⟩
    rcases h with h | h <;> cases h

theorem boot_labelled (hworld : ∀ n, world.fault n = false) : (boot cfg types world).Labelled 0 :=
  ⟨boot_settled hworld, boot_marked⟩

theorem Labelled.serial (h : p.state.Labelled p.frames) (hp : engineSystem.AtRest p) (hrun : Serial p p') :
    p'.state.Labelled p'.frames :=
  serial_invariant hrun hp
    (fun _ _ _ _ hO h => h.advance hO) (fun _ _ _ hF hsub h => h.submits hF hsub)
    (fun _ _ _ hF hcall h => h.spawn hF hcall) h

/-- The workflow has a record, whose label is `s` if that is not `RUNNING`. -/
def Keeps (e : JobEngine) (w : WorkflowId) (s : WorkflowState) : Prop :=
  ∃ s', e.board.record w = some s' ∧ (s ≠ .running → s' = s)

theorem Labelled.keeps_advance {s : WorkflowState}
    (h : e.Labelled (f ::ₘ O)) (hk : e.Keeps w s) : (e.advance c f).1.Keeps w s := by
  obtain ⟨s', hrec, hs⟩ := hk
  by_cases hsame : (e.advance c f).1.board.record w = e.board.record w
  · exact ⟨s', hsame.trans hrec, hs⟩
  · have hrun := h.marked.record_advance h.settled.books.sound hsame
    rw [hrec, Option.some.injEq] at hrun
    obtain ⟨d, d', x, -, -, -, -, hmove⟩ := h.settled.books.sound.step (c := c)
    have hsome : ((e.advance c f).1.board.record w).isSome := by
      rw [Board.isSome_record_of_move hmove, hrec]
      rfl
    obtain ⟨s'', hs''⟩ := Option.isSome_iff_exists.mp hsome
    exact ⟨s'', hs'', fun hne => absurd ((hs hne).symm.trans hrun) hne⟩

theorem Labelled.keeps_submits {s : WorkflowState} {F : Multiset Frame} (h : e.Labelled F) (hsub : Submits e e')
    (hk : e.Keeps w s) : e'.Keeps w s := by
  obtain ⟨s', hrec, hs⟩ := hk
  refine ⟨s', ?_, hs⟩
  rcases (submits_submitted h.settled.books.sound hsub).board with ⟨hb, -⟩ | ⟨N, v, hadm⟩
  · rw [hb, hrec]
  · rw [(hadm.admits.record_of_old fun hnew => ?_).1, hrec]
    obtain ⟨rfl, hne⟩ := hnew
    rw [(hadm.admits.registered hne).2.1] at hrec
    cases hrec

theorem Labelled.keeps_serial {s : WorkflowState} (h : p.state.Labelled p.frames) (hp : engineSystem.AtRest p)
    (hrun : Serial p p') (hk : p.state.Keeps w s) : p'.state.Keeps w s :=
  (serial_invariant
    (I := fun e F => e.Labelled F ∧ e.Keeps w s) hrun hp
    (fun _ _ _ _ hO h => ⟨h.1.advance hO, h.1.keeps_advance h.2⟩)
    (fun _ _ _ hF hsub h => ⟨h.1.submits hF hsub, h.1.keeps_submits hsub h.2⟩)
    (fun _ _ _ hF hcall h => ⟨h.1.spawn hF hcall, h.2⟩) ⟨h, hk⟩).2

/-- **Completion of workflows.** At every rest of a run the label of a workflow is the outcome: `RUNNING` as long as
a node has not ended, and what the nodes ended with, or `CANCELLED`, from then on. -/
theorem workflow_completion {wf : WorkflowRecord} (hworld : ∀ n, world.fault n = false)
    (hrun : Serial ⟨boot cfg types world, []⟩ p) (hnext : Serial p p') (hget : p.state.db.getWorkflow w = some wf) :
    wf.state = p.state.outcome w ∧
      ∃ wf', p'.state.db.getWorkflow w = some wf' ∧ wf'.state = p'.state.outcome w ∧
        (wf.state ≠ .running → wf'.state = wf.state) := by
  have hrest := System.Turns.atRest hrun atRest_boot
  have hrest' := System.Turns.atRest hnext hrest
  have h := (boot_labelled hworld).serial (p := ⟨boot cfg types world, []⟩) atRest_boot hrun
  have h' := h.serial hrest hnext
  have hk : p.state.Keeps w wf.state :=
    ⟨wf.state, by change (p.state.db.getWorkflow w).map _ = _; rw [hget]; rfl, fun _ => rfl⟩
  obtain ⟨s', hrec, hs⟩ := h.keeps_serial hrest hnext hk
  obtain ⟨wf', hget', rfl⟩ := Option.map_eq_some_iff.mp hrec
  exact ⟨h.record_eq ⟨fun g hg => hrest.parks hg⟩ hget, wf', hget',
    h'.record_eq ⟨fun g hg => hrest'.parks hg⟩ hget', hs⟩

/-- A chain whose first node has been started. -/
def chainStarted : List (System.Play JobEngine Frame Choice) :=
  [.env fun e => (e.submitWorkflow "w" chain.1 chain.2).2, .call (.workerPop "w") {}]

/-- The handler of the first node fails, and a client cancels the workflow too late. -/
def chainFailed : List (System.Play JobEngine Frame Choice) :=
  [.resume 0 { outcome := { ok := false } }, .call (.cancelWorkflow "w_0") {}]

theorem chainStarted_playable : ∀ a ∈ chainStarted, System.Playable Submits Call a := by
  simp only [chainStarted, List.forall_mem_cons, System.Playable, Call, Frame.isCall, true_and]
  exact ⟨fun e => .workflow _ _ _, by simp⟩

theorem chainFailed_playable : ∀ a ∈ chainFailed, System.Playable Submits Call a := by
  simp [chainFailed, System.Playable, Call, Frame.isCall]

set_option maxRecDepth 8000 in
theorem workflow_completion_failed : ∃ p p' wf wf', Serial ⟨boot {} ["t"] {}, []⟩ p ∧ Serial p p' ∧
    p.state.db.getWorkflow "w_0" = some wf ∧ p'.state.db.getWorkflow "w_0" = some wf' ∧
      wf.state = .running ∧ p.state.outcome "w_0" = .running ∧
        wf'.state = .failed ∧ p'.state.outcome "w_0" = .failed := by
  have hplay : ((engineSystem.plays 40 ⟨boot {} ["t"] {}, []⟩ chainStarted).bind fun p =>
      (engineSystem.plays 40 p chainFailed).map fun p' =>
        ((p.state.db.getWorkflow "w_0").map (·.state), (p'.state.db.getWorkflow "w_0").map (·.state))) =
      some (some .running, some .failed) := by
    decide +kernel
  obtain ⟨p, p', hrun, hnext, hview⟩ := System.exists_turns_after chainStarted_playable chainFailed_playable hplay
  obtain ⟨hwf, hwf'⟩ := Prod.mk.inj hview
  obtain ⟨wf, hget, hs⟩ := Option.map_eq_some_iff.mp hwf
  obtain ⟨hout, wf', hget', hout', -⟩ := workflow_completion (fun _ => rfl) hrun hnext hget
  rw [hget', Option.map_some, Option.some.injEq] at hwf'
  exact ⟨p, p', wf, wf', hrun, hnext, hget, hget', hs, hout ▸ hs, hwf', hout' ▸ hwf'⟩

end Runs

end JobEngine

end DistributedJobEngine
