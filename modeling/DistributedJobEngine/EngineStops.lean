import DistributedJobEngine.EngineCancels
import DistributedJobEngine.EngineVerdicts

/-! What becomes of a workflow that a client has cancelled, when operations run one at a time. No node of it begins
an attempt any more or comes to succeed, its label stays, and the counters of finished workflows do not count it. -/

namespace DistributedJobEngine

open LibPool LibTable

/-- The copies of the frame agree on the number of the attempt, and what it is to write agrees with the row. -/
def Frame.Agrees (e : JobEngine) : Frame → Prop
  | handler job info | finish job info _ _ => job.attempt = info.attempt
  | completeRead msg info _ => ∀ row, e.db.getJob msg.jobId = some row → row.attempt = info.attempt
  | finishRecord job _ _ | finishRetry job _ | finishTerminal job _ =>
      ∀ row, e.db.getJob job.jobId = some row → row.attempt = job.attempt
  | _ => True

theorem Frame.Agrees.of_still {e e' : JobEngine} {f : Frame} (h : f.kind.still = true) (hf : f.Agrees e) :
    f.Agrees e' := by
  cases f <;> first | exact hf | cases h

namespace JobEngine

variable {e e' : JobEngine} {j : JobId} {w : WorkflowId} {c : Choice} {f : Frame} {O : Multiset Frame}

/-! ### The number of the attempt -/

theorem Settled.attempt_of_lease {F : Multiset Frame} {info : RunningInfo} {row : Job} (h : e.Settled F)
    (hlookup : e.running.lookup j = some info) (hrow : e.db.getJob j = some row) : row.attempt = info.attempt := by
  have hstub : e.board.row j = some row.stub := by
    rw [board_row, hrow]
    rfl
  exact (h.manned.lease j info.leaseToken info.attempt row.stub (by simp [board, hlookup]) hstub).2

/-- The copy in a window other than that of `finish_attempt` is the row as it is. -/
theorem Settled.stub_of_window {F : Multiset Frame} {f : Frame} {row : Job} (h : e.Settled F)
    (k : Window) (job : Job) (hf : f ∈ F) (hmem : Due.window k job.jobId job.stub ∈ f.dues) (hk : k ≠ .finish)
    (hrow : e.db.getJob job.jobId = some row) : row.stub = job.stub := by
  have hstub := h.exact k job.jobId job.stub (mem_duesIn.mpr ⟨f, hf, hmem⟩) hk
  rw [board_row, hrow] at hstub
  exact Option.some.inj hstub

theorem Settled.attempt_of_window {F : Multiset Frame} {f : Frame} {row : Job} (h : e.Settled F)
    (k : Window) (job : Job) (hf : f ∈ F) (hmem : Due.window k job.jobId job.stub ∈ f.dues) (hk : k ≠ .finish)
    (hrow : e.db.getJob job.jobId = some row) : row.attempt = job.attempt :=
  congrArg Stub.attempt (h.stub_of_window k job hf hmem hk hrow)

theorem startWrite_agrees {job row : Job} {info : RunningInfo} {owner : String} {eligibleAt : Int} {remote : Bool}
    (hg : Frame.handler row info ∈ (e.startWrite job owner eligibleAt remote).2) : row.attempt = info.attempt := by
  unfold startWrite at hg
  split_ifs at hg
  · simp [Frame.tail] at hg
  · dsimp only at hg
    cases hupd : e.updateJob (e.startedRow job owner eligibleAt remote) with
    | mk ok e₁ =>
        rw [hupd] at hg
        cases ok with
        | false => simp [startFailed] at hg
        | true =>
            simp only [startRunning] at hg
            split_ifs at hg
            · cases hg
            · cases List.mem_singleton.mp hg
              rfl

/-- What `complete` goes on with is the lease it found. -/
theorem complete_left {msg msg' : Completion} {info : RunningInfo} {call : ℕ}
    (hg : Frame.completeRead msg' info call ∈ (e.complete msg).2) :
    msg' = msg ∧ e.running.lookup msg.jobId = some info := by
  unfold complete at hg
  dsimp only at hg
  (repeat' split at hg)
  case h_2.isFalse held hlookup _ =>
    cases List.mem_singleton.mp hg
    exact ⟨rfl, hlookup⟩
  all_goals cases List.mem_singleton.mp hg

theorem completeRead_left {msg : Completion} {info info' : RunningInfo} {call : ℕ} {job : Job} {outcome : Outcome}
    {call' : Option ℕ} (hg : Frame.finish job info' outcome call' ∈ (e.completeRead msg info call).2) :
    info' = info ∧ e.db.getJob msg.jobId = some job := by
  unfold completeRead at hg
  split at hg
  · cases List.mem_singleton.mp hg
  · next row hget =>
      simp only [List.mem_cons, List.not_mem_nil, or_false, reduceCtorEq, Frame.finish.injEq] at hg
      exact ⟨hg.2.1, by rw [hget, hg.1]⟩

theorem handler_left {outcome outcome' : Outcome} {job job' : Job} {info info' : RunningInfo} {call : Option ℕ}
    (hg : Frame.finish job' info' outcome' call ∈ e.handler outcome job info) : job' = job ∧ info' = info := by
  unfold handler at hg
  split_ifs at hg <;> cases List.mem_singleton.mp hg <;> exact ⟨rfl, rfl⟩

theorem getJob_finish {job : Job} {info : RunningInfo} {outcome : Outcome} {call : Option ℕ} :
    (e.finish job info outcome call).1.db = e.db := by
  unfold finish
  (repeat' split) <;> rfl

theorem getJob_finishRecord {job : Job} {info : RunningInfo} {outcome : Outcome} :
    (e.finishRecord job info outcome).1.db.getJob j = e.db.getJob j := by
  unfold finishRecord
  dsimp only
  split_ifs <;> rfl

/-- The frames that a step leaves agree on the number of the attempt. -/
theorem Settled.agrees_new {c : Choice} {f g : Frame} {O : Multiset Frame} (h : e.Settled (f ::ₘ O))
    (hcells : e.Celled (f ::ₘ O)) (hd : e.Distinct) (hf : f.Agrees e) (hg : g ∈ (e.advance c f).2) :
    g.Agrees (e.advance c f).1 := by
  have hnext := (advance_follows (e := e) c f).next g hg
  cases g with
  | handler job info =>
      cases f with
      | startWrite job' owner eligibleAt remote => exact startWrite_agrees hg
      | _ => simp [Frame.kind, Kind.next, Kind.ending] at hnext
  | completeRead msg info call =>
      cases f with
      | complete msg' =>
          obtain ⟨rfl, hlookup⟩ := complete_left hg
          intro row hrow
          refine h.attempt_of_lease hlookup ?_
          rw [← hrow]
          simp only [JobEngine.advance, complete, hlookup]
          split_ifs <;> rfl
      | _ => simp [Frame.kind, Kind.next, Kind.ending] at hnext
  | finish job info outcome call =>
      cases f with
      | completeRead msg info' call' =>
          obtain ⟨rfl, hget⟩ := completeRead_left hg
          exact hf job hget
      | handler job' info' =>
          obtain ⟨rfl, rfl⟩ := handler_left hg
          exact hf
      | _ => simp [Frame.kind, Kind.next, Kind.ending] at hnext
  | finishRecord job info outcome =>
      cases f with
      | finish job' info' outcome' call =>
          obtain ⟨hsame, -, held, hlookup, htoken⟩ := finish_fenced hg
          cases hsame
          have htag : held.tag job.jobId = info.tag job.jobId :=
            hcells.token hd _ _ (.inl (holds_tag hlookup)) (.inr ⟨_, Multiset.mem_cons_self _ O, rfl⟩) htoken
          intro row hrow
          rw [show (e.advance c (.finish job info outcome call)).1.db = e.db from getJob_finish] at hrow
          rw [h.attempt_of_lease hlookup hrow, show job.attempt = info.attempt from hf]
          exact congrArg Tag.attempt htag
      | _ => simp [Frame.kind, Kind.next, Kind.ending] at hnext
  | finishRetry row token | finishTerminal row token =>
      cases f with
      | finishRecord job info outcome =>
          obtain ⟨row', hid, -, hattempt, -, hleft⟩ := finishRecord_left hg
          intro cur hcur
          rcases hleft with ⟨hleft, -⟩ | ⟨hleft, -⟩ <;> cases hleft
          rw [hattempt]
          rw [hid] at hcur
          exact hf cur (getJob_finishRecord ▸ hcur)
      | _ => simp [Frame.kind, Kind.next, Kind.ending] at hnext
  | _ => trivial

/-- All frames agree on the numbers of the attempts. -/
def Agreed (e : JobEngine) (F : Multiset Frame) : Prop := ∀ f ∈ F, f.Agrees e

theorem Agreed.advance (h : e.Agreed (f ::ₘ O))
    (hsettled : e.Settled (f ::ₘ O)) (hcells : e.Celled (f ::ₘ O)) (hd : e.Distinct)
    (hO : ∀ g ∈ O, g.kind.still = true) : (e.advance c f).1.Agreed (((e.advance c f).2 : Multiset Frame) + O) := by
  intro g hg
  rcases Multiset.mem_add.mp hg with hg | hg
  · exact hsettled.agrees_new hcells hd (h f (Multiset.mem_cons_self f O)) hg
  · exact (h g (Multiset.mem_cons_of_mem hg)).of_still (hO g hg)

theorem Agreed.spawn {f : Frame} {F : Multiset Frame} (h : e.Agreed F) (hcall : Call f) :
    e.Agreed (f ::ₘ F) := by
  intro g hg
  rcases Multiset.mem_cons.mp hg with rfl | hg
  · cases g <;> trivial
  · exact h g hg

theorem Agreed.submits {F : Multiset Frame} (h : e.Agreed F) (hF : ∀ g ∈ F, g.parks = true) :
    e'.Agreed F :=
  fun g hg => (h g hg).of_still (Frame.still_of_parks (hF g hg))

/-! ### Jobs that are to be cancelled -/

/-- A job on its way to the end has the attempt it had: a row that is written has the number of the row before. -/
theorem Settled.attempt_advance {old row : Job}
    (hsettled : e.Settled (f ::ₘ O)) (hobeys : f.Obeys e j) (hf : f.Agrees e)
    (hold : e.db.getJob j = some old) (hrow : (e.advance c f).1.db.getJob j = some row) :
    row.attempt = old.attempt := by
  have hmem := Multiset.mem_cons_self f O
  rcases getJob_advance hrow with hsame | ⟨new, hnew, rfl, rfl, -⟩
  · rw [hold] at hsame
    cases hsame
    rfl
  cases hnew with
  | flag job =>
      exact (hsettled.attempt_of_window .cancel job hmem (Multiset.mem_singleton_self _) (by simp) hold).symm
  | cancel job =>
      exact (hsettled.attempt_of_window .cancel job hmem
        (Multiset.mem_add.mpr (.inl (Multiset.mem_singleton_self _))) (by simp) hold).symm
  | drop job owner eligibleAt remote _ =>
      exact (hsettled.attempt_of_window .start job hmem (by simp [Frame.dues]) (by simp) hold).symm
  | start job owner eligibleAt remote hflag =>
      rw [hobeys rfl] at hflag
      cases hflag
  | retry token | finish token => exact (hf old hold).symm
  | expire now job =>
      have hid := (expiredRow_spec now job).1
      rw [hid] at hold
      rw [hsettled.attempt_of_window .expire job hmem (Multiset.mem_singleton_self _) (by simp) hold]
      unfold expiredRow
      dsimp only
      split_ifs <;> rfl
  | release job => exact absurd rfl hobeys
  | skip w job =>
      exact (hsettled.attempt_of_window .skip job hmem
        (Multiset.mem_add.mpr (.inl (Multiset.mem_cons_self _ _))) (by simp) hold).symm

/-- A job on its way to the end does not come to succeed. -/
theorem Doomed.succeeded_advance {row : Job}
    (h : e.Doomed (f ::ₘ O) j) (hsound : e.Sound (f ::ₘ O)) (hrow : (e.advance c f).1.db.getJob j = some row)
    (hs : row.state = .succeeded) : e.db.getJob j = some row := by
  have hmem := Multiset.mem_cons_self f O
  have hobeys := h.obeys f hmem
  have hproper := hsound.proper f hmem
  rcases getJob_advance hrow with hsame | ⟨new, hnew, rfl, rfl, -⟩
  · exact hsame
  exfalso
  rw [Job.persisted_state] at hs
  cases hnew with
  | flag job =>
      rw [show job.state = .running from hproper] at hs
      cases hs
  | cancel job | drop job | skip w job => cases hs
  | start job owner eligibleAt remote hflag =>
      rw [hobeys rfl] at hflag
      cases hflag
  | retry token =>
      rw [show new.state = .retrying from hproper] at hs
      cases hs
  | finish token => exact hobeys rfl hs
  | expire now job =>
      unfold expiredRow at hs
      dsimp only at hs
      split_ifs at hs
  | release job => exact absurd rfl hobeys

/-- Since the state `e₀` no attempt of the job has begun, and it has not come to succeed. -/
structure Quiet (e₀ e : JobEngine) (j : JobId) : Prop where
  lease : ∀ x, e.Holds x → x.job = j → e₀.Holds x
  row : ∀ row, e.db.getJob j = some row →
    ∃ old, e₀.db.getJob j = some old ∧ row.attempt = old.attempt ∧ (row.state = .succeeded → old.state = .succeeded)

theorem Quiet.refl (e : JobEngine) (j : JobId) : Quiet e e j :=
  ⟨fun _ hx _ => hx, fun row hrow => ⟨row, hrow, rfl, id⟩⟩

theorem Quiet.advance {e₀ : JobEngine} (h : Quiet e₀ e j)
    (hdoomed : e.Doomed (f ::ₘ O) j) (hsettled : e.Settled (f ::ₘ O)) (hf : f.Agrees e) :
    Quiet e₀ (e.advance c f).1 j := by
  refine ⟨fun x hx hj => h.lease x (hdoomed.holds_advance hx hj) hj, fun row hrow => ?_⟩
  obtain ⟨cur, hcur, -⟩ := hdoomed.row
  obtain ⟨old, hold, hattempt, hsucc⟩ := h.row cur hcur
  refine ⟨old, hold,
    (hsettled.attempt_advance (hdoomed.obeys f (Multiset.mem_cons_self f O)) hf hcur hrow).trans hattempt,
      fun hs => hsucc ?_⟩
  have hsame := hdoomed.succeeded_advance hsettled.books.sound hrow hs
  rw [hcur, Option.some.injEq] at hsame
  rw [hsame, hs]

theorem Quiet.submits {e₀ : JobEngine} {F : Multiset Frame} (h : Quiet e₀ e j) (hdoomed : e.Doomed F j)
    (hsub : Submits e e') : Quiet e₀ e' j := by
  refine ⟨fun x hx hj => h.lease x (holds_of_running (congrArg Desk.running (Submits.desk hsub)) hx) hj,
    fun row hrow => ?_⟩
  obtain ⟨cur, hcur, -⟩ := hdoomed.row
  rw [Submits.getJob hsub hcur, Option.some.injEq] at hrow
  exact h.row row (hrow ▸ hcur)

/-! ### The invariant of a run -/

theorem Distinct.of_advance {c : Choice} {f : Frame} (h : (e.advance c f).1.Distinct) : e.Distinct := by
  obtain ⟨l, htransfers⟩ := advance_transfers (e := e) c f
  exact h.of_append htransfers.ledger

theorem Distinct.of_submits (h : e'.Distinct) (hsub : Submits e e') : e.Distinct := by
  have hledger : e'.ledger = e.ledger := congrArg Desk.ledger (Submits.desk hsub)
  rwa [Distinct, hledger] at h

/-- What operations that run one at a time keep of labels, leases and counters. -/
structure Overseen (e : JobEngine) (F : Multiset Frame) : Prop where
  labelled : e.Labelled F
  celled : e.Celled F
  faithful : ∀ f ∈ F, e.Faithful f
  agreed : e.Distinct → e.Agreed F
  scored : e.registry.Scored

theorem Overseen.advance (h : e.Overseen (f ::ₘ O))
    (hO : ∀ g ∈ O, g.kind.still = true) : (e.advance c f).1.Overseen (((e.advance c f).2 : Multiset Frame) + O) where
  labelled := h.labelled.advance hO
  celled := h.celled.advance
  faithful := faithful_advance h.faithful
  agreed hd := (h.agreed hd.of_advance).advance h.labelled.settled h.celled hd.of_advance hO
  scored := scored_advance h.scored h.labelled

theorem Overseen.spawn {f : Frame} {F : Multiset Frame} (h : e.Overseen F) (hF : ∀ g ∈ F, g.parks = true)
    (hcall : Call f) : e.Overseen (f ::ₘ F) where
  labelled := h.labelled.spawn hF hcall
  celled := h.celled.spawn hcall
  faithful := faithful_spawn hcall h.faithful
  agreed hd := (h.agreed hd).spawn hcall
  scored := h.scored

theorem Overseen.submits {F : Multiset Frame} (h : e.Overseen F) (hF : ∀ g ∈ F, g.parks = true)
    (hsub : Submits e e') : e'.Overseen F where
  labelled := h.labelled.submits hF hsub
  celled := h.celled.submits hsub
  faithful := faithful_submits hsub h.faithful
  agreed hd := (h.agreed (hd.of_submits hsub)).submits hF
  scored := scored_submits h.scored hsub

/-! ### The nodes of a cancelled workflow -/

theorem Labelled.nodes_advance (h : e.Labelled (f ::ₘ O)) :
    (e.advance c f).1.board.nodes w = e.board.nodes w := by
  obtain ⟨d, d', x, -, -, hbefore, -, hmove⟩ := h.settled.books.sound.step (c := c)
  have hsafe := h.settled.books.sound.safe
  rw [hbefore] at hsafe
  exact hsafe.nodes_of_move hmove

/-- A workflow that has a record gets no further nodes. -/
theorem Labelled.nodes_submits {F : Multiset Frame} {s : WorkflowState} (h : e.Labelled F) (hsub : Submits e e')
    (hrec : e.board.record w = some s) : e'.board.nodes w = e.board.nodes w := by
  rcases (submits_submitted h.settled.books.sound hsub).board with ⟨hb, -⟩ | ⟨N, v, hadm⟩
  · rw [hb]
  · have hne : w ≠ v := by
      rintro rfl
      rw [(hadm.admits.registered ((h.labels w).named (by rw [hrec]; rfl))).2.1] at hrec
      cases hrec
    rw [hadm.admits.nodes_eq h.settled.books.sound.safe.graph, if_neg hne, Finset.union_empty]

/-- No workflow is submitted as `CANCELLED`. -/
theorem Labelled.cancelled_submits {F : Multiset Frame} (h : e.Labelled F) (hsub : Submits e e')
    (hrec : e'.board.record w = some .cancelled) : e.board.record w = some .cancelled := by
  rcases (submits_submitted h.settled.books.sound hsub).board with ⟨hb, -⟩ | ⟨N, v, hadm⟩
  · rwa [hb] at hrec
  · by_cases hnew : w = v ∧ v ≠ ""
    · rw [(hadm.admits.registered hnew.2).2.2.2.2, hnew.1, Function.update_self] at hrec
      cases hrec
    · rwa [(hadm.admits.record_of_old hnew).1] at hrec

/-- A workflow becomes `CANCELLED` in the step before its nodes are listed. -/
theorem cancelling_of_record {c : Choice} {f : Frame} (hr : e.Reliable) (hrec : e.board.record w ≠ some .cancelled)
    (hnew : (e.advance c f).1.board.record w = some .cancelled) :
    Frame.cancelWorkflowNodes w ∈ (e.advance c f).2 := by
  have hget : ∀ {e : JobEngine}, e.board.record w = (e.registry.workflows.lookup w).map (·.state) := rfl
  have hwrite : ∀ wf, wf.workflowId ≠ w ∨ wf.state ≠ .cancelled →
      ((e.db.updateWorkflow wf).getWorkflow w).map (·.state) ≠ some .cancelled := by
    intro wf hwf
    have hupd : ((e.db.updateWorkflow wf).getWorkflow w).map (·.state) = Function.update e.board.record wf.workflowId
        ((e.board.record wf.workflowId).map fun _ => wf.state) w :=
      congrFun (congrArg Board.record (board_updateWorkflow (e := e) wf)) w
    rw [hupd]
    by_cases hid : w = wf.workflowId
    · rw [hid, Function.update_self]
      cases e.board.record wf.workflowId with
      | none => simp
      | some s => simpa using hwf.resolve_left (not_not.mpr hid.symm)
    · rwa [Function.update_of_ne hid]
  cases f with
  | cancelWorkflowWrite wf =>
      simp only [JobEngine.advance, cancelWorkflowWrite, hr e.world.pos] at hnew ⊢
      by_cases hid : wf.workflowId = w
      · rw [← hid]
        exact List.mem_singleton.mpr rfl
      · exact absurd hnew (hwrite wf (.inl hid))
  | finalizeWrite wf failed =>
      simp only [JobEngine.advance, finalizeWrite, hr e.world.pos] at hnew
      refine absurd hnew (hwrite { wf with state := if failed then .failed else .succeeded, finishedAtMs := e.wallMs }
        (.inr ?_))
      cases failed <;> simp
  | _ =>
      rw [hget, registry_advance c rfl, ← hget] at hnew
      exact absurd hnew hrec

/-- Every node of a workflow that is `CANCELLED` is being cancelled, or the nodes are about to be listed. -/
def Stopped (e : JobEngine) (F : Multiset Frame) (w : WorkflowId) : Prop :=
  e.board.record w = some .cancelled → ∀ j ∈ e.board.nodes w, e.Ending F j ∨ Frame.cancelWorkflowNodes w ∈ F

/-- The list of nodes to cancel has all that have not ended. -/
theorem cancelWorkflowNodes_ending {O : Multiset Frame} (hsound : e.Sound (e.cancelWorkflowNodes w + O))
    (hO : ∀ g ∈ O, g.kind.still = true) (hj : j ∈ e.board.nodes w) : e.Ending (e.cancelWorkflowNodes w + O) j := by
  obtain ⟨job, hmem, rfl⟩ := (mem_nodes hsound.safe.graph).mp hj
  have hget := (mem_listWorkflowJobs.mp hmem).1
  refine ⟨⟨job, hget⟩, ?_⟩
  cases hend : job.state.isTerminal with
  | true =>
      refine .inl (.of_terminal hsound hget hend (obeys_add (fun g hg => ?_) hO))
      simp only [cancelWorkflowNodes, List.mem_append, List.mem_map, List.mem_singleton] at hg
      rcases hg with ⟨job', -, rfl⟩ | rfl <;> trivial
  | false =>
      refine .inr ⟨.cancel job.jobId, Multiset.mem_add.mpr (.inl ?_), rfl⟩
      refine List.mem_append_left _ (List.mem_map.mpr ⟨job, List.mem_filter.mpr ⟨hmem, ?_⟩, rfl⟩)
      rw [hend]
      rfl

theorem Stopped.advance (h : e.Stopped (f ::ₘ O) w)
    (hover : e.Overseen (f ::ₘ O)) (hd : e.Distinct) (hO : ∀ g ∈ O, g.kind.still = true) :
    (e.advance c f).1.Stopped (((e.advance c f).2 : Multiset Frame) + O) w := by
  intro hrec j hj
  rw [hover.labelled.nodes_advance] at hj
  by_cases hold : e.board.record w = some .cancelled
  · left
    rcases h hold j hj with hending | hnodes
    · exact hending.advance hover.labelled.settled hover.celled hd hO
    · rcases Multiset.mem_cons.mp hnodes with rfl | hnodes
      · exact cancelWorkflowNodes_ending (hover.labelled.settled.advance (c := c) hO).books.sound hO hj
      · have hstill := hO _ hnodes
        cases hstill
  · exact .inr
      (Multiset.mem_add.mpr (.inl (cancelling_of_record hover.labelled.settled.books.sound.reliable hold hrec)))

theorem Stopped.spawn {f : Frame} {F : Multiset Frame} (h : e.Stopped F w) (hF : ∀ g ∈ F, g.parks = true)
    (hcall : Call f) : e.Stopped (f ::ₘ F) w := by
  intro hrec j hj
  rcases h hrec j hj with hending | hnodes
  · have hdoomed := hending.doomed hF
    exact .inl ⟨hending.1, .inl (hdoomed.spawn hcall)⟩
  · exact .inr (Multiset.mem_cons_of_mem hnodes)

theorem Stopped.submits {F : Multiset Frame} (h : e.Stopped F w) (hover : e.Overseen F)
    (hF : ∀ g ∈ F, g.parks = true) (hsub : Submits e e') : e'.Stopped F w := by
  intro hrec j hj
  have hold := hover.labelled.cancelled_submits hsub hrec
  rw [hover.labelled.nodes_submits hsub hold] at hj
  rcases h hold j hj with hending | hnodes
  · obtain ⟨row, hrow⟩ := hending.1
    exact .inl ⟨⟨row, Submits.getJob hsub hrow⟩, .inl ((hending.doomed hF).submits hF hsub)⟩
  · exact .inr hnodes

/-! ### Runs -/

section Runs

variable {cfg : EngineConfig} {types : List String} {world : World} {p p' : Pool JobEngine Frame}

theorem boot_overseen (hworld : ∀ n, world.fault n = false) : (boot cfg types world).Overseen 0 where
  labelled := boot_labelled hworld
  celled := boot_celled
  faithful f hf := by cases hf
  agreed _ f hf := by cases hf
  scored := ⟨rfl, rfl⟩

theorem Overseen.serial (h : p.state.Overseen p.frames) (hp : engineSystem.AtRest p) (hrun : Serial p p') :
    p'.state.Overseen p'.frames :=
  serial_invariant hrun hp
    (fun _ _ _ _ hO h => h.advance hO) (fun _ _ _ hF hsub h => h.submits hF hsub)
    (fun _ _ _ hF hcall h => h.spawn hF hcall) h

/-- Between turns, the nodes of a workflow that is `CANCELLED` are to be cancelled or have ended. -/
theorem doomed_of_cancelled (hworld : ∀ n, world.fault n = false) (hrun : Serial ⟨boot cfg types world, []⟩ p)
    (hd : p.state.Distinct) (hrec : p.state.board.record w = some .cancelled) (hj : j ∈ p.state.board.nodes w) :
    p.state.Doomed p.frames j := by
  have hstop := serial_invariant
    (I := fun e F => e.Overseen F ∧ (e.Distinct → e.Stopped F w)) hrun atRest_boot
    (fun _ _ _ _ hO h => ⟨h.1.advance hO, fun hd => (h.2 hd.of_advance).advance h.1 hd.of_advance hO⟩)
    (fun _ _ _ hF hsub h => ⟨h.1.submits hF hsub, fun hd => (h.2 (hd.of_submits hsub)).submits h.1 hF hsub⟩)
    (fun _ _ _ hF hcall h => ⟨h.1.spawn hF hcall, fun hd => (h.2 hd).spawn hF hcall⟩)
    ⟨boot_overseen hworld, fun _ hrec => by cases hrec⟩
  have hrest : ∀ g ∈ p.frames, g.parks = true := fun g hg => (System.Turns.atRest hrun atRest_boot).parks hg
  rcases hstop.2 hd hrec j hj with hending | hnodes
  · exact hending.doomed hrest
  · have hparks := hrest _ hnodes
    cases hparks

/-- What a run leaves of a job that is to be cancelled. -/
theorem Doomed.serial (h : p.state.Doomed p.frames j) (hover : p.state.Overseen p.frames)
    (hp : engineSystem.AtRest p) (hrun : Serial p p') (hd : p'.state.Distinct) :
    p'.state.Doomed p'.frames j ∧ Quiet p.state p'.state j :=
  (serial_invariant
    (I := fun e F => e.Overseen F ∧ (e.Distinct → e.Doomed F j ∧ Quiet p.state e j)) hrun hp
    (fun _ _ f O hO h => ⟨h.1.advance hO, fun hd => by
      obtain ⟨hdoomed, hquiet⟩ := h.2 hd.of_advance
      exact ⟨hdoomed.advance h.1.labelled.settled.books.sound h.1.celled hd.of_advance hO,
        hquiet.advance hdoomed h.1.labelled.settled (h.1.agreed hd.of_advance f (Multiset.mem_cons_self f O))⟩⟩)
    (fun _ _ _ hF hsub h => ⟨h.1.submits hF hsub, fun hd => by
      obtain ⟨hdoomed, hquiet⟩ := h.2 (hd.of_submits hsub)
      exact ⟨hdoomed.submits hF hsub, hquiet.submits hdoomed hsub⟩⟩)
    (fun _ _ _ hF hcall h => ⟨h.1.spawn hF hcall, fun hd => ⟨(h.2 hd).1.spawn hcall, (h.2 hd).2⟩⟩)
    ⟨hover, fun _ => ⟨h, .refl _ _⟩⟩).2 hd

theorem Distinct.of_serial (h : p'.state.Distinct) (hp : engineSystem.AtRest p) (hrun : Serial p p') :
    p.state.Distinct :=
  serial_invariant (I := fun (e : JobEngine) _ => e.Distinct → p.state.Distinct)
    hrun hp
    (fun _ _ _ _ _ h hd => h hd.of_advance) (fun _ _ _ _ hsub h hd => h (hd.of_submits hsub))
    (fun _ _ _ _ _ h => h) id h

/-- A workflow keeps its nodes. -/
theorem Labelled.nodes_serial {s : WorkflowState} (h : p.state.Labelled p.frames) (hp : engineSystem.AtRest p)
    (hrun : Serial p p') (hk : p.state.Keeps w s) : p'.state.board.nodes w = p.state.board.nodes w :=
  (serial_invariant
    (I := fun (e : JobEngine) F => (e.Labelled F ∧ e.Keeps w s) ∧ e.board.nodes w = p.state.board.nodes w) hrun hp
    (fun _ _ _ _ hO h => ⟨⟨h.1.1.advance hO, h.1.1.keeps_advance h.1.2⟩, h.1.1.nodes_advance.trans h.2⟩)
    (fun _ _ _ hF hsub h => ⟨⟨h.1.1.submits hF hsub, h.1.1.keeps_submits hsub h.1.2⟩, by
      obtain ⟨s', hrec, -⟩ := h.1.2
      exact (h.1.1.nodes_submits hsub hrec).trans h.2⟩)
    (fun _ _ _ hF hcall h => ⟨⟨h.1.1.spawn hF hcall, h.1.2⟩, h.2⟩) ⟨⟨h, hk⟩, rfl⟩).2

/-- The number of workflows other than `w` whose record says `s`. -/
def othersLabelled (e : JobEngine) (w : WorkflowId) (s : WorkflowState) : ℕ :=
  e.db.workflows.rows.countP fun wf => wf.state = s ∧ wf.workflowId ≠ w

theorem labelled_eq_others {s s' : WorkflowState} (hrec : e.board.record w = some s') (hs : s' ≠ s) :
    e.registry.labelled s = e.othersLabelled w s := by
  refine List.countP_congr fun wf hwf => ?_
  simp only [decide_eq_true_eq]
  refine ⟨fun h => ⟨h, ?_⟩, And.left⟩
  rintro rfl
  have hget : e.db.getWorkflow wf.workflowId = some wf := Table.lookup_eq_some.mpr ⟨hwf, rfl⟩
  have hrec' : (e.db.getWorkflow wf.workflowId).map (·.state) = some s' := hrec
  rw [hget, Option.map_some, Option.some.injEq] at hrec'
  exact hs (hrec'.symm.trans h)

/-- In the later state `e'` the workflow is still `CANCELLED`, none of its nodes has begun an attempt or come to
succeed since `e`, and the counters of finished workflows count others only. -/
structure Halted (e e' : JobEngine) (w : WorkflowId) : Prop where
  record : (e'.db.getWorkflow w).map (·.state) = some .cancelled
  attempt : ∀ job ∈ e'.db.listWorkflowJobs w, ∃ old ∈ e.db.listWorkflowJobs w,
    old.jobId = job.jobId ∧ job.attempt = old.attempt ∧ (job.state = .succeeded → old.state = .succeeded)
  lease : ∀ job ∈ e'.db.listWorkflowJobs w, ∀ info, e'.running.lookup job.jobId = some info →
    ∃ held, e.running.lookup job.jobId = some held ∧ held.leaseToken = info.leaseToken
  failed : e'.metrics.workflowsFailed = e'.othersLabelled w .failed
  succeeded : e'.metrics.workflowsSucceeded = e'.othersLabelled w .succeeded

/-- **A cancelled workflow stops.** Once `cancel_workflow` has returned, whatever its nodes report and whichever
leases expire, in every later state of the run. -/
theorem cancelled_workflow_stops (hworld : ∀ n, world.fault n = false) (hrun : Serial ⟨boot cfg types world, []⟩ p)
    (hcancel : Receipt.cancelled w ∈ p.state.ledger) (hnext : Serial p p') (hd : p'.state.Distinct) :
    Halted p.state p'.state w := by
  have hrest := System.Turns.atRest hrun atRest_boot
  have hover := (boot_overseen hworld).serial (p := ⟨boot cfg types world, []⟩) atRest_boot hrun
  have hover' := hover.serial hrest hnext
  have hrec : p.state.board.record w = some .cancelled :=
    (hover.labelled.labels w).cancelled.mpr (.inl (mem_cancelled.mpr hcancel))
  have hkeeps : p.state.Keeps w .cancelled := ⟨.cancelled, hrec, fun _ => rfl⟩
  obtain ⟨s', hrec', hs'⟩ := hover.labelled.keeps_serial hrest hnext hkeeps
  obtain rfl := hs' (by simp)
  have hnodes := hover.labelled.nodes_serial hrest hnext hkeeps
  have hg := hover.labelled.settled.books.sound.safe.graph
  have hg' := hover'.labelled.settled.books.sound.safe.graph
  have hquiet : ∀ job ∈ p'.state.db.listWorkflowJobs w,
      job.jobId ∈ p.state.board.nodes w ∧ Quiet p.state p'.state job.jobId := by
    intro job hjob
    have hnode : job.jobId ∈ p.state.board.nodes w := hnodes ▸ (mem_nodes hg').mpr ⟨job, hjob, rfl⟩
    have hdoomed := doomed_of_cancelled hworld hrun (hd.of_serial hrest hnext) hrec hnode
    exact ⟨hnode, (hdoomed.serial hover hrest hnext hd).2⟩
  refine ⟨hrec', fun job hjob => ?_, fun job hjob info hlookup => ?_,
    hover'.scored.failed.trans (labelled_eq_others hrec' (by simp)),
    hover'.scored.succeeded.trans (labelled_eq_others hrec' (by simp))⟩
  · obtain ⟨hnode, hq⟩ := hquiet job hjob
    obtain ⟨old, hold, hid⟩ := (mem_nodes hg).mp hnode
    obtain ⟨old', hold', hattempt, hsucc⟩ := hq.row job (mem_listWorkflowJobs.mp hjob).1
    have hget := (mem_listWorkflowJobs.mp hold).1
    rw [hid, hold', Option.some.injEq] at hget
    subst hget
    exact ⟨old', hold, hid, hattempt, hsucc⟩
  · obtain ⟨held, hheld, htag⟩ := (hquiet job hjob).2.lease _ (holds_tag hlookup) rfl
    exact ⟨held, hheld, congrArg Tag.token htag⟩

/-- A client cancels the chain while the first node is running. -/
def chainCancelled : List (System.Play JobEngine Frame Choice) :=
  chainStarted ++ [.call (.cancelWorkflow "w_0") {}]

theorem chainCancelled_playable : ∀ a ∈ chainCancelled, System.Playable Submits Call a :=
  List.forall_mem_append.mpr ⟨chainStarted_playable, by simp [System.Playable, Call, Frame.isCall]⟩

set_option maxRecDepth 8000 in
/-- The handler of the first node still reports success. -/
theorem cancelled_workflow_stops_chain : ∃ p p', Serial ⟨boot {} ["t"] {}, []⟩ p ∧ Serial p p' ∧
    Receipt.cancelled "w_0" ∈ p.state.ledger ∧ p'.state.Distinct ∧ Halted p.state p'.state "w_0" ∧
      p'.state.db.jobs.rows.map (·.state) = [.cancelled, .cancelled] := by
  have hplay : ((engineSystem.plays 40 ⟨boot {} ["t"] {}, []⟩ chainCancelled).bind fun p =>
      (engineSystem.plays 40 p [.resume 0 { outcome := { ok := true } }]).map fun p' =>
        (decide (Receipt.cancelled "w_0" ∈ p.state.ledger),
          decide p'.state.issuedReceipts.Nodup,
          p'.state.db.jobs.rows.map (·.state))) = some (true, true, [.cancelled, .cancelled]) := by
    decide +kernel
  obtain ⟨p, p', hrun, hnext, hview⟩ := System.exists_turns_after chainCancelled_playable
    (by simp [System.Playable]) hplay
  simp only [Prod.mk.injEq, decide_eq_true_eq] at hview
  obtain ⟨hcancel, hnodup, hrows⟩ := hview
  have hd := distinct_of_nodup hnodup
  exact ⟨p, p', hrun, hnext, hcancel, hd, cancelled_workflow_stops (fun _ => rfl) hrun hcancel hnext hd, hrows⟩

end Runs

end JobEngine

end DistributedJobEngine
