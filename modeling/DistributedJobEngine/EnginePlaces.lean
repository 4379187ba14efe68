import DistributedJobEngine.EngineTurns

/-! No job is lost: when the engine's operations run one at a time and no write of the store fails, every job
that has not ended is in one place after each of them, and the queue never refuses one. -/

namespace DistributedJobEngine

open LibPool Due Window

/-- What the end of a node leaves to be done to the other nodes and to the record of its workflow. -/
def Due.settles : Due → Bool
  | window .release _ _ | window .skip _ _ | unreleased _ | ready _ | expand _ _ | doomed _ _ | closed _ | unit _ _ _
  | verdict _ _ => true
  | _ => false

theorem Due.releasing_of_settles {x : Due} (h : x.settles = false) (j : JobId) : x.releasing j = false := by
  cases x with
  | window k i s => cases k <;> first | rfl | cases h
  | _ => first | rfl | cases h

theorem Due.unitOf_of_settles {x : Due} (h : x.settles = false) (j : JobId) : x.unitOf j = false := by
  cases x <;> first | rfl | cases h

/-- The frames of `on_terminal`, from the end of a node on to the record of its workflow. -/
def Frame.settles : Frame → Bool
  | onTerminal job => decide (job.workflowId ≠ "")
  | release _ | releaseGet _ | releaseWrite _ | skip _ | skipLoop _ | skipRemove _ _ | skipWrite _ _ |
    skipChildren _ _
  | account _ _ | finalize _ _ | finalizeWrite _ _ => true
  | _ => false

theorem Frame.settles_of_parks {f : Frame} (h : f.parks = true) : f.settles = false := by
  cases f <;> first | rfl | cases h

theorem Frame.settles_of_dues {f : Frame} {x : Due} (h : f.settles = false) (hx : x ∈ f.dues) :
    x.settles = false := by
  cases f with
  | cancelWrite job =>
      simp only [Frame.dues, Window.entry] at hx
      split_ifs at hx <;> simp only [Multiset.mem_add, Multiset.mem_singleton, add_zero] at hx
      · rcases hx with rfl | rfl <;> rfl
      · rw [hx]
        rfl
  | onTerminal job =>
      rw [Frame.settles, decide_eq_false_iff_not, not_not] at h
      rw [Frame.dues, nodeDues, if_pos (show job.stub.workflowId = "" from h)] at hx
      cases hx
  | startWrite job owner eligibleAt remote =>
      simp only [Frame.dues, Multiset.insert_eq_cons, Multiset.mem_cons, Multiset.mem_singleton] at hx
      rcases hx with rfl | rfl <;> rfl
  | skipMetric jobs =>
      simp only [Frame.dues, Multiset.mem_add, Multiset.mem_coe, List.mem_map] at hx
      rcases hx with (⟨job, -, rfl⟩ | ⟨job, -, rfl⟩) | ⟨job, -, rfl⟩ <;> rfl
  | _ => first | (rw [Multiset.mem_singleton.mp hx]; rfl) | exact absurd hx (Multiset.notMem_zero x) | cases h

namespace JobEngine

variable {e e' : JobEngine}

/-! ### The log -/

/-- With a store that does not fail, only `enqueue` can write to the log. -/
theorem log_advance (hr : e.Reliable) (c : Choice) {f : Frame} (hf : f.kind ≠ .enqueue) :
    (e.advance c f).1.log = e.log := by
  have hpersist : ∀ job, (e.persist job).log = e.log := fun job => by rw [persist_of_reliable hr]; rfl
  have hfault : ∀ n, e.world.fault n = false := hr
  cases f with
  | enqueue job token => exact absurd rfl hf
  | finishRetry job token => exact hpersist job
  | finishTerminal job token => exact hpersist job
  | releaseWrite job => exact hpersist _
  | skipWrite w job => exact hpersist _
  | watchdog =>
      obtain ⟨cells, ws, n, h⟩ := exists_watchdog (e := e)
      simp only [advance, h]
      rfl
  | startWrite job owner eligibleAt remote =>
      simp only [advance, startWrite, updateJob_of_reliable hr]
      split <;> rfl
  | expireWrite now job =>
      simp only [advance, expireWrite, updateJob_of_reliable hr]
      split <;> rfl
  | finishRecord job info outcome =>
      simp only [advance, finishRecord, hfault]
      rfl
  | cancelFlag _ | cancelWrite _ =>
      simp only [advance, cancelFlag, cancelWrite, updateJob_of_reliable hr]
      rfl
  | account job skipped =>
      simp only [advance, account]
      (repeat' split) <;> rfl
  | slot jobId token => cases token <;> rfl
  | cancelSignal _ | cancelWorkflow _ | cancelWorkflowWrite _ | workerPop _ | claim _ _ | claimFirst _ _
  | heartbeat _ | complete _ | completeRead _ _ _ | finish _ _ _ _ | expire _ _ _ | release _ =>
      simp only [advance, cancelSignal, cancelWorkflow, cancelWorkflowWrite, workerPop, claim, claimFirst,
        heartbeat, complete, completeRead, finish, expire, release]
      (repeat' split) <;> rfl
  | _ => rfl

/-- `enqueue` never gets `PushStatus::Full`. -/
def NeverFull (e : JobEngine) : Prop := ∀ jobId, LogLine.queueFull jobId ∉ e.log

theorem Settled.neverFull_advance {c : Choice} {f : Frame} {O : Multiset Frame} (h : e.Settled (f ::ₘ O))
    (hlog : e.NeverFull) : (e.advance c f).1.NeverFull := by
  have hsame : (e.advance c f).1.log = e.log := by
    by_cases hf : f.kind = .enqueue
    · cases f with
      | enqueue job token =>
          have hmem : Due.requeue job.jobId ∈ duesIn (Frame.enqueue job token ::ₘ O) :=
            mem_duesIn.mpr ⟨_, Multiset.mem_cons_self _ _, Multiset.mem_singleton_self _⟩
          have hgraph := h.books.sound.safe.graph
          have hroom := h.ticketed.card_live_lt hgraph (h.books.accounted.card_openJobs_le hgraph) hmem
          have hlog := ((enqueue_queued h.books.sound.queue job).room h.opened
            (by rw [h.capacity]; exact hroom.trans h.bounded)).2
          cases token <;> exact hlog
      | _ => cases hf
    · exact log_advance h.books.sound.reliable c hf
  rw [NeverFull, hsame]
  exact hlog

theorem Settled.neverFull_submits {F : Multiset Frame} (h : e.Settled F) (hsub : Submits e e')
    (hlog : e.NeverFull) : e'.NeverFull := by
  have hsame : e'.log = e.log := by
    rcases (submits_submitted h.books.sound hsub).board with ⟨-, -, hlog⟩ | ⟨N, w, hadm⟩
    · exact hlog
    · exact (hadm.room h.opened (h.room_of_admitted hadm)).2
  rw [NeverFull, hsame]
  exact hlog

/-! ### Places -/

/-- The parents of `j` that have not succeeded. -/
def openParents (e : JobEngine) (j : JobId) : Finset JobId :=
  (e.board.parents j).filter fun q => (e.db.getJob q).all fun job => decide (job.state ≠ .succeeded)

/-- The queue has exactly one live entry of `j`. -/
def OnQueue (e : JobEngine) (j : JobId) : Prop := (e.queue.liveEntries j).length = 1

/-- `running_` has the lease that the row of the job names. -/
def OnLease (e : JobEngine) (job : Job) : Prop :=
  ∃ info, e.running.lookup job.jobId = some info ∧ info.leaseToken = job.leaseToken ∧ info.attempt = job.attempt

/-- `j` is neither in the queue nor in `running_`, and its counter is the number of parents it waits for: there
are some, and none of them has ended. -/
structure OnParents (e : JobEngine) (j : JobId) : Prop where
  notQueued : e.queue.liveEntries j = []
  notLeased : e.running.lookup j = none
  counter : e.pendingDeps.lookup j = some ((e.openParents j).card : Int)
  waits : 1 ≤ (e.openParents j).card
  going : ∀ q ∈ e.openParents j, ∃ job, e.db.getJob q = some job ∧ job.state.isTerminal = false

/-- A job that has not ended is in the place that its state names. -/
structure Placed (e : JobEngine) (job : Job) : Prop where
  queue : job.state.isWaiting = true ↔ e.OnQueue job.jobId
  lease : job.state = .running ↔ e.OnLease job
  parents : job.state = .pending ↔ e.OnParents job.jobId

/-- All threads are parked in a handler. -/
structure AtRest (F : Multiset Frame) : Prop where
  parks : ∀ g ∈ F, g.parks = true

theorem AtRest.countP {F : Multiset Frame} (h : AtRest F) {f : Due → Bool} (hf : ∀ j s, f (.copy j s) = false) :
    (duesIn F).countP (fun x => f x = true) = 0 :=
  countP_eq_zero_of_forall fun x hx => by
    obtain ⟨j, s, rfl⟩ := duesIn_of_parks h.parks hx
    exact hf j s

theorem AtRest.notMem {F : Multiset Frame} (h : AtRest F) {x : Due} (hx : ∀ j s, x ≠ .copy j s) : x ∉ duesIn F :=
  fun hmem => by
    obtain ⟨j, s, heq⟩ := duesIn_of_parks h.parks hmem
    exact hx j s heq

/-- No workflow waits for what the end of a node still has to do to it. -/
structure Clear (F : Multiset Frame) : Prop where
  frames : ∀ g ∈ F, g.settles = false

theorem AtRest.clear {F : Multiset Frame} (h : AtRest F) : Clear F :=
  ⟨fun g hg => Frame.settles_of_parks (h.parks g hg)⟩

theorem Clear.settles {F : Multiset Frame} (h : Clear F) {x : Due} (hx : x ∈ duesIn F) : x.settles = false := by
  obtain ⟨f, hf, hmem⟩ := mem_duesIn.mp hx
  exact Frame.settles_of_dues (h.frames f hf) hmem

theorem Clear.notMem {F : Multiset Frame} (h : Clear F) {x : Due} (hx : x.settles = true) : x ∉ duesIn F := by
  intro hmem
  rw [h.settles hmem] at hx
  cases hx

theorem Clear.countP {F : Multiset Frame} (h : Clear F) {f : Due → Bool}
    (hf : ∀ x : Due, x.settles = false → f x = false) : (duesIn F).countP (fun x => f x = true) = 0 :=
  countP_eq_zero_of_forall fun x hx => hf x (h.settles hx)

theorem mem_openParents {j q : JobId} : q ∈ e.openParents j ↔ q ∈ e.board.parents j ∧ ¬ e.board.Succ q := by
  rw [openParents, Finset.mem_filter]
  refine and_congr_right fun _ => ?_
  rw [Board.Succ, board_row]
  cases e.db.getJob q <;> simp [Job.stub]

/-- The counter of the board when no parent is left to be counted down. -/
theorem Clear.openParents_eq {F : Multiset Frame} (h : Clear F) (j : JobId) :
    e.board.openParents (duesIn F) j = e.openParents j := by
  ext q
  rw [Board.mem_openParents, mem_openParents, Board.mem_parents, Board.Unreleased]
  have hnone : Due.unreleased q ∉ duesIn F := h.notMem rfl
  simp [hnone]

variable {F : Multiset Frame} {job : Job} {j : JobId}

/-- At rest, the jobs that wait are those with an entry. -/
theorem onQueue_iff (hq : e.queue.Consistent) (h : e.board.Ticketed (duesIn F)) (hF : AtRest F)
    (hget : e.db.getJob j = some job) : e.OnQueue j ↔ job.state.isWaiting = true := by
  have hrow : e.board.row j = some job.stub := by rw [board_row, hget]; rfl
  have hcount := h j
  rw [Board.entries, hF.countP (fun _ _ => rfl), Board.waiting_of_row hrow, add_zero] at hcount
  have hlen := hq.length_liveEntries j
  rw [OnQueue, hlen]
  change (if j ∈ e.board.live then 1 else 0) = 1 ↔ job.stub.state.isWaiting = true
  rw [hcount]
  cases job.stub.state.isWaiting <;> simp

theorem Settled.onLease_iff (h : e.Settled F) (hF : AtRest F) (hget : e.db.getJob j = some job) :
    e.OnLease job ↔ job.state = .running := by
  have hid := getJob_jobId hget
  have hrow : e.board.row j = some job.stub := by rw [board_row, hget]; rfl
  constructor
  · rintro ⟨info, hlookup, -⟩
    rw [hid] at hlookup
    obtain ⟨r, hr, hrun⟩ := h.books.sound.safe.lease j (by simp [board, hlookup])
    rw [hrow, Option.some.injEq] at hr
    subst hr
    exact hrun
  · intro hrun
    have hlease : (e.board.lease j).isSome := by
      rcases h.manned.running j job.stub hrow hrun with hl | hpos
      · exact hl
      · rw [hF.countP fun _ _ => rfl] at hpos
        cases hpos
    obtain ⟨info, hlookup, hinfo⟩ := Option.map_eq_some_iff.mp (Option.some_get hlease).symm
    obtain ⟨htoken, hattempt⟩ := h.manned.lease j info.leaseToken info.attempt job.stub
      (by simp [board, hlookup]) hrow
    exact ⟨info, by rw [hid, hlookup], htoken.symm, hattempt.symm⟩

/-- A job in `PENDING` waits for as many parents as its counter says, and for one at least. -/
theorem Clear.pending_eq (hF : Clear F) (h : e.board.Counting (duesIn F)) (hget : e.db.getJob j = some job)
    (hpend : job.state = .pending) :
    e.board.pending j = ((e.openParents j).card : Int) ∧ 0 < e.board.pending j := by
  have hrow : e.board.row j = some job.stub := by rw [board_row, hget]; rfl
  refine ⟨by rw [h.counter j job.stub hrow hpend, hF.openParents_eq], ?_⟩
  rcases h.ready j job.stub hrow hpend with hpos | hpos
  · exact hpos
  · rw [hF.countP fun x hx => Due.releasing_of_settles hx j] at hpos
    cases hpos

/-- The parents that a job in `PENDING` waits for have not ended. -/
theorem Clear.going (hF : Clear F) (hg : e.board.Graph) (h : e.board.Swept (duesIn F))
    (hget : e.db.getJob j = some job) (hpend : job.state = .pending) {q : JobId} (hq : q ∈ e.openParents j) :
    ∃ parent, e.db.getJob q = some parent ∧ parent.state.isTerminal = false := by
  have hrow : e.board.row j = some job.stub := by rw [board_row, hget]; rfl
  obtain ⟨hparent, hsucc⟩ := mem_openParents.mp hq
  rw [Board.mem_parents] at hparent
  obtain ⟨rq, -, hrq, -⟩ := hg.edge q j hparent
  obtain ⟨parent, hparent', rfl⟩ := Option.map_eq_some_iff.mp hrq
  refine ⟨parent, hparent', ?_⟩
  by_contra hend
  rw [Bool.not_eq_false] at hend
  have hbad : e.board.Bad q := ⟨_, hrq, hend, fun hs => hsucc ⟨_, hrq, hs⟩⟩
  rcases h.doomed q j job.stub hrow hpend hparent hbad with ⟨w, hx⟩ | ⟨w, hx⟩ | ⟨r, hx⟩ <;>
    exact hF.notMem rfl hx

theorem Settled.onParents (h : e.Settled F) (hF : AtRest F) (hget : e.db.getJob j = some job)
    (hpend : job.state = .pending) : e.OnParents j := by
  have hrow : e.board.row j = some job.stub := by rw [board_row, hget]; rfl
  obtain ⟨hcount, hpos⟩ := hF.clear.pending_eq h.counting hget hpend
  have hlookup : e.pendingDeps.lookup j = some (e.board.pending j) := by
    change e.pendingDeps.lookup j = some ((e.pendingDeps.lookup j).getD 0)
    cases hl : e.pendingDeps.lookup j with
    | none =>
        change 0 < (e.pendingDeps.lookup j).getD 0 at hpos
        rw [hl] at hpos
        cases hpos
    | some n => rfl
  refine ⟨?_, ?_, by rw [hlookup, hcount], by omega,
    fun q hq => hF.clear.going h.books.sound.safe.graph h.swept hget hpend hq⟩
  · have hnot := mt (onQueue_iff h.books.sound.queue h.ticketed hF hget).mp (by rw [hpend]; simp [JobState.isWaiting])
    have hlen := h.books.sound.queue.length_liveEntries j
    rw [OnQueue, hlen] at hnot
    rw [← List.length_eq_zero_iff, hlen]
    split_ifs at hnot ⊢
    · exact absurd rfl hnot
    · rfl
  · have hnone := h.books.sound.safe.lease_of_pending hrow
      (by rw [show job.stub.state = job.state from rfl, hpend]; simp)
    exact Option.map_eq_none_iff.mp hnone

theorem Settled.placed (h : e.Settled F) (hF : AtRest F) (hget : e.db.getJob j = some job)
    (hopen : job.state.isTerminal = false) : e.Placed job := by
  have hid := getJob_jobId hget
  have hqueue := onQueue_iff h.books.sound.queue h.ticketed hF hget
  have hlease := h.onLease_iff hF hget
  rw [← hid] at hqueue
  refine ⟨hqueue.symm, hlease.symm, fun hpend => hid ▸ h.onParents hF hget hpend, fun hpar => ?_⟩
  rcases job.state.trichotomy with hend | hwait | hrun | hpend
  · rw [hend] at hopen
    cases hopen
  · have hlen := hqueue.mpr hwait
    rw [OnQueue, hpar.notQueued] at hlen
    cases hlen
  · obtain ⟨info, hlookup, -⟩ := hlease.mpr hrun
    rw [hpar.notLeased] at hlookup
    cases hlookup
  · exact hpend

section Runs

variable {cfg : EngineConfig} {types : List String} {world : World} {p : Pool JobEngine Frame}

theorem serial_settled (hworld : ∀ n, world.fault n = false) (hrun : Serial ⟨boot cfg types world, []⟩ p) :
    p.state.Settled p.frames ∧ AtRest p.frames ∧ p.state.NeverFull := by
  have hrest := System.Turns.atRest hrun atRest_boot
  have hinv : p.state.Settled p.frames ∧ p.state.NeverFull :=
    serial_invariant
      (I := fun e F => e.Settled F ∧ e.NeverFull) hrun atRest_boot
      (fun _ _ _ _ hO h => ⟨h.1.advance hO, h.1.neverFull_advance h.2⟩)
      (fun _ _ _ hF hsub h => ⟨h.1.submits hF hsub, h.1.neverFull_submits hsub h.2⟩)
      (fun _ _ _ hF hcall h => ⟨h.1.spawn hF hcall, h.2⟩)
      ⟨boot_settled hworld, fun _ hmem => by cases hmem⟩
  exact ⟨hinv.1, ⟨fun g hg => hrest.parks hg⟩, hinv.2⟩

/-- **No job is lost.** When the operations take turns and every write succeeds, a job that has not ended is on
the queue, on a lease or waiting for its parents, and its state says which. -/
theorem no_job_lost (hworld : ∀ n, world.fault n = false) (hrun : Serial ⟨boot cfg types world, []⟩ p) :
    (∀ j job, p.state.db.getJob j = some job → job.state.isTerminal = false → p.state.Placed job) ∧
      p.state.NeverFull := by
  obtain ⟨hsettled, hrest, hfull⟩ := serial_settled hworld hrun
  exact ⟨fun j job hget hopen => hsettled.placed hrest hget hopen, hfull⟩

/-- Two nodes in a row. -/
def chain : List WorkflowNodeSpec × List (String × String) :=
  ([⟨"a", { type := "t" }⟩, ⟨"b", { type := "t" }⟩], [("a", "b")])

/-- A chain and a single job are submitted, and an embedded worker starts the first node. -/
def threePlaces : List (System.Play JobEngine Frame Choice) :=
  [.env fun e => (e.submitWorkflow "w" chain.1 chain.2).2, .call (.workerPop "w") {},
    .env fun e => (e.submit { type := "t" }).2]

theorem threePlaces_playable : ∀ a ∈ threePlaces, System.Playable Submits Call a := by
  simp only [threePlaces, List.forall_mem_cons, System.Playable, Call, Frame.isCall, true_and]
  exact ⟨fun e => .workflow _ _ _, fun e => .job _ rfl rfl, by simp⟩

set_option maxRecDepth 8000 in
theorem no_job_lost_places : ∃ p a b c, Serial ⟨boot {} ["t"] {}, []⟩ p ∧
    (a.state = .running ∧ p.state.Placed a) ∧ (b.state = .pending ∧ p.state.Placed b) ∧
      (c.state = .queued ∧ p.state.Placed c) ∧ p.state.NeverFull := by
  have hplay : (engineSystem.plays 20 ⟨boot {} ["t"] {}, []⟩ threePlaces).map
      (fun p => ["j_1", "j_2", "j_8"].map fun j => (p.state.db.getJob j).map Job.state) =
        some [some .running, some .pending, some .queued] := by
    decide +kernel
  obtain ⟨p, hrun, hview⟩ := System.exists_turns threePlaces_playable hplay
  obtain ⟨hplaced, hfull⟩ := no_job_lost (fun _ => rfl) hrun
  simp only [List.map_cons, List.map_nil, List.cons.injEq, Option.map_eq_some_iff, and_true] at hview
  obtain ⟨⟨a, ha, hsa⟩, ⟨b, hb, hsb⟩, ⟨c, hc, hsc⟩⟩ := hview
  exact ⟨p, a, b, c, hrun, ⟨hsa, hplaced _ a ha (by rw [hsa]; rfl)⟩, ⟨hsb, hplaced _ b hb (by rw [hsb]; rfl)⟩,
    ⟨hsc, hplaced _ c hc (by rw [hsc]; rfl)⟩, hfull⟩

end Runs

end JobEngine

end DistributedJobEngine
