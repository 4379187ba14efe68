import DistributedJobEngine.EngineGraph

/-! The engine as a pool of threads: embedded workers, remote calls, the watchdog and cancellations run their
frames in any order over one engine, and submissions come from outside. What a step leaves alone, the frames
it may leave behind, and `run_mutex_`. -/

namespace DistributedJobEngine

open LibPool Due Window

namespace Frame

/-- The row that the frame has read and is about to write back. -/
def overwrites : Frame → Option JobId
  | cancelFlag job | cancelRemove job | cancelWrite job | startWrite job _ _ _ | finishRecord job _ _
  | finishRetry job _ | finishTerminal job _ | expireWrite _ job | releaseWrite job | skipRemove _ job
  | skipWrite _ job => some job.jobId
  | _ => none

/-- Calls that start a thread. -/
def isCall : Frame → Bool
  | cancel _ | cancelWorkflow _ | workerPop _ | claim _ _ | registerWorker _ _ | heartbeat _ | complete _
  | watchdog => true
  | _ => false

/-- The frame is between no read and write of a row, and not inside a block under `run_mutex_`. -/
def quiet (f : Frame) : Bool := f.overwrites.isNone && !f.holdsRun

/-- A handler runs as long as it likes. -/
def parks : Frame → Bool
  | handler _ _ => true
  | _ => false

theorem not_isWindow_walk {w : SkipWalk} {x : Due} (hx : x ∈ w.dues) : x.isWindow = false := by
  simp only [SkipWalk.dues, skippedDues, Multiset.mem_add, Multiset.mem_singleton, Multiset.mem_coe,
    List.mem_map] at hx
  rcases hx with ((rfl | ⟨j, -, rfl⟩) | ⟨j, -, rfl⟩) | ((⟨j, -, rfl⟩ | ⟨j, -, rfl⟩) | ⟨j, -, rfl⟩) | ⟨j, -, rfl⟩ <;>
    rfl

theorem not_isWindow_nodeDues {j : JobId} {s : Stub} {x : Due} (hx : x ∈ nodeDues j s) : x.isWindow = false := by
  unfold nodeDues at hx
  split_ifs at hx
  · cases hx
  · simp only [Multiset.insert_eq_cons, Multiset.mem_cons, Multiset.mem_singleton] at hx
    rcases hx with rfl | rfl <;> rfl
  · simp only [Multiset.insert_eq_cons, Multiset.mem_cons, Multiset.mem_singleton] at hx
    rcases hx with rfl | rfl <;> rfl

theorem not_isWindow_entry {k : Window} {j : JobId} {s : Stub} {x : Due} (hx : x ∈ k.entry j s) :
    x.isWindow = false := by
  obtain rfl := Board.mem_entry hx
  rfl

/-- A frame has at most one window, on the row it overwrites; all else it owes is no window. -/
theorem dues_window (f : Frame) :
    (∀ x ∈ f.dues, x.isWindow = false) ∨
      ∃ k j s rest, f.overwrites = some j ∧ (Due.window k j s).locked = f.holdsRun ∧
        f.dues = {.window k j s} + rest ∧ ∀ x ∈ rest, x.isWindow = false := by
  cases f with
  | cancelFlag job | cancelRemove job => exact .inr ⟨.cancel, _, _, 0, rfl, rfl, (add_zero _).symm, by simp⟩
  | cancelWrite job => exact .inr ⟨.cancel, _, _, _, rfl, rfl, rfl, fun x hx => not_isWindow_entry hx⟩
  | startWrite job owner eligibleAt remote =>
      exact .inr ⟨.start, _, _, {.held job.jobId}, rfl, rfl, rfl,
        fun x hx => by rw [Multiset.mem_singleton.mp hx]; rfl⟩
  | finishRecord job | finishRetry job | finishTerminal job =>
      exact .inr ⟨.finish, _, _, 0, rfl, rfl, (add_zero _).symm, by simp⟩
  | expireWrite now job => exact .inr ⟨.expire, _, _, 0, rfl, rfl, (add_zero _).symm, by simp⟩
  | releaseWrite job => exact .inr ⟨.release, _, _, 0, rfl, rfl, (add_zero _).symm, by simp⟩
  | skipRemove w job | skipWrite w job =>
      refine .inr ⟨.skip, job.jobId, job.stub, {.doomed job.jobId w.job.workflowId} + w.dues, rfl, rfl, ?_,
        fun x hx => ?_⟩
      · rw [← add_assoc]
        rfl
      · rcases Multiset.mem_add.mp hx with hx | hx
        · rw [Multiset.mem_singleton.mp hx]
          rfl
        · exact not_isWindow_walk hx
  | onTerminal job => exact .inl fun x hx => not_isWindow_nodeDues hx
  | skipLoop w => exact .inl fun x hx => not_isWindow_walk hx
  | skipChildren w jobId =>
      left
      intro x hx
      rcases Multiset.mem_add.mp hx with hx | hx
      · rw [Multiset.mem_singleton.mp hx]
        rfl
      · exact not_isWindow_walk hx
  | skipMetric jobs =>
      left
      intro x hx
      simp only [dues, Multiset.mem_add, Multiset.mem_coe, List.mem_map] at hx
      rcases hx with (⟨j, -, rfl⟩ | ⟨j, -, rfl⟩) | ⟨j, -, rfl⟩ <;> rfl
  | account job skipped =>
      left
      intro x hx
      obtain ⟨j, -, rfl⟩ := List.mem_map.mp hx
      rfl
  | skip job =>
      left
      intro x hx
      simp only [dues, Multiset.mem_add, Multiset.mem_singleton] at hx
      rcases hx with rfl | rfl <;> rfl
  | _ =>
      left
      intro x hx
      first
        | exact absurd hx (Multiset.notMem_zero x)
        | rw [Multiset.mem_singleton.mp hx]
          rfl

/-- The windows that `run_mutex_` covers belong to the frames that hold it. -/
theorem countP_locked_le (f : Frame) : f.dues.countP (·.locked) ≤ f.holdsRun.toNat := by
  rcases f.dues_window with hnone | ⟨k, j, s, rest, -, hlocked, hdues, hrest⟩
  · rw [countP_eq_zero_of_forall fun x hx => ?_]
    · exact Nat.zero_le _
    · have hw := hnone x hx
      cases x <;> first | rfl | cases hw
  · have hzero : rest.countP (·.locked) = 0 := countP_eq_zero_of_forall fun x hx => by
      have hw := hrest x hx
      cases x <;> first | rfl | cases hw
    rw [hdues, Multiset.countP_add, hzero, add_zero, countP_singleton, hlocked]

end Frame

namespace JobEngine

variable {e e' : JobEngine}

/-! ### What every step leaves alone -/

/-- The settings of the engine, the reliability of the store and the number of jobs ever submitted. -/
structure Stable (e e' : JobEngine) : Prop where
  cfg : e'.cfg = e.cfg
  fault : e'.world.fault = e.world.fault
  submitted : e'.metrics.jobsSubmitted = e.metrics.jobsSubmitted
  kept : e.queue.Kept e'.queue

theorem setCells_eq (late : List (Σ _ : JobId, RunningInfo)) :
    ∃ cells, late.foldl (fun e kv => e.setCell kv.2.cell fun c => { c with reason := .timeout, flag := true }) e =
      { e with cells } := by
  induction late generalizing e with
  | nil => exact ⟨e.cells, rfl⟩
  | cons kv late ih =>
      obtain ⟨cells, h⟩ := ih (e := e.setCell kv.2.cell fun c => { c with reason := .timeout, flag := true })
      exact ⟨cells, h⟩

theorem mem_release {parent : JobId} {g : Frame} (hg : g ∈ (e.release parent).2) :
    ∃ child, g = .releaseGet child := by
  unfold release at hg
  split at hg
  · cases hg
  · obtain ⟨child, -, rfl⟩ := List.mem_map.mp hg
    exact ⟨child, rfl⟩

/-- The scan cancels attempts, marks workers dead and counts those. -/
theorem exists_watchdog : ∃ cells ws n, e.watchdog.1 =
    { e.tick with cells, remoteWorkers := ws, metrics := { e.metrics with workersMarkedDead := n } } := by
  obtain ⟨cells, h⟩ := setCells_eq (e := e.tick)
    (e.running.entries.filter fun kv => decide (e.pastDeadline e.wallMs kv.2))
  simp only [watchdog, h]
  exact ⟨cells, _, _, rfl⟩

theorem submitted_countTerminal (m : Metrics) (s : JobState) :
    (m.countTerminal s).jobsSubmitted = m.jobsSubmitted := by
  cases s <;> rfl

theorem poll_kept (hq : e.queue.Consistent) (now : Int) (next : QueueEntry → List Frame) (again : List Frame) :
    e.Stable (match e.queue.poll now with
      | (some entry, q) => ({ e.tick with queue := q }, next entry)
      | (none, q) => ({ e.tick with queue := q }, again)).1 := by
  have hkept := (hq.poll_live now).1
  rcases hpoll : e.queue.poll now with ⟨r, q⟩
  rw [hpoll] at hkept
  cases r <;> exact ⟨rfl, rfl, rfl, hkept⟩

theorem claimRest_kept (hq : e.queue.Consistent) (workerId : WorkerId) (maxJobs : ℕ) (first : QueueEntry) :
    e.Stable (e.claimRest workerId maxJobs first).1 := by
  have hp := PriorityJobQueue.promoteMaturedLocked_promoted hq e.nowMs
  obtain ⟨hkept, -⟩ := PriorityJobQueue.Consistent.drainLoop_live (maxJobs - 1) _ hp.consistent
  exact ⟨rfl, rfl, rfl, hkept.consistent, hkept.capacity.trans hp.capacity, hkept.closed.trans hp.closed⟩

theorem enqueue_kept (hq : e.queue.Consistent) (job : Job) : e.Stable (e.enqueue job) := by
  have h := enqueue_queued hq job
  obtain ⟨q, log, n, hshape⟩ := h.shape
  refine ⟨?_, ?_, ?_, h.kept⟩ <;> rw [hshape]

theorem advance_stable (hq : e.queue.Consistent) (c : Choice) (f : Frame) : e.Stable (e.advance c f).1 := by
  cases f with
  | watchdog =>
      obtain ⟨cells, ws, n, h⟩ := exists_watchdog (e := e)
      simp only [advance, h]
      exact ⟨rfl, rfl, rfl, ⟨hq, rfl, rfl⟩⟩
  | metric job => exact ⟨rfl, rfl, submitted_countTerminal _ _, ⟨hq, rfl, rfl⟩⟩
  | workerPop owner => exact poll_kept hq e.nowMs _ _
  | claimFirst workerId maxJobs => exact poll_kept hq e.nowMs _ _
  | claimRest workerId maxJobs first => exact claimRest_kept hq workerId maxJobs first
  | cancelRemove job => exact ⟨rfl, rfl, rfl, (hq.remove_live job.jobId).1⟩
  | skipRemove w job => exact ⟨rfl, rfl, rfl, (hq.remove_live job.jobId).1⟩
  | enqueue job token =>
      have h := enqueue_kept hq job
      cases token with
      | none => exact h
      | some t => exact ⟨h.cfg, h.fault, h.submitted, h.kept⟩
  | _ =>
      cases hfault : e.world.fault e.world.pos
      all_goals
        simp only [advance, cancelFlag, cancelSignal, cancelWrite, cancelWorkflow, cancelWorkflowWrite, record,
          claim, registerWorker, heartbeat, complete, completeRead, startWrite, startFailed, startRunning, finish,
          finishRecord, finishRetry, finishTerminal, expire, expireWrite, slot, releaseSlot, release, releaseWrite,
          skipWrite, skipMetric, account, finalizeWrite, persist, updateJob, logError, setCell, hfault,
          Bool.false_eq_true, if_false, if_true]
        (repeat' split) <;> exact ⟨rfl, rfl, rfl, ⟨hq, rfl, rfl⟩⟩

/-! ### The frames a step leaves -/

theorem proper_tail {row : Job} {token : Option UInt64} (h : row.state.isTerminal = true ∧ row.state ≠ .skipped) :
    ∀ g ∈ Frame.tail row token, g.Proper := by
  intro g hg
  simp only [Frame.tail, List.mem_cons, List.not_mem_nil, or_false] at hg
  rcases hg with rfl | rfl | rfl | rfl
  · exact h
  · trivial
  · trivial
  · trivial

theorem state_finishedRow (job : Job) (info : RunningInfo) (outcome : Outcome) (next : JobState) (error : String) :
    (e.finishedRow job info outcome next error).state = next := by
  unfold finishedRow
  dsimp only
  split_ifs <;> rfl

/-- An attempt is retried, or its job ends in a state other than `SKIPPED`. -/
theorem verdict_state (reason : CancelReason) (job : Job) (outcome : Outcome) :
    (verdict reason job outcome).1 = .retrying ∨
      ((verdict reason job outcome).1.isTerminal = true ∧ (verdict reason job outcome).1 ≠ .skipped) := by
  unfold verdict
  cases reason
  all_goals
    dsimp only
    (repeat' split) <;> first | exact .inl rfl | exact .inr ⟨rfl, nofun⟩

theorem finishRecord_proper (job : Job) (info : RunningInfo) (outcome : Outcome) :
    ∀ g ∈ (e.finishRecord job info outcome).2, g.Proper := by
  have hverdict := verdict_state (e.reasonOf info) job outcome
  rcases hv : verdict (e.reasonOf info) job outcome with ⟨next, status, error⟩
  rw [hv] at hverdict
  have hstate := state_finishedRow (e := e) job info outcome next error
  intro g hg
  simp only [finishRecord, hv] at hg
  split_ifs at hg with hnext
  · rw [List.mem_singleton.mp hg]
    exact hstate.trans hnext
  · rw [List.mem_singleton.mp hg]
    change (e.finishedRow job info outcome next error).state.isTerminal = true ∧ _
    rw [hstate]
    exact hverdict.resolve_left hnext

theorem expireWrite_proper (now : Int) (job : Job) : ∀ g ∈ (e.expireWrite now job).2, g.Proper := by
  unfold expireWrite
  dsimp only
  split_ifs with hfailed
  · exact proper_tail (by rw [hfailed]; decide)
  · intro g hg
    rw [List.mem_singleton.mp hg]
    trivial

theorem cancelledRow_ended (job : Job) :
    (e.cancelledRow job).state.isTerminal = true ∧ (e.cancelledRow job).state ≠ .skipped :=
  ⟨rfl, by simp [cancelledRow]⟩

theorem skipLoop_proper {w : SkipWalk} (hp : (Frame.skipLoop w).Proper) : ∀ g ∈ e.skipLoop w, g.Proper := by
  unfold skipLoop
  intro g hg
  (repeat' split at hg) <;>
    simp only [List.mem_cons, List.not_mem_nil, or_false] at hg <;>
    first
      | (rw [hg]; first | exact hp | trivial)
      | (rcases hg with rfl | rfl <;> trivial)

theorem reclaim_proper (now : Int) (dead : List WorkerId) (expired : List (JobId × UInt64)) :
    ∀ g ∈ reclaim now dead expired, g.Proper := by
  cases dead with
  | nil =>
      intro g hg
      obtain ⟨j, -, rfl⟩ := List.mem_map.mp hg
      trivial
  | cons workerId dead =>
      intro g hg
      rw [List.mem_singleton.mp hg]
      trivial

/-- The locals of the frames a step leaves satisfy what they always satisfy. -/
theorem advance_proper (c : Choice) {f : Frame} (hp : f.Proper) : ∀ g ∈ (e.advance c f).2, g.Proper := by
  cases f with
  | cancelWrite job =>
      unfold advance cancelWrite
      dsimp only
      split
      · simp
      · exact proper_tail (cancelledRow_ended job)
  | startWrite job owner eligibleAt remote =>
      simp only [advance, startWrite]
      split
      · exact proper_tail (cancelledRow_ended job)
      · split
        · simp [startFailed, Frame.Proper]
        · cases remote <;> simp [startRunning, Frame.Proper]
  | finishRecord job info outcome => exact finishRecord_proper job info outcome
  | finishTerminal job token => exact proper_tail hp
  | expireWrite now job => exact expireWrite_proper now job
  | skipLoop w => exact skipLoop_proper hp
  | skip job =>
      simp only [advance, skip]
      split
      · simp [Frame.Proper]
      · intro g hg
        rw [List.mem_singleton.mp hg]
        exact hp
  | skipRemove w job | skipWrite w job | skipChildren w jobId =>
      intro g hg
      rw [List.mem_singleton.mp hg]
      exact hp
  | cancelRemove job =>
      intro g hg
      rw [List.mem_singleton.mp hg]
      exact hp
  | onTerminal job =>
      simp only [advance, onTerminal]
      split
      · simp
      · split
        · simp [Frame.Proper]
        · rename_i hs
          simpa [Frame.Proper] using hs
  | cancel jobId =>
      simp only [advance, cancel]
      (repeat' split) <;> simp_all [Frame.Proper]
  | cancelWorkflow w =>
      simp only [advance, cancelWorkflow]
      (repeat' split) <;> simp [Frame.Proper]
  | watchdogDead now workerId dead expired => exact reclaim_proper now dead _
  | watchdog => exact reclaim_proper _ _ _
  | cancelWorkflowNodes w =>
      intro g hg
      simp only [advance, cancelWorkflowNodes, List.mem_append, List.mem_map, List.mem_singleton] at hg
      rcases hg with ⟨j, -, rfl⟩ | rfl <;> trivial
  | skipMetric jobs =>
      intro g hg
      simp only [advance, skipMetric, List.mem_flatMap, List.mem_cons, List.not_mem_nil, or_false] at hg
      obtain ⟨j, -, rfl | rfl⟩ := hg <;> trivial
  | _ =>
      simp only [advance, cancelFlag, cancelWorkflowWrite, workerPop, claim, claimFirst,
        claimRest, complete, completeRead, start, handler, finish, finishRetry, expire, release, releaseGet,
        releaseWrite, account, finalize]
      (repeat' split) <;> simp [Frame.Proper]

theorem reclaim_quiet (now : Int) (dead : List WorkerId) (expired : List (JobId × UInt64)) :
    ∀ g ∈ reclaim now dead expired, g.quiet = true := by
  cases dead with
  | nil =>
      intro g hg
      obtain ⟨j, -, rfl⟩ := List.mem_map.mp hg
      rfl
  | cons workerId dead =>
      intro g hg
      rw [List.mem_singleton.mp hg]
      rfl

theorem tail_quiet (row : Job) (token : Option UInt64) : ∀ g ∈ Frame.tail row token, g.quiet = true := by
  simp [Frame.tail, Frame.quiet, Frame.overwrites, Frame.holdsRun]

/-- A step leaves all frames quiet except perhaps the first, and only a step of a frame that takes or holds
`run_mutex_` leaves it held. -/
structure Leaves (f : Frame) (fs : List Frame) : Prop where
  tail : ∀ g ∈ fs.tail, g.quiet = true
  head : ∀ g ∈ fs.head?, g.holdsRun = true → (f.needsRun || f.holdsRun) = true

theorem Leaves.of_quiet {f : Frame} {fs : List Frame} (h : ∀ g ∈ fs, g.quiet = true) : Leaves f fs where
  tail g hg := h g (List.mem_of_mem_tail hg)
  head g hg hholds := by
    have hq := h g (List.mem_of_mem_head? hg)
    rw [Frame.quiet, hholds] at hq
    simp at hq

theorem Leaves.of_single {f g : Frame} (h : g.holdsRun = true → (f.needsRun || f.holdsRun) = true) :
    Leaves f [g] where
  tail g hg := by cases hg
  head g' hg' hholds := by
    rw [List.head?_cons, Option.mem_some_iff] at hg'
    subst hg'
    exact h hholds

theorem Leaves.nil {f : Frame} : Leaves f [] := .of_quiet (by simp)

theorem advance_leaves (c : Choice) (f : Frame) : Leaves f (e.advance c f).2 := by
  cases f with
  | watchdogDead now workerId dead expired => exact .of_quiet (reclaim_quiet now dead _)
  | watchdog => exact .of_quiet (reclaim_quiet _ _ _)
  | cancelWorkflowNodes w =>
      refine .of_quiet fun g hg => ?_
      simp only [advance, cancelWorkflowNodes, List.mem_append, List.mem_map, List.mem_singleton] at hg
      rcases hg with ⟨j, -, rfl⟩ | rfl <;> rfl
  | skipMetric jobs =>
      refine .of_quiet fun g hg => ?_
      simp only [advance, skipMetric, List.mem_flatMap, List.mem_cons, List.not_mem_nil, or_false] at hg
      obtain ⟨j, -, rfl | rfl⟩ := hg <;> rfl
  | claimRest workerId maxJobs first =>
      refine .of_quiet fun g hg => ?_
      obtain ⟨x, -, rfl⟩ := List.mem_map.mp hg
      rfl
  | release parent =>
      refine .of_quiet fun g hg => ?_
      obtain ⟨child, rfl⟩ := mem_release hg
      rfl
  | finishTerminal job token => exact .of_quiet (tail_quiet job _)
  | _ =>
      simp only [advance, cancel, cancelFlag, cancelWrite, cancelWorkflow, cancelWorkflowWrite, workerPop, claim,
        claimFirst, complete, completeRead, start, startWrite, startFailed, startRunning, handler, finish,
        finishRecord, finishRetry, expire, expireWrite, onTerminal, releaseGet, releaseWrite, skip, skipLoop,
        skipWrite, skipChildren, account, finalize]
      (repeat' split) <;>
        first
          | exact .nil
          | exact .of_single (by simp [Frame.holdsRun, Frame.needsRun])
          | exact .of_quiet (tail_quiet _ _)
          | exact .of_quiet (by simp [Frame.quiet, Frame.overwrites, Frame.holdsRun])

end JobEngine

/-! ### The pool -/

/-- The engine's threads as a pool. -/
def engineSystem : System JobEngine Frame Choice where
  advance := JobEngine.advance
  needs := Frame.needsRun
  holds := Frame.holdsRun
  parks := Frame.parks

/-- A call that submits a single job or a workflow, in one step. -/
inductive Submits (e : JobEngine) : JobEngine → Prop
  | job (req : SubmitRequest) (hwf : req.workflowId = "") (hdeps : req.pendingDeps = 0) :
      Submits e (e.submit req).2
  | workflow (name : String) (nodes : List WorkflowNodeSpec) (edges : List (String × String)) :
      Submits e (e.submitWorkflow name nodes edges).2

theorem Submits.invariant {P : JobEngine → Prop} {e e' : JobEngine} (h : Submits e e')
    (hP : JobEngine.SubmitInvariant P)
    (he : P e) : P e' := by
  cases h with
  | job req _ _ => exact hP.submit he req
  | workflow name nodes edges => exact hP.submitWorkflow he name nodes edges

/-- What all frames together owe. -/
def duesIn (F : Multiset Frame) : Multiset Due := (F.map Frame.dues).sum

theorem duesIn_cons (f : Frame) (F : Multiset Frame) : duesIn (f ::ₘ F) = f.dues + duesIn F := by
  simp [duesIn]

theorem duesIn_add (F G : Multiset Frame) : duesIn (F + G) = duesIn F + duesIn G := by
  simp [duesIn]

theorem duesIn_coe (fs : List Frame) : duesIn (fs : Multiset Frame) = duesOf fs := by
  simp [duesIn, duesOf]

theorem mem_duesIn {x : Due} {F : Multiset Frame} : x ∈ duesIn F ↔ ∃ f ∈ F, x ∈ f.dues := by
  induction F using Multiset.induction_on with
  | empty => simp [duesIn]
  | cons f F ih =>
      rw [duesIn_cons, Multiset.mem_add, ih]
      simp

theorem countP_locked_duesIn (F : Multiset Frame) :
    (duesIn F).countP (·.locked) ≤ F.countP (·.holdsRun) := by
  induction F using Multiset.induction_on with
  | empty => simp [duesIn]
  | cons f F ih =>
      have hf := f.countP_locked_le
      rw [duesIn_cons, Multiset.countP_add, Multiset.countP_cons]
      cases hh : f.holdsRun <;> rw [hh] at hf <;> simp at hf ⊢ <;> omega

/-- Only one frame is inside a block under `run_mutex_`, as after every step that respects it. -/
theorem holders_advance {e : JobEngine} {c : Choice} {f : Frame} {O : Multiset Frame}
    (hfree : engineSystem.Free f O) (h : (f ::ₘ O).countP (·.holdsRun) ≤ 1) :
    (((e.advance c f).2 : Multiset Frame) + O).countP (·.holdsRun) ≤ 1 := by
  have hleaves := JobEngine.advance_leaves (e := e) c f
  have htail : (e.advance c f).2.tail.countP (fun g => g.holdsRun) = 0 := by
    rw [List.countP_eq_zero]
    intro g hg hh
    have hq := hleaves.tail g hg
    rw [Frame.quiet, hh] at hq
    simp at hq
  rw [Multiset.countP_add]
  rw [Multiset.countP_cons] at h
  have hsplit : ((e.advance c f).2 : Multiset Frame).countP (·.holdsRun) ≤
      if ∃ g ∈ (e.advance c f).2.head?, g.holdsRun = true then 1 else 0 := by
    rw [Multiset.coe_countP]
    cases hfs : (e.advance c f).2 with
    | nil => simp
    | cons g fs =>
        rw [hfs, List.tail_cons] at htail
        rw [List.countP_cons]
        simp only [List.head?_cons, Option.mem_some_iff, exists_eq_left']
        split_ifs <;> simp_all
  by_cases hhead : ∃ g ∈ (e.advance c f).2.head?, g.holdsRun = true
  · rw [if_pos hhead] at hsplit
    obtain ⟨g, hg, hh⟩ := hhead
    have hOr := hleaves.head g hg hh
    have hO : O.countP (·.holdsRun) = 0 := by
      rcases Bool.or_eq_true_iff.mp hOr with hneeds | hholds
      · rw [Multiset.countP_eq_zero]
        intro g' hg' hh'
        have hfalse := hfree hneeds g' hg'
        exact Bool.false_ne_true (hfalse.symm.trans hh')
      · rw [if_pos hholds] at h
        omega
    omega
  · rw [if_neg hhead] at hsplit
    omega

end DistributedJobEngine
