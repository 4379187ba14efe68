import DistributedJobEngine.EngineRaces

/-! Leases under any interleaving. A lease is issued once, leaves `running_` by the fence of
`finish_attempt` or by a revocation, and only what passes the fence records an outcome. Nothing here
depends on the rows: store writes may fail and threads may race. -/

namespace DistributedJobEngine

open LibPool

namespace Receipt

def fences (t : UInt64) : Receipt → Bool
  | fenced t' _ => t' = t
  | _ => false

/-- The lease `t` left `running_`. -/
def closes (t : UInt64) : Receipt → Bool
  | fenced t' _ | revoked t' => t' = t
  | _ => false

end Receipt

/-- The frames that have nothing to do with leases, remote workers and calls of `complete`. -/
def Frame.aside : Frame → Bool
  | cancelSignal _ | claim _ _ | registerWorker _ _ | heartbeat _ | complete _ | completeRead _ _ _ | reply _ _
  | startWrite _ _ _ _ | finish _ _ _ _ | finishRecord _ _ _ | finishRetry _ _ | finishTerminal _ _ | watchdog
  | expire _ _ _ | metric _ | callback _ | slot _ _ | skipMetric _ | account _ _ | cancelWorkflowDone _
  | enqueue _ _ => false
  | _ => true

/-- The frame works for a lease that passed the fence. -/
def Frame.past : Frame → Bool
  | finishRecord _ _ _ | finishRetry _ _ | finishTerminal _ _ => true
  | enqueue _ token | slot _ token => token.isSome
  | _ => false

/-- The frame belongs to a call of `complete` that is to be answered. -/
def Frame.voice : Frame → Bool
  | completeRead _ _ _ | reply _ _ => true
  | finish _ _ _ call => call.isSome
  | _ => false

/-- The frame is in a call of `complete` or `finish_attempt` with the token `t`, up to the fence. -/
def Frame.carries (t : UInt64) : Frame → Prop
  | complete c => c.leaseToken = t
  | completeRead _ info _ | handler _ info | finish _ info _ _ => info.leaseToken = t
  | _ => False

/-- The three effects of `finish_attempt` past its fence. -/
inductive Stage where
  | record | write | settle
  deriving DecidableEq

namespace Stage

/-- The frame still has to bring about the effect for the lease `t`. -/
def owes (t : UInt64) : Stage → Frame → Bool
  | record, .finishRecord _ info _ => info.leaseToken = t
  | write, .finishRecord _ info _ => info.leaseToken = t
  | write, .finishRetry _ t' | write, .finishTerminal _ t' => t' = t
  | settle, .finishRecord _ info _ => info.leaseToken = t
  | settle, .finishRetry _ t' | settle, .finishTerminal _ t' => t' = t
  | settle, .enqueue _ token | settle, .slot _ token => token = some t
  | _, _ => false

theorem owes_of_past {t : UInt64} {s : Stage} {f : Frame} (h : f.past = false) : s.owes t f = false := by
  cases f <;> cases s <;> simp_all [owes, Frame.past]

/-- The receipt of the effect. -/
def pays (t : UInt64) : Stage → Receipt → Bool
  | record, .recorded t' => t' = t
  | write, .written t' => t' = t
  | settle, .requeued t' | settle, .accounted t' => t' = t
  | _, _ => false

end Stage

namespace JobEngine

variable {e e' : JobEngine}

/-- How many entries of `running_` carry the token `t`. -/
def held (e : JobEngine) (t : UInt64) : ℕ := e.running.entries.countP fun kv => kv.2.leaseToken = t

/-- What a step does to leases: it adds the receipts `l` and leaves the frames `fs`. -/
structure Transfers (e e' : JobEngine) (f : Frame) (fs : List Frame) (l : List Receipt) : Prop where
  ledger : e'.ledger = e.ledger ++ l
  lease : ∀ t, e'.held t + l.countP (·.closes t) ≤ e.held t + l.count (.issued t)
  stage : ∀ t (s : Stage), l.countP (s.pays t) + fs.countP (s.owes t) ≤
    (s.owes t f).toNat + l.countP (·.fences t)

/-- A step past the fence moves one effect of its lease from the frames to the ledger. -/
theorem Transfers.past {f : Frame} {fs : List Frame} {l : List Receipt} (hledger : e'.ledger = e.ledger ++ l)
    (hrunning : e'.running = e.running) (hcloses : ∀ t, ∀ r ∈ l, r.closes t = false)
    (hstage : ∀ t (s : Stage), l.countP (s.pays t) + fs.countP (s.owes t) ≤ (s.owes t f).toNat) :
    e.Transfers e' f fs l where
  ledger := hledger
  lease t := by
    have hl : l.countP (·.closes t) = 0 := List.countP_eq_zero.mpr fun r hr => by simp [hcloses t r hr]
    rw [hl, held, hrunning]
    exact Nat.le_add_right _ _
  stage t s := (hstage t s).trans (Nat.le_add_right _ _)

/-- A step that has nothing to do with leases. -/
theorem Transfers.silent {f : Frame} {fs : List Frame} {l : List Receipt} (hledger : e'.ledger = e.ledger ++ l)
    (hrunning : e'.running = e.running) (hcloses : ∀ t, ∀ r ∈ l, r.closes t = false)
    (hpays : ∀ t (s : Stage), ∀ r ∈ l, s.pays t r = false) (hpast : ∀ g ∈ fs, g.past = false) :
    e.Transfers e' f fs l := by
  refine .past hledger hrunning hcloses fun t s => ?_
  have hl : l.countP (s.pays t) = 0 := List.countP_eq_zero.mpr fun r hr => by simp [hpays t s r hr]
  have hfs : fs.countP (s.owes t) = 0 := List.countP_eq_zero.mpr fun g hg => by
    simp [Stage.owes_of_past (hpast g hg)]
  rw [hl, hfs]
  exact Nat.zero_le _

/-- The same, without any receipt. -/
theorem Transfers.quiet {f : Frame} {fs : List Frame} (hledger : e'.ledger = e.ledger)
    (hrunning : e'.running = e.running) (hpast : ∀ g ∈ fs, g.past = false) :
    e.Transfers e' f fs [] :=
  .silent (by rw [hledger, List.append_nil]) hrunning (fun _ _ h => by cases h) (fun _ _ _ h => by cases h) hpast

/-- A receipt of something else, and no frames. -/
theorem Transfers.receipt {f : Frame} {fs : List Frame} {r : Receipt} (hledger : e'.ledger = e.ledger ++ [r])
    (hrunning : e'.running = e.running) (hfs : fs = []) (hcloses : ∀ t, r.closes t = false)
    (hpays : ∀ t (s : Stage), s.pays t r = false) : e.Transfers e' f fs [r] := by
  refine .silent hledger hrunning (fun t r' hr => ?_) (fun t s r' hr => ?_) fun g hg => ?_
  · rw [List.mem_singleton.mp hr]
    exact hcloses t
  · rw [List.mem_singleton.mp hr]
    exact hpays t s
  · rw [hfs] at hg
    cases hg

theorem past_tail (row : Job) : ∀ g ∈ Frame.tail row none, g.past = false ∧ g.voice = false := by
  simp [Frame.tail, Frame.past, Frame.voice]

theorem past_reclaim (now : Int) (dead : List WorkerId) (expired : List (JobId × UInt64)) :
    ∀ g ∈ reclaim now dead expired, g.past = false ∧ g.voice = false := by
  intro g hg
  cases dead with
  | nil =>
      obtain ⟨j, -, rfl⟩ := List.mem_map.mp hg
      exact ⟨rfl, rfl⟩
  | cons w dead =>
      rw [List.mem_singleton.mp hg]
      exact ⟨rfl, rfl⟩

/-! ### `running_` -/

section Running

variable (running : AList fun _ : JobId => RunningInfo) (j : JobId)

/-- The entry that is removed is counted once. -/
theorem countP_erase {info : RunningInfo} (h : running.lookup j = some info) (q : (Σ _ : JobId, RunningInfo) → Bool) :
    (running.erase j).entries.countP q + (q ⟨j, info⟩).toNat = running.entries.countP q := by
  have hmem : j ∈ running.entries.keys := AList.mem_keys.mp (AList.lookup_isSome.mp (by rw [h]; rfl))
  obtain ⟨info', l₁, l₂, hj, hentries, herase⟩ := List.exists_of_kerase hmem
  have hinfo : info' = info := by
    have hin : (⟨j, info'⟩ : Σ _ : JobId, RunningInfo) ∈ running.entries := by
      rw [hentries]
      exact List.mem_append_right _ List.mem_cons_self
    have hlookup := AList.mem_lookup_iff.mpr hin
    rw [h, Option.mem_some_iff] at hlookup
    exact hlookup.symm
  change (List.kerase j running.entries).countP q + _ = _
  rw [herase, hentries, hinfo, List.countP_append, List.countP_append, List.countP_cons,
    add_assoc]
  cases q ⟨j, info⟩ <;> rfl

theorem countP_erase_le (q : (Σ _ : JobId, RunningInfo) → Bool) :
    (running.erase j).entries.countP q ≤ running.entries.countP q := by
  cases h : running.lookup j with
  | none =>
      have hnot : j ∉ running.entries.keys := fun hmem => by
        have hsome := AList.lookup_isSome.mpr (AList.mem_keys.mpr hmem)
        rw [h] at hsome
        cases hsome
      change (List.kerase j running.entries).countP q ≤ _
      rw [List.kerase_of_notMem_keys hnot]
  | some info =>
      have hcount := countP_erase running j h q
      omega

theorem countP_insert_le (info : RunningInfo) (q : (Σ _ : JobId, RunningInfo) → Bool) :
    (running.insert j info).entries.countP q ≤ running.entries.countP q + (q ⟨j, info⟩).toNat := by
  have hle := countP_erase_le running j q
  change (List.kerase j running.entries).countP q ≤ _ at hle
  change (⟨j, info⟩ :: List.kerase j running.entries).countP q ≤ _
  rw [List.countP_cons]
  cases q ⟨j, info⟩ <;> simp <;> omega

/-- A change of the values that keeps the tokens. -/
theorem countP_mapRunning {g : RunningInfo → RunningInfo} (hg : ∀ info, (g info).leaseToken = info.leaseToken)
    (t : UInt64) : (mapRunning g running).entries.countP (fun kv => kv.2.leaseToken = t) =
      running.entries.countP fun kv => kv.2.leaseToken = t := by
  change (running.entries.map _).countP _ = _
  rw [List.countP_map]
  refine List.countP_congr fun kv _ => ?_
  simp [hg]

end Running

/-! ### Steps -/

/-- What leases, workers and calls of `complete` are about. -/
structure Desk where
  running : AList (fun _ : JobId => RunningInfo)
  remoteWorkers : AList (fun _ : WorkerId => WorkerInfo)
  cells : List CancelCell
  ledger : List Receipt
  calls : ℕ

def desk (e : JobEngine) : Desk := ⟨e.running, e.remoteWorkers, e.cells, e.ledger, e.calls⟩

@[simp] theorem updateJob_desk (job : Job) : (e.updateJob job).2.desk = e.desk := by
  unfold updateJob
  split <;> rfl

@[simp] theorem persist_desk (job : Job) : (e.persist job).desk = e.desk := by
  unfold persist updateJob
  split_ifs <;> rfl

@[simp] theorem enqueue_desk (job : Job) : (e.enqueue job).desk = e.desk := by
  unfold enqueue
  dsimp only
  split <;> rfl

@[simp] theorem updateJob_ledger (job : Job) : (e.updateJob job).2.ledger = e.ledger :=
  congrArg Desk.ledger (updateJob_desk job)

@[simp] theorem updateJob_running (job : Job) : (e.updateJob job).2.running = e.running :=
  congrArg Desk.running (updateJob_desk job)

@[simp] theorem persist_ledger (job : Job) : (e.persist job).ledger = e.ledger :=
  congrArg Desk.ledger (persist_desk job)

@[simp] theorem persist_running (job : Job) : (e.persist job).running = e.running :=
  congrArg Desk.running (persist_desk job)

@[simp] theorem enqueue_ledger (job : Job) : (e.enqueue job).ledger = e.ledger :=
  congrArg Desk.ledger (enqueue_desk job)

@[simp] theorem enqueue_running (job : Job) : (e.enqueue job).running = e.running :=
  congrArg Desk.running (enqueue_desk job)

/-- A step of a frame that is `aside` leaves the desk alone. -/
theorem advance_desk (c : Choice) {f : Frame} (hf : f.aside = true) : (e.advance c f).1.desk = e.desk := by
  cases f with
  | workerPop owner | claimFirst workerId maxJobs =>
      simp only [advance, workerPop, claimFirst]
      split <;> rfl
  | cancelFlag job | cancelWrite job =>
      simp only [advance, cancelFlag, cancelWrite, updateJob]
      split_ifs <;> rfl
  | expireWrite now job =>
      simp only [advance, expireWrite]
      split <;> exact updateJob_desk _
  | cancelWorkflow w | cancelWorkflowWrite w | release w =>
      simp only [advance, cancelWorkflow, cancelWorkflowWrite, release]
      (repeat' split) <;> rfl
  | releaseWrite job => exact persist_desk _
  | skipWrite w job => exact persist_desk _
  | cancel _ | cancelRemove _ | cancelWorkflowNodes _ | claimRest _ _ _ | start _ _ _ _ | handler _ _
  | watchdogDead _ _ _ _ | onTerminal _ | releaseGet _ | skip _ | skipLoop _ | skipRemove _ _ | skipChildren _ _
  | finalize _ _ | finalizeWrite _ _ => rfl
  | _ => cases hf

/-- Such a step leaves no frame that is past a fence or about to answer a call. -/
theorem frames_aside (c : Choice) {f : Frame} (hf : f.aside = true) :
    ∀ g ∈ (e.advance c f).2, g.past = false ∧ g.voice = false := by
  cases f with
  | watchdogDead now workerId dead expired => exact past_reclaim _ _ _
  | cancelWorkflowNodes w =>
      intro g hg
      simp only [advance, cancelWorkflowNodes, List.mem_append, List.mem_map, List.mem_singleton] at hg
      rcases hg with ⟨j, -, rfl⟩ | rfl <;> exact ⟨rfl, rfl⟩
  | claimRest workerId maxJobs first =>
      intro g hg
      obtain ⟨x, -, rfl⟩ := List.mem_map.mp hg
      exact ⟨rfl, rfl⟩
  | release parent =>
      intro g hg
      obtain ⟨child, rfl⟩ := mem_release hg
      exact ⟨rfl, rfl⟩
  | cancelWrite job =>
      simp only [advance, cancelWrite, updateJob]
      split_ifs
      · simp
      · exact past_tail _
  | expireWrite now job =>
      simp only [advance, expireWrite]
      split
      · exact past_tail _
      · simp [Frame.past, Frame.voice]
  | cancelFlag job =>
      simp only [advance, cancelFlag, updateJob]
      split_ifs <;> simp [Frame.past, Frame.voice]
  | workerPop _ | claimFirst _ _ =>
      simp only [advance, workerPop, claimFirst]
      (repeat' split) <;> simp [Frame.past, Frame.voice]
  | skipLoop w =>
      simp only [advance, skipLoop]
      (repeat' split) <;> simp [Frame.past, Frame.voice]
  | cancel _ | cancelWorkflow _ | cancelWorkflowWrite _ | start _ _ _ _ | handler _ _ =>
      simp only [advance, cancel, cancelWorkflow, cancelWorkflowWrite, start, handler]
      (repeat' split) <;> simp [Frame.past, Frame.voice]
  | onTerminal _ | releaseGet _ | skip _ | finalize _ _ =>
      simp only [advance, onTerminal, releaseGet, skip, finalize]
      (repeat' split) <;> simp [Frame.past, Frame.voice]
  | cancelRemove _ | releaseWrite _ | skipRemove _ _ | skipWrite _ _ | skipChildren _ _ | finalizeWrite _ _ =>
      simp [advance, releaseWrite, skipWrite, skipChildren, Frame.past, Frame.voice]
  | _ => cases hf

theorem Transfers.aside (c : Choice) {f : Frame} (hf : f.aside = true) :
    e.Transfers (e.advance c f).1 f (e.advance c f).2 [] :=
  .quiet (congrArg Desk.ledger (advance_desk c hf)) (congrArg Desk.running (advance_desk c hf))
    fun g hg => (frames_aside c hf g hg).1

theorem finish_transfers (job : Job) (info : RunningInfo) (outcome : Outcome) (call : Option ℕ) :
    ∃ l, e.Transfers (e.finish job info outcome call).1 (.finish job info outcome call)
      (e.finish job info outcome call).2 l := by
  unfold finish
  split
  · rename_i held hlookup
    split
    · rename_i htoken
      refine ⟨[.fenced info.leaseToken call], rfl, fun t => ?_, fun t s => ?_⟩
      · have hcount := countP_erase e.running job.jobId hlookup fun kv => kv.2.leaseToken = t
        have hcloses : [Receipt.fenced info.leaseToken call].countP (·.closes t) =
            (decide (held.leaseToken = t)).toNat := by
          rw [htoken, List.countP_singleton]
          simp [Receipt.closes, Bool.toNat]
        rw [hcloses, show [Receipt.fenced info.leaseToken call].count (.issued t) = 0 from rfl]
        exact hcount.le
      · cases s <;> simp [Stage.pays, Stage.owes, Receipt.fences]
    · exact ⟨[], .quiet rfl rfl (by simp)⟩
  · exact ⟨[], .quiet rfl rfl (by simp)⟩

theorem startWrite_transfers (job : Job) (owner : String) (eligibleAt : Int) (remote : Bool) :
    ∃ l, e.Transfers (e.startWrite job owner eligibleAt remote).1 (.startWrite job owner eligibleAt remote)
      (e.startWrite job owner eligibleAt remote).2 l := by
  unfold startWrite
  split
  · exact ⟨[], .quiet (updateJob_ledger _) (updateJob_running _) fun g hg => (past_tail _ g hg).1⟩
  · dsimp only
    unfold updateJob
    split_ifs
    · exact ⟨[], .quiet rfl rfl (by simp [startFailed, Frame.past])⟩
    · generalize hrow : e.startedRow job owner eligibleAt remote = row
      refine ⟨[.issued row.leaseToken], rfl, fun t => ?_, fun t s => ?_⟩
      · have hcount := countP_insert_le e.running row.jobId (leaseOf row e.cells.length owner eligibleAt remote)
          fun kv => kv.2.leaseToken = t
        have hissued : [Receipt.issued row.leaseToken].count (.issued t) =
            (decide (row.leaseToken = t)).toNat := by
          rw [List.count_singleton]
          simp [Bool.toNat]
        rw [hissued]
        exact hcount
      · cases remote <;> cases s <;> simp [startRunning, Stage.pays, Stage.owes, Receipt.fences]

theorem finishRecord_transfers (job : Job) (info : RunningInfo) (outcome : Outcome) :
    ∃ l, e.Transfers (e.finishRecord job info outcome).1 (.finishRecord job info outcome)
      (e.finishRecord job info outcome).2 l := by
  refine ⟨if e.world.fault e.world.pos then [] else [.recorded info.leaseToken], .past ?_ ?_ ?_ fun t s => ?_⟩
  · simp only [finishRecord]
    split_ifs
    · exact (List.append_nil _).symm
    · rfl
  · simp only [finishRecord]
    split_ifs <;> rfl
  · intro t r hr
    split_ifs at hr
    · cases hr
    · rw [List.mem_singleton.mp hr]
      rfl
  · simp only [finishRecord]
    by_cases ht : info.leaseToken = t <;> cases s <;> split_ifs <;> simp [Stage.pays, Stage.owes, ht]

theorem slot_transfers (jobId : JobId) (token : Option UInt64) :
    ∃ l, e.Transfers (e.slot jobId token) (.slot jobId token) [] l := by
  refine ⟨.slot jobId :: (token.map Receipt.accounted).toList, .past ?_ ?_ ?_ fun t s => ?_⟩
  · cases token <;> simp [slot, record, releaseSlot]
  · cases token <;> rfl
  · cases token <;> simp [Receipt.closes]
  · by_cases ht : token = some t <;> cases token <;> cases s <;> simp_all [Stage.pays, Stage.owes]

theorem requeue_transfers (job : Job) (token : Option UInt64) :
    ∃ l, e.Transfers (e.requeue job token) (.enqueue job token) [] l := by
  refine ⟨(token.map Receipt.requeued).toList, .past ?_ ?_ ?_ fun t s => ?_⟩
  · cases token <;> simp [requeue, record]
  · cases token <;> simp [requeue, record]
  · cases token <;> simp [Receipt.closes]
  · by_cases ht : token = some t <;> cases token <;> cases s <;> simp_all [Stage.pays, Stage.owes]

theorem expire_transfers (now : Int) (jobId : JobId) (selected : List UInt64) :
    ∃ l, e.Transfers (e.expire now jobId).1 (.expire now jobId selected) (e.expire now jobId).2 l := by
  unfold expire
  split
  · exact ⟨[], .quiet rfl rfl (by simp)⟩
  · rename_i info hlookup
    refine ⟨[.revoked info.leaseToken], rfl, fun t => ?_, fun t s => ?_⟩
    · have hcount := countP_erase e.running jobId hlookup fun kv => kv.2.leaseToken = t
      have hcloses : [Receipt.revoked info.leaseToken].countP (·.closes t) =
          (decide (info.leaseToken = t)).toNat := by
        rw [List.countP_singleton]
        simp [Receipt.closes, Bool.toNat]
      rw [hcloses, show [Receipt.revoked info.leaseToken].count (.issued t) = 0 from rfl]
      exact hcount.le
    · dsimp only
      split
      · cases s <;> simp [Stage.pays]
      · split_ifs <;> cases s <;> simp [Stage.pays, Stage.owes]

theorem heartbeat_transfers (workerId : WorkerId) :
    e.Transfers (e.heartbeat workerId) (.heartbeat workerId) [] [] where
  ledger := by
    unfold heartbeat
    split <;> exact (List.append_nil _).symm
  lease t := by
    rw [List.countP_nil, List.count_nil]
    unfold heartbeat
    split
    · exact le_refl _
    · refine (countP_mapRunning e.running (fun info => ?_) t).le
      split_ifs <;> rfl
  stage t s := Nat.zero_le _

theorem finishRetry_transfers (job : Job) (token : UInt64) :
    ∃ l, e.Transfers (e.finishRetry job token).1 (.finishRetry job token) (e.finishRetry job token).2 l := by
  refine ⟨[.written token], .past ?_ (persist_running job) ?_ fun t s => ?_⟩
  · simp [finishRetry, record]
  · simp [Receipt.closes]
  · by_cases ht : token = t <;> cases s <;> simp [finishRetry, Stage.pays, Stage.owes, ht]

theorem finishTerminal_transfers (job : Job) (token : UInt64) :
    ∃ l, e.Transfers (e.finishTerminal job token).1 (.finishTerminal job token) (e.finishTerminal job token).2 l := by
  refine ⟨[.written token], .past ?_ (persist_running job) ?_ fun t s => ?_⟩
  · simp [finishTerminal, record]
  · simp [Receipt.closes]
  · by_cases ht : token = t <;> cases s <;> simp [finishTerminal, Frame.tail, Stage.pays, Stage.owes, ht]

theorem account_transfers (job : Job) (skipped : List JobId) :
    ∃ l, e.Transfers (e.account job skipped).1 (.account job skipped) (e.account job skipped).2 l := by
  have hunits : ∀ js : List JobId, ∀ t, ∀ r ∈ js.map Receipt.unit, r.closes t = false := by
    intro js t r hr
    obtain ⟨j, -, rfl⟩ := List.mem_map.mp hr
    rfl
  have hpays : ∀ js : List JobId, ∀ t (s : Stage), ∀ r ∈ js.map Receipt.unit, s.pays t r = false := by
    intro js t s r hr
    obtain ⟨j, -, rfl⟩ := List.mem_map.mp hr
    cases s <;> rfl
  simp only [account]
  split
  · exact ⟨[], .quiet rfl rfl (by simp)⟩
  · rename_i r _
    by_cases hlast : r - (1 + (skipped.length : Int)) ≤ 0
    · simp only [hlast, if_true]
      exact ⟨_, .silent rfl rfl (hunits _) (hpays _) (by simp [Frame.past])⟩
    · simp only [hlast, if_false]
      exact ⟨_, .silent rfl rfl (hunits _) (hpays _) (by simp)⟩

theorem skipMetric_transfers (jobs : List Job) :
    ∃ l, e.Transfers (e.skipMetric jobs).1 (.skipMetric jobs) (e.skipMetric jobs).2 l := by
  refine ⟨_, .silent rfl rfl (fun t r hr => ?_) (fun t s r hr => ?_) fun g hg => ?_⟩
  · obtain ⟨j, -, rfl⟩ := List.mem_map.mp hr
    rfl
  · obtain ⟨j, -, rfl⟩ := List.mem_map.mp hr
    cases s <;> rfl
  · obtain ⟨j, -, hg⟩ := List.mem_flatMap.mp hg
    simp only [List.mem_cons, List.not_mem_nil, or_false] at hg
    rcases hg with rfl | rfl <;> rfl

/-- **Every step moves leases on.** -/
theorem advance_transfers (c : Choice) (f : Frame) :
    ∃ l, e.Transfers (e.advance c f).1 f (e.advance c f).2 l := by
  cases f with
  | finish job info outcome call => exact finish_transfers job info outcome call
  | startWrite job owner eligibleAt remote => exact startWrite_transfers job owner eligibleAt remote
  | finishRecord job info outcome => exact finishRecord_transfers job info outcome
  | finishRetry job token => exact finishRetry_transfers job token
  | finishTerminal job token => exact finishTerminal_transfers job token
  | slot jobId token => exact slot_transfers jobId token
  | enqueue job token => exact requeue_transfers job token
  | expire now jobId selected => exact expire_transfers now jobId selected
  | heartbeat workerId => exact ⟨[], heartbeat_transfers workerId⟩
  | account job skipped => exact account_transfers job skipped
  | skipMetric jobs => exact skipMetric_transfers jobs
  | metric job => exact ⟨_, .receipt rfl rfl rfl (fun t => rfl) fun t s => by cases s <;> rfl⟩
  | callback job => exact ⟨_, .receipt rfl rfl rfl (fun t => rfl) fun t s => by cases s <;> rfl⟩
  | cancelWorkflowDone w => exact ⟨_, .receipt rfl rfl rfl (fun t => rfl) fun t s => by cases s <;> rfl⟩
  | reply call status => exact ⟨_, .receipt rfl rfl rfl (fun t => rfl) fun t s => by cases s <;> rfl⟩
  | cancelSignal jobId =>
      refine ⟨[], .quiet ?_ ?_ (by simp [advance])⟩ <;>
        simp only [advance, cancelSignal] <;> split <;> rfl
  | claim workerId maxJobs =>
      simp only [advance, claim]
      split
      · exact ⟨[], .quiet rfl rfl (by simp)⟩
      · refine ⟨[], .quiet rfl rfl ?_⟩
        split_ifs <;> simp [Frame.past]
  | registerWorker name capacity => exact ⟨[], .quiet rfl rfl (by simp [advance])⟩
  | complete msg =>
      simp only [advance, complete]
      (repeat' split) <;> exact ⟨[], .quiet rfl rfl (by simp [Frame.past])⟩
  | completeRead msg info call =>
      simp only [advance, completeRead]
      (repeat' split) <;> exact ⟨[], .quiet rfl rfl (by simp [Frame.past])⟩
  | watchdog =>
      obtain ⟨cells, ws, n, h⟩ := exists_watchdog (e := e)
      simp only [advance, h]
      exact ⟨[], .quiet rfl rfl fun g hg => (past_reclaim _ _ _ g hg).1⟩
  | _ =>
      exact ⟨[], .aside c rfl⟩

/-! ### New jobs -/

theorem Submits.desk (h : Submits e e') : e'.desk = e.desk := by
  refine h.invariant (P := fun e' => e'.desk = e.desk) ⟨fun _ _ h => h, fun _ _ _ _ h => h, fun _ h => h,
    fun _ _ h => h, fun hins h => ?_, fun hins _ h => ?_, fun _ job h => (enqueue_desk job).trans h⟩ rfl
  · obtain ⟨t, -, rfl⟩ := insertJob_eq_ok hins
    exact h
  · obtain ⟨db, -, rfl⟩ := insertWorkflow_eq_ok hins
    exact h

/-! ### Runs -/

theorem count_add_count (l : List Receipt) {a b : Receipt} (hab : a ≠ b) :
    l.count a + l.count b = l.countP fun r => r = a ∨ r = b := by
  induction l with
  | nil => rfl
  | cons r l ih =>
      rw [List.count_cons, List.count_cons, List.countP_cons, ← ih]
      by_cases ha : r = a
      · subst ha
        simp [hab]
        omega
      · by_cases hb : r = b
        · subst hb
          simp [ha]
          omega
        · simp [ha, hb]

/-- Every lease left `running_` at most as often as it was issued, and past its fence each effect happens
at most once. -/
structure Leased (e : JobEngine) (F : Multiset Frame) : Prop where
  lease : ∀ t, e.held t + e.ledger.countP (·.closes t) ≤ e.ledger.count (.issued t)
  stage : ∀ t (s : Stage), e.ledger.countP (s.pays t) + F.countP (fun f => s.owes t f = true) ≤
    e.ledger.countP (·.fences t)

theorem Leased.advance {c : Choice} {f : Frame} {O : Multiset Frame} (h : e.Leased (f ::ₘ O)) :
    (e.advance c f).1.Leased (((e.advance c f).2 : Multiset Frame) + O) := by
  obtain ⟨l, hl⟩ := advance_transfers (e := e) c f
  constructor
  · intro t
    have h1 := h.lease t
    have h2 := hl.lease t
    rw [hl.ledger, List.countP_append, List.count_append]
    omega
  · intro t s
    have h1 := h.stage t s
    have h2 := hl.stage t s
    rw [Multiset.countP_cons] at h1
    rw [hl.ledger, List.countP_append, List.countP_append, Multiset.countP_add, Multiset.coe_countP]
    have h3 : (e.advance c f).2.countP (fun g => decide (s.owes t g = true)) = (e.advance c f).2.countP (s.owes t) :=
      List.countP_congr fun g _ => by simp
    cases howes : s.owes t f <;> simp only [howes, Bool.toNat_true, Bool.toNat_false, if_true, Bool.false_eq_true,
      if_false] at h1 h2 <;> omega

theorem Leased.submits {F : Multiset Frame} (h : e.Leased F) (hsub : Submits e e') : e'.Leased F := by
  have hledger : e'.ledger = e.ledger := congrArg Desk.ledger (Submits.desk hsub)
  have hrunning : e'.running = e.running := congrArg Desk.running (Submits.desk hsub)
  refine ⟨fun t => ?_, fun t s => ?_⟩
  · rw [held, hledger, hrunning]
    exact h.lease t
  · rw [hledger]
    exact h.stage t s

theorem Leased.spawn {f : Frame} {F : Multiset Frame} (h : e.Leased F) (hcall : Call f) : e.Leased (f ::ₘ F) := by
  have hpast : f.past = false := by cases f <;> first | rfl | cases hcall
  refine ⟨h.lease, fun t s => ?_⟩
  rw [Multiset.countP_cons, Stage.owes_of_past hpast]
  exact h.stage t s

section Runs

variable {cfg : EngineConfig} {types : List String} {world : World} {p : Pool JobEngine Frame}

theorem boot_leased : (boot cfg types world).Leased 0 := ⟨fun _ => le_refl 0, fun _ _ => le_refl 0⟩

theorem Leased.run {Ok : JobEngine → Choice → Frame → Multiset Frame → Prop} {p' : Pool JobEngine Frame}
    (h : p.state.Leased p.frames) (hrun : Interleaved Ok p p') : p'.state.Leased p'.frames :=
  hrun.invariant (fun _ _ _ _ _ _ h => h.advance) (fun _ _ _ hsub h => h.submits hsub)
    (fun _ _ _ hcall h => h.spawn hcall) h

/-- No token was drawn twice. -/
def Distinct (e : JobEngine) : Prop := ∀ t, e.ledger.count (.issued t) ≤ 1

/-- The lease `t` was finished or revoked. -/
def Closed (e : JobEngine) (t : UInt64) : Prop := ∃ r ∈ e.ledger, r.closes t = true

theorem held_pos {j : JobId} {info : RunningInfo} (h : e.running.lookup j = some info) :
    0 < e.held info.leaseToken := by
  have hcount := countP_erase e.running j h fun kv => kv.2.leaseToken = info.leaseToken
  rw [decide_eq_true rfl, Bool.toNat_true] at hcount
  rw [held]
  omega

/-- A closed lease has no entry left. -/
theorem Leased.token_ne {F : Multiset Frame} (h : e.Leased F) (hdistinct : e.Distinct) {t : UInt64}
    (hclosed : e.Closed t) {j : JobId} {info : RunningInfo} (hlookup : e.running.lookup j = some info) :
    info.leaseToken ≠ t := by
  intro ht
  have hpos := ht ▸ held_pos hlookup
  have hcloses : 0 < e.ledger.countP (·.closes t) := List.countP_pos_iff.mpr hclosed
  have h1 := h.lease t
  have h2 := hdistinct t
  omega

/-- What a result may change: rows, attempts and workflows, the queue, admission and the workflow counters. -/
structure Estate where
  db : Database
  queue : PriorityJobQueue
  outstanding : ℕ
  children : AList (fun _ : JobId => List JobId)
  pendingDeps : AList (fun _ : JobId => Int)
  wfRemaining : AList (fun _ : WorkflowId => Int)
  wfFailures : AList (fun _ : WorkflowId => Int)

def estate (e : JobEngine) : Estate :=
  ⟨e.db, e.queue, e.outstanding, e.children, e.pendingDeps, e.wfRemaining, e.wfFailures⟩

/-- A late result changes nothing, and what it goes on with are late results again or the answer to the
caller. -/
theorem Leased.late {F : Multiset Frame} (h : e.Leased F) (hdistinct : e.Distinct) {t : UInt64}
    (hclosed : e.Closed t) (c : Choice) {f : Frame} (hf : f.carries t) :
    (e.advance c f).1.estate = e.estate ∧
      ∀ g ∈ (e.advance c f).2, g.carries t ∨ ∃ call status, g = .reply call status := by
  cases f with
  | complete msg =>
      simp only [JobEngine.advance, complete]
      split
      · exact ⟨rfl, by simp⟩
      · rename_i info hlookup
        have hne : info.leaseToken ≠ msg.leaseToken := hf ▸ h.token_ne hdistinct hclosed hlookup
        rw [if_pos (.inl hne)]
        exact ⟨rfl, by simp⟩
  | completeRead msg info call =>
      simp only [JobEngine.advance, completeRead]
      split
      · exact ⟨rfl, by simp⟩
      · refine ⟨?_, fun g hg => ?_⟩
        · split_ifs <;> rfl
        · simp only [List.mem_cons, List.not_mem_nil, or_false] at hg
          rcases hg with rfl | rfl
          · exact .inl hf
          · exact .inr ⟨call, .accepted, rfl⟩
  | handler job info =>
      refine ⟨rfl, fun g hg => .inl ?_⟩
      simp only [JobEngine.advance, handler] at hg
      split_ifs at hg <;> rw [List.mem_singleton.mp hg] <;> exact hf
  | finish job info outcome call =>
      simp only [JobEngine.advance, finish]
      split
      · rename_i held hlookup
        rw [if_neg (hf ▸ h.token_ne hdistinct hclosed hlookup)]
        exact ⟨rfl, by simp⟩
      · exact ⟨rfl, by simp⟩
  | _ => cases hf

/-- **A lease has at most one recorded outcome, and late results change nothing.** -/
theorem recorded_once (hrun : Interleaved AnyStep ⟨boot cfg types world, []⟩ p)
    (hdistinct : p.state.Distinct) (t : UInt64) :
    p.state.ledger.countP (·.closes t) ≤ 1 ∧ p.state.ledger.count (.recorded t) ≤ 1 ∧
    p.state.ledger.count (.written t) ≤ 1 ∧
    p.state.ledger.count (.requeued t) + p.state.ledger.count (.accounted t) ≤ 1 ∧
    (p.state.Closed t → ∀ c f, f.carries t → (p.state.advance c f).1.estate = p.state.estate ∧
      ∀ g ∈ (p.state.advance c f).2, g.carries t ∨ ∃ call status, g = .reply call status) := by
  have h : p.state.Leased p.frames := boot_leased.run (p := ⟨boot cfg types world, []⟩) hrun
  have hissued := hdistinct t
  have hlease := h.lease t
  have hfences : p.state.ledger.countP (·.fences t) ≤ p.state.ledger.countP (·.closes t) :=
    List.countP_mono_left fun r _ hr => by cases r <;> simp_all [Receipt.fences, Receipt.closes]
  have hpaid : ∀ s : Stage, p.state.ledger.countP (s.pays t) ≤ 1 := by
    intro s
    have hstage := h.stage t s
    omega
  refine ⟨by omega, ?_, ?_, ?_, fun hclosed c f hf => h.late hdistinct hclosed c hf⟩
  · rw [List.count]
    exact (List.countP_mono_left fun r _ hr => by cases r <;> simp_all [Stage.pays]).trans (hpaid .record)
  · rw [List.count]
    exact (List.countP_mono_left fun r _ hr => by cases r <;> simp_all [Stage.pays]).trans (hpaid .write)
  · refine le_trans (le_of_eq ?_) (hpaid .settle)
    rw [count_add_count _ (by simp)]
    exact List.countP_congr fun r _ => by cases r <;> simp [Stage.pays]

def issuedReceipts (e : JobEngine) : List Receipt := e.ledger.filter fun r => r matches .issued _

theorem distinct_of_nodup (h : e.issuedReceipts.Nodup) : e.Distinct := by
  intro t
  have hle := List.nodup_iff_count_le_one.mp h (.issued t)
  rwa [issuedReceipts, List.count_filter rfl] at hle

set_option maxRecDepth 8000 in
/-- The result of an embedded attempt, and a duplicate of it that comes after the fence. -/
theorem recorded_once_duplicate : ∃ p, Interleaved AnyStep ⟨boot {} ["t"] {}, []⟩ p ∧
    p.state.Distinct ∧ p.state.Closed 1 ∧ p.state.ledger.count (.recorded 1) ≤ 1 ∧
    (p.state.advance {} (.complete ⟨"w", "j_0", 1, 1, "SUCCEEDED", .null, ""⟩)).1.estate = p.state.estate := by
  have hsched : (engineSystem.execs (fun _ _ _ _ => true) ⟨boot {} ["t"] {}, []⟩
      (runToFence { ok := true } ++ [.run 0 {}])).map (fun p => p.state.ledger) =
        some [.issued 1, .fenced 1 none, .recorded 1] := by
    decide
  obtain ⟨p, hp, hledger⟩ := System.exists_run anyStep
    (List.forall_mem_append.mpr ⟨runToFence_allowed _, by simp [System.Allowed]⟩) hsched
  have hdistinct : p.state.Distinct := distinct_of_nodup (by rw [issuedReceipts, hledger]; decide)
  have hclosed : p.state.Closed 1 := ⟨.fenced 1 none, by rw [hledger]; decide, rfl⟩
  have h := recorded_once hp hdistinct 1
  have hlate := h.2.2.2.2 hclosed {} (.complete ⟨"w", "j_0", 1, 1, "SUCCEEDED", .null, ""⟩) rfl
  exact ⟨p, hp, hdistinct, hclosed, h.2.1, hlate.1⟩

end Runs

end JobEngine

end DistributedJobEngine
