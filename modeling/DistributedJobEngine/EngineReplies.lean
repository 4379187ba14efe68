import DistributedJobEngine.EngineLeases

/-! The answers of `complete`. The verdict is fixed when the lease is checked, while the recording is decided
later by the fence of `finish_attempt`. The two agree as long as nobody takes the entry of `running_` in
between. -/

namespace DistributedJobEngine

open LibPool

namespace Frame

/-- The job and the lease for which a call of `complete` has passed its check. -/
def reports : Frame → Option (JobId × UInt64)
  | completeRead c info _ => some (c.jobId, info.leaseToken)
  | finish job info _ (some _) => some (job.jobId, info.leaseToken)
  | _ => none

/-- The call whose result is about to meet the fence. -/
def fencing : Frame → Option ℕ
  | finish _ _ _ call => call
  | _ => none

/-- The call that is still to be answered. -/
def calls : Frame → Option ℕ
  | completeRead _ _ call | reply call _ => some call
  | _ => none

def accepts : Frame → Option ℕ
  | reply call .accepted => some call
  | _ => none

theorem of_voice {f : Frame} (h : f.voice = false) :
    f.reports = none ∧ f.fencing = none ∧ f.calls = none ∧ f.accepts = none := by
  cases f with
  | finish job info outcome call =>
      cases call with
      | none => exact ⟨rfl, rfl, rfl, rfl⟩
      | some n => cases h
  | completeRead c info call => cases h
  | reply call status => cases h
  | _ => exact ⟨rfl, rfl, rfl, rfl⟩

end Frame

namespace Receipt

/-- The call that brought the result which passed the fence. -/
def fencedBy : Receipt → Option ℕ
  | fenced _ call => call
  | _ => none

def answers : Receipt → Option ℕ
  | replied call _ => some call
  | _ => none

def accepts : Receipt → Option ℕ
  | replied call .accepted => some call
  | _ => none

theorem fencedBy_eq {r : Receipt} {n : ℕ} : r.fencedBy = some n ↔ ∃ t, r = fenced t (some n) := by
  cases r <;> simp [fencedBy]

theorem accepts_eq {r : Receipt} {n : ℕ} : r.accepts = some n ↔ r = replied n .accepted := by
  cases r with
  | replied call status => cases status <;> simp [accepts]
  | _ => simp [accepts]

/-- A receipt of a call of `complete`. -/
def voice : Receipt → Bool
  | fenced _ call => call.isSome
  | replied _ _ => true
  | _ => false

theorem of_voice {r : Receipt} (h : r.voice = false) :
    r.fencedBy = none ∧ r.answers = none ∧ r.accepts = none := by
  cases r with
  | fenced t call =>
      cases call with
      | none => exact ⟨rfl, rfl, rfl⟩
      | some n => cases h
  | replied call status => cases h
  | _ => exact ⟨rfl, rfl, rfl⟩

end Receipt

namespace JobEngine

variable {e e' : JobEngine}

/-- The step of `f` takes the entry of `j` out of `running_` or replaces it. -/
def Takes (e : JobEngine) (f : Frame) (j : JobId) : Prop :=
  match f with
  | .finish job info _ _ => job.jobId = j ∧ ∃ held, e.running.lookup j = some held ∧ held.leaseToken = info.leaseToken
  | .expire _ jobId _ => jobId = j
  | .startWrite job _ _ _ => job.jobId = j
  | _ => False

/-- No step takes the entry of a job for which another thread is between the check of `complete` and the
fence. -/
def Undisturbed (e : JobEngine) (_c : Choice) (f : Frame) (O : Multiset Frame) : Prop :=
  ∀ g ∈ O, ∀ j t, g.reports = some (j, t) → ¬ e.Takes f j

theorem undisturbed_of_reports (e : JobEngine) (c : Choice) (f : Frame) (O : List Frame)
    (h : O.all (·.reports.isNone) = true) : e.Undisturbed c f O := by
  intro g hg j t hj
  have hnone := List.all_eq_true.mp h g hg
  rw [hj] at hnone
  cases hnone

/-! ### Steps that answer no call -/

/-- A step that has nothing to do with calls of `complete`. -/
structure Voiceless (e e' : JobEngine) (fs : List Frame) : Prop where
  frames : ∀ g ∈ fs, g.voice = false
  ledger : ∃ l, e'.ledger = e.ledger ++ l ∧ ∀ r ∈ l, r.voice = false
  calls : e'.calls = e.calls

theorem Voiceless.of_desk {fs : List Frame} (h : e'.desk = e.desk) (hfs : ∀ g ∈ fs, g.voice = false) :
    e.Voiceless e' fs :=
  ⟨hfs, ⟨[], by rw [List.append_nil]; exact congrArg Desk.ledger h, by simp⟩, congrArg Desk.calls h⟩

theorem Voiceless.of_receipts {fs : List Frame} {l : List Receipt} (hledger : e'.ledger = e.ledger ++ l)
    (hl : ∀ r ∈ l, r.voice = false) (hcalls : e'.calls = e.calls) (hfs : ∀ g ∈ fs, g.voice = false) :
    e.Voiceless e' fs :=
  ⟨hfs, ⟨l, hledger, hl⟩, hcalls⟩

/-- The same, without any receipt. -/
theorem Voiceless.of_ledger {fs : List Frame} (hledger : e'.ledger = e.ledger) (hcalls : e'.calls = e.calls)
    (hfs : ∀ g ∈ fs, g.voice = false) : e.Voiceless e' fs :=
  ⟨hfs, ⟨[], by rw [List.append_nil, hledger], by simp⟩, hcalls⟩

theorem startWrite_voiceless (job : Job) (owner : String) (eligibleAt : Int) (remote : Bool) :
    e.Voiceless (e.startWrite job owner eligibleAt remote).1 (e.startWrite job owner eligibleAt remote).2 := by
  unfold startWrite
  split
  · exact .of_desk (updateJob_desk _) fun g hg => (past_tail _ g hg).2
  · dsimp only
    unfold updateJob
    split_ifs
    · exact .of_ledger rfl rfl (by simp [startFailed, Frame.voice])
    · refine .of_receipts rfl ?_ rfl ?_
      · simp [Receipt.voice]
      · cases remote <;> simp [startRunning, Frame.voice]

theorem account_voiceless (job : Job) (skipped : List JobId) :
    e.Voiceless (e.account job skipped).1 (e.account job skipped).2 := by
  simp only [account]
  split
  · exact .of_ledger rfl rfl (by simp)
  · rename_i r _
    by_cases hlast : r - (1 + (skipped.length : Int)) ≤ 0
    · simp only [hlast, if_true]
      exact .of_receipts rfl (by simp [Receipt.voice]) rfl (by simp [Frame.voice])
    · simp only [hlast, if_false]
      exact .of_receipts rfl (by simp [Receipt.voice]) rfl (by simp)

/-- **Only four kinds of frame deal with calls of `complete`.** -/
theorem advance_voiceless (c : Choice) {f : Frame} (hcomplete : ∀ msg, f ≠ .complete msg)
    (hread : ∀ msg info call, f ≠ .completeRead msg info call) (hreply : ∀ call status, f ≠ .reply call status)
    (hfinish : ∀ job info outcome call, f ≠ .finish job info outcome call) :
    e.Voiceless (e.advance c f).1 (e.advance c f).2 := by
  cases f with
  | complete msg => exact absurd rfl (hcomplete msg)
  | completeRead msg info call => exact absurd rfl (hread msg info call)
  | reply call status => exact absurd rfl (hreply call status)
  | finish job info outcome call => exact absurd rfl (hfinish job info outcome call)
  | startWrite job owner eligibleAt remote => exact startWrite_voiceless job owner eligibleAt remote
  | account job skipped => exact account_voiceless job skipped
  | cancelSignal jobId =>
      simp only [advance, cancelSignal]
      split <;> exact .of_ledger rfl rfl (by simp)
  | claim workerId maxJobs =>
      simp only [advance, claim]
      split
      · exact .of_ledger rfl rfl (by simp)
      · refine .of_ledger rfl rfl ?_
        split_ifs <;> simp [Frame.voice]
  | registerWorker name capacity => exact .of_ledger rfl rfl (by simp [advance])
  | heartbeat workerId =>
      simp only [advance, heartbeat]
      split <;> exact .of_ledger rfl rfl (by simp)
  | finishRecord job info outcome =>
      simp only [advance, finishRecord]
      split_ifs
      · exact .of_ledger rfl rfl (by simp [Frame.voice])
      · exact .of_ledger rfl rfl (by simp [Frame.voice])
      · exact .of_receipts rfl (by simp [Receipt.voice]) rfl (by simp [Frame.voice])
      · exact .of_receipts rfl (by simp [Receipt.voice]) rfl (by simp [Frame.voice])
  | finishRetry job token =>
      refine .of_receipts (l := [.written token]) ?_ (by simp [Receipt.voice]) ?_
        (by simp [advance, finishRetry, Frame.voice])
      · simp [advance, finishRetry, record]
      · exact congrArg Desk.calls (persist_desk job)
  | finishTerminal job token =>
      refine .of_receipts (l := [.written token]) ?_ (by simp [Receipt.voice]) ?_
        (by simp [advance, finishTerminal, Frame.tail, Frame.voice])
      · simp [advance, finishTerminal, record]
      · exact congrArg Desk.calls (persist_desk job)
  | watchdog =>
      obtain ⟨cells, ws, n, h⟩ := exists_watchdog (e := e)
      simp only [advance, h]
      exact .of_ledger rfl rfl fun g hg => (past_reclaim _ _ _ g hg).2
  | expire now jobId selected =>
      simp only [advance, expire]
      split
      · exact .of_ledger rfl rfl (by simp)
      · refine .of_receipts rfl (by simp [Receipt.voice]) rfl ?_
        (repeat' split) <;> simp [Frame.voice]
  | metric job => exact .of_receipts rfl (by simp [Receipt.voice]) rfl (by simp [advance])
  | callback job => exact .of_receipts rfl (by simp [Receipt.voice]) rfl (by simp [advance])
  | cancelWorkflowDone w => exact .of_receipts rfl (by simp [Receipt.voice]) rfl (by simp [advance])
  | slot jobId token =>
      refine .of_receipts (l := .slot jobId :: (token.map Receipt.accounted).toList) ?_ ?_ ?_ (by simp [advance])
      · cases token <;> simp [advance, slot, record, releaseSlot]
      · cases token <;> simp [Receipt.voice]
      · cases token <;> rfl
  | enqueue job token =>
      refine .of_receipts (l := (token.map Receipt.requeued).toList) ?_ ?_ ?_ (by simp [advance])
      · cases token <;> simp [advance, requeue, record]
      · cases token <;> simp [Receipt.voice]
      · cases token <;> exact congrArg Desk.calls (enqueue_desk job)
  | skipMetric jobs =>
      refine .of_receipts (l := jobs.map fun j => .metric j.jobId) rfl (by simp [Receipt.voice]) rfl fun g hg => ?_
      obtain ⟨j, -, hg⟩ := List.mem_flatMap.mp hg
      simp only [List.mem_cons, List.not_mem_nil, or_false] at hg
      rcases hg with rfl | rfl <;> rfl
  | _ => exact .of_desk (advance_desk c rfl) fun g hg => (frames_aside c rfl g hg).2

/-! ### The entries of `running_` -/

/-- All that a step of `f` can make of the entry of `j`: `new` is the entry after it. -/
inductive LeaseChange (e : JobEngine) (f : Frame) (j : JobId) (new : Option RunningInfo) : Prop
  | kept (hnew : new = e.running.lookup j)
  | taken (htakes : e.Takes f j) (hnew : new = none)
  | granted (job : Job) (owner : String) (eligibleAt : Int) (remote : Bool)
      (hf : f = .startWrite job owner eligibleAt remote) (hj : job.jobId = j)
      (hnew : new = some (leaseOf (e.startedRow job owner eligibleAt remote) e.cells.length owner eligibleAt remote))
  | renewed (info : RunningInfo) (hf : f = .heartbeat info.owner) (hold : e.running.lookup j = some info)
      (hremote : info.remote = true)
      (hnew : new = some { info with leaseExpiresMs := e.wallMs + e.cfg.leaseDurationMs })

theorem LeaseChange.aside (c : Choice) {f : Frame} (hf : f.aside = true) (j : JobId) :
    e.LeaseChange f j ((e.advance c f).1.running.lookup j) := by
  have hrunning : (e.advance c f).1.running = e.running := congrArg Desk.running (advance_desk c hf)
  exact .kept (by rw [hrunning])

theorem startWrite_lookup (job : Job) (owner : String) (eligibleAt : Int) (remote : Bool) (j : JobId) :
    e.LeaseChange (.startWrite job owner eligibleAt remote) j
      ((e.startWrite job owner eligibleAt remote).1.running.lookup j) := by
  unfold startWrite
  split
  · exact .kept (by rw [updateJob_running])
  · dsimp only
    unfold updateJob
    split_ifs
    · exact .kept rfl
    · by_cases hj : job.jobId = j
      · refine .granted job owner eligibleAt remote rfl hj ?_
        subst hj
        exact AList.lookup_insert _
      · exact .kept (AList.lookup_insert_ne (Ne.symm hj))

theorem finish_lookup (job : Job) (info : RunningInfo) (outcome : Outcome) (call : Option ℕ) (j : JobId) :
    e.LeaseChange (.finish job info outcome call) j ((e.finish job info outcome call).1.running.lookup j) := by
  unfold finish
  split
  · rename_i held hlookup
    split_ifs with htoken
    · by_cases hj : job.jobId = j
      · subst hj
        exact .taken ⟨rfl, held, hlookup, htoken⟩ (AList.lookup_erase _ _)
      · exact .kept (AList.lookup_erase_ne (Ne.symm hj))
    · exact .kept rfl
  · exact .kept rfl

theorem heartbeat_lookup (workerId : WorkerId) (j : JobId) :
    e.LeaseChange (.heartbeat workerId) j ((e.heartbeat workerId).running.lookup j) := by
  unfold heartbeat
  split
  · exact .kept rfl
  · dsimp only
    rw [lookup_mapRunning]
    cases hlookup : e.running.lookup j with
    | none => exact .kept (by rw [hlookup]; rfl)
    | some info =>
        by_cases howned : info.remote = true ∧ info.owner = workerId
        · obtain ⟨hremote, rfl⟩ := howned
          exact .renewed info rfl hlookup hremote (by simp [hremote])
        · exact .kept (by rw [hlookup, Option.map_some, if_neg howned])

/-- **What a step can make of an entry of `running_`.** -/
theorem lookup_advance (c : Choice) (f : Frame) (j : JobId) :
    e.LeaseChange f j ((e.advance c f).1.running.lookup j) := by
  cases f with
  | startWrite job owner eligibleAt remote => exact startWrite_lookup job owner eligibleAt remote j
  | finish job info outcome call => exact finish_lookup job info outcome call j
  | heartbeat workerId => exact heartbeat_lookup workerId j
  | expire now jobId selected =>
      simp only [advance, expire]
      split
      · exact .kept rfl
      · by_cases hj : jobId = j
        · subst hj
          exact .taken rfl (AList.lookup_erase _ _)
        · exact .kept (AList.lookup_erase_ne (Ne.symm hj))
  | cancelSignal jobId =>
      simp only [advance, cancelSignal]
      split <;> exact .kept rfl
  | claim workerId maxJobs =>
      simp only [advance, claim]
      split <;> exact .kept rfl
  | complete msg =>
      simp only [advance, complete]
      (repeat' split) <;> exact .kept rfl
  | completeRead msg info call =>
      simp only [advance, completeRead]
      (repeat' split) <;> exact .kept rfl
  | finishRecord job info outcome =>
      simp only [advance, finishRecord]
      split_ifs <;> exact .kept rfl
  | finishRetry job token => exact .kept (congrArg _ (persist_running job))
  | finishTerminal job token => exact .kept (congrArg _ (persist_running job))
  | watchdog =>
      obtain ⟨cells, ws, n, h⟩ := exists_watchdog (e := e)
      simp only [advance, h]
      exact .kept rfl
  | slot jobId token => cases token <;> exact .kept rfl
  | enqueue job token => cases token <;> exact .kept (congrArg _ (enqueue_running job))
  | account job skipped =>
      simp only [advance, account]
      (repeat' split) <;> exact .kept rfl
  | registerWorker _ _ | reply _ _ | metric _ | callback _ | cancelWorkflowDone _ | skipMetric _ => exact .kept rfl
  | _ => exact .aside c rfl j

/-! ### Every call is answered once, as it was recorded -/

/-- A result meets the fence on top of its thread, with the answer that the result was accepted below it. -/
structure Stacked (t : List Frame) : Prop where
  tail : ∀ g ∈ t.tail, g.fencing = none
  head : ∀ f ∈ t.head?, ∀ n, f.fencing = some n → ∃ g ∈ t.tail, g.accepts = some n

theorem Stacked.of_none {t : List Frame} (h : ∀ g ∈ t, g.fencing = none) : Stacked t where
  tail g hg := h g (List.mem_of_mem_tail hg)
  head f hf n hn := by
    rw [h f (List.mem_of_mem_head? hf)] at hn
    cases hn

/-- The entry under which `g` is going to report is still there. -/
def Reporting (e : JobEngine) (g : Frame) : Prop :=
  ∀ j t, g.reports = some (j, t) → ∃ info, e.running.lookup j = some info ∧ info.leaseToken = t

structure Answered (e : JobEngine) (T : Multiset (List Frame)) : Prop where
  stacked : ∀ t ∈ T, Stacked t
  reporting : ∀ g ∈ System.framesOf T, e.Reporting g
  once : ∀ n, (System.framesOf T).countP (fun g => g.calls = some n) +
    e.ledger.countP (fun r => r.answers = some n) = if n < e.calls then 1 else 0
  agree : ∀ n, (System.framesOf T).countP (fun g => g.fencing = some n) +
    e.ledger.countP (fun r => r.fencedBy = some n) =
      (System.framesOf T).countP (fun g => g.accepts = some n) + e.ledger.countP (fun r => r.accepts = some n)

/-- A step that takes no entry under report keeps the reports of the other threads possible. -/
theorem Reporting.advance {c : Choice} {f g : Frame} (h : e.Reporting g)
    (hkeep : ∀ j t, g.reports = some (j, t) → ¬ e.Takes f j) : (e.advance c f).1.Reporting g := by
  intro j t hg
  obtain ⟨info, hlookup, htoken⟩ := h j t hg
  have hnot := hkeep j t hg
  cases lookup_advance (e := e) c f j with
  | kept hnew => exact ⟨info, hnew.trans hlookup, htoken⟩
  | taken htakes _ => exact absurd htakes hnot
  | granted job owner eligibleAt remote hf hj _ =>
      subst hf
      exact absurd hj hnot
  | renewed info' _ hold _ hnew =>
      rw [hold, Option.some.injEq] at hlookup
      subst hlookup
      exact ⟨_, hnew, htoken⟩

section Step

variable {c : Choice} {f : Frame} {rest fs : List Frame} {T : Multiset (List Frame)}

theorem countP_stack (q : Frame → Prop) [DecidablePred q] :
    (System.framesOf ((fs ++ rest) ::ₘ T)).countP q =
      fs.countP (fun g => q g) + ((rest : Multiset Frame) + System.framesOf T).countP q := by
  rw [System.framesOf_cons, ← Multiset.coe_add, add_assoc, Multiset.countP_add, Multiset.coe_countP]

theorem mem_stack {g : Frame} : g ∈ System.framesOf ((fs ++ rest) ::ₘ T) ↔
    g ∈ fs ∨ g ∈ (rest : Multiset Frame) + System.framesOf T := by
  rw [System.framesOf_cons, ← Multiset.coe_add, add_assoc, Multiset.mem_add, Multiset.mem_coe]

theorem mem_stack_cons {g : Frame} : g ∈ System.framesOf ((f :: rest) ::ₘ T) ↔
    g = f ∨ g ∈ (rest : Multiset Frame) + System.framesOf T := by
  rw [← List.singleton_append, mem_stack, List.mem_singleton]

/-- The other threads and the rest of this one stay as they should be. -/
theorem Answered.others (h : e.Answered ((f :: rest) ::ₘ T))
    (hund : e.Undisturbed c f ((rest : Multiset Frame) + System.framesOf T)) :
    (∀ t ∈ T, Stacked t) ∧ (∀ g ∈ rest, g.fencing = none) ∧
      ∀ g ∈ (rest : Multiset Frame) + System.framesOf T, (e.advance c f).1.Reporting g := by
  refine ⟨fun t ht => h.stacked t (Multiset.mem_cons_of_mem ht),
    (h.stacked _ (Multiset.mem_cons_self _ _)).tail, fun g hg => ?_⟩
  have hmem : g ∈ System.framesOf ((f :: rest) ::ₘ T) := mem_stack_cons.mpr (.inr hg)
  exact (h.reporting g hmem).advance (hund g hg)

/-- What a step has to show: the threads stay as they should be and the counts of each call balance. -/
theorem Answered.step (h : e.Answered ((f :: rest) ::ₘ T))
    (hund : e.Undisturbed c f ((rest : Multiset Frame) + System.framesOf T)) {l : List Receipt}
    (hledger : (e.advance c f).1.ledger = e.ledger ++ l) (hstacked : Stacked ((e.advance c f).2 ++ rest))
    (hreporting : ∀ g ∈ (e.advance c f).2, (e.advance c f).1.Reporting g)
    (honce : ∀ n, (e.advance c f).2.countP (fun g => g.calls = some n) + l.countP (fun r => r.answers = some n) +
      (if n < e.calls then 1 else 0) =
        [f].countP (fun g => g.calls = some n) + if n < (e.advance c f).1.calls then 1 else 0)
    (hagree : ∀ n, (e.advance c f).2.countP (fun g => g.fencing = some n) +
      l.countP (fun r => r.fencedBy = some n) + [f].countP (fun g => g.accepts = some n) =
        (e.advance c f).2.countP (fun g => g.accepts = some n) + l.countP (fun r => r.accepts = some n) +
          [f].countP (fun g => g.fencing = some n)) :
    (e.advance c f).1.Answered (((e.advance c f).2 ++ rest) ::ₘ T) := by
  obtain ⟨hothers, -, hrep⟩ := h.others hund
  refine ⟨fun t ht => ?_, fun g hg => ?_, fun n => ?_, fun n => ?_⟩
  · rcases Multiset.mem_cons.mp ht with rfl | ht
    · exact hstacked
    · exact hothers t ht
  · rcases mem_stack.mp hg with hg | hg
    · exact hreporting g hg
    · exact hrep g hg
  · have h1 := h.once n
    have h2 := honce n
    rw [← List.singleton_append, countP_stack] at h1
    rw [countP_stack, hledger, List.countP_append]
    omega
  · have h1 := h.agree n
    have h2 := hagree n
    rw [← List.singleton_append, countP_stack, countP_stack] at h1
    rw [countP_stack, countP_stack, hledger, List.countP_append, List.countP_append]
    omega

theorem countP_none {α : Type} {l : List α} {q : α → Option ℕ} (h : ∀ a ∈ l, q a = none) (n : ℕ) :
    l.countP (fun a => q a = some n) = 0 :=
  List.countP_eq_zero.mpr fun a ha => by simp [h a ha]

theorem reporting_of_none {g : Frame} (h : g.reports = none) : e.Reporting g := by
  intro j t hj
  rw [h] at hj
  cases hj

/-- A step that has nothing to do with calls. -/
theorem Answered.voiceless (h : e.Answered ((f :: rest) ::ₘ T))
    (hund : e.Undisturbed c f ((rest : Multiset Frame) + System.framesOf T)) (hf : f.voice = false)
    (hv : e.Voiceless (e.advance c f).1 (e.advance c f).2) :
    (e.advance c f).1.Answered (((e.advance c f).2 ++ rest) ::ₘ T) := by
  obtain ⟨-, hrest, -⟩ := h.others hund
  obtain ⟨-, hfencing, hcalls, haccepts⟩ := Frame.of_voice hf
  obtain ⟨l, hledger, hl⟩ := hv.ledger
  have hframes : ∀ g ∈ (e.advance c f).2, _ := fun g hg => Frame.of_voice (hv.frames g hg)
  have hreceipts : ∀ r ∈ l, _ := fun r hr => Receipt.of_voice (hl r hr)
  refine h.step hund hledger (.of_none fun g hg => ?_) (fun g hg => reporting_of_none (hframes g hg).1)
    (fun n => ?_) fun n => ?_
  · rcases List.mem_append.mp hg with hg | hg
    · exact (hframes g hg).2.1
    · exact hrest g hg
  · rw [countP_none fun g hg => (hframes g hg).2.2.1, countP_none fun r hr => (hreceipts r hr).2.1, hv.calls]
    simp [hcalls]
  · rw [countP_none fun g hg => (hframes g hg).2.1, countP_none fun g hg => (hframes g hg).2.2.2,
      countP_none fun r hr => (hreceipts r hr).1, countP_none fun r hr => (hreceipts r hr).2.2]
    simp [hfencing, haccepts]

/-- The check of `complete` opens a new call. -/
theorem Answered.complete {msg : Completion} (h : e.Answered ((.complete msg :: rest) ::ₘ T))
    (hund : e.Undisturbed c (.complete msg) ((rest : Multiset Frame) + System.framesOf T)) :
    (e.advance c (.complete msg)).1.Answered (((e.advance c (.complete msg)).2 ++ rest) ::ₘ T) := by
  obtain ⟨-, hrest, -⟩ := h.others hund
  -- one frame of the new call, which does not meet the fence and does not accept
  have hopen : ∃ g, (e.advance c (.complete msg)).2 = [g] ∧ g.calls = some e.calls ∧ g.fencing = none ∧
      g.accepts = none ∧ (e.advance c (.complete msg)).1.Reporting g ∧
      (e.advance c (.complete msg)).1.ledger = e.ledger ∧
      (e.advance c (.complete msg)).1.calls = e.calls + 1 := by
    simp only [JobEngine.advance, JobEngine.complete]
    split
    · exact ⟨_, rfl, rfl, rfl, rfl, reporting_of_none rfl, rfl, rfl⟩
    · rename_i info hlookup
      split_ifs with hstale
      · exact ⟨_, rfl, rfl, rfl, rfl, reporting_of_none rfl, rfl, rfl⟩
      · refine ⟨_, rfl, rfl, rfl, rfl, fun j t hj => ?_, rfl, rfl⟩
        cases hj
        exact ⟨info, hlookup, rfl⟩
  obtain ⟨g, hfs, hcalls, hfencing, haccepts, hrep, hledger, hnext⟩ := hopen
  refine h.step hund (l := []) (by rw [hledger, List.append_nil]) ?_ ?_ (fun n => ?_) fun n => ?_
  · rw [hfs]
    exact .of_none (List.forall_mem_cons.mpr ⟨hfencing, hrest⟩)
  · rw [hfs]
    simpa using hrep
  · have hf : (Frame.complete msg).calls = none := rfl
    rw [hfs, hnext]
    simp only [List.countP_singleton, List.countP_nil, hcalls, hf, Option.some.injEq]
    by_cases hn : e.calls = n
    · simp [hn]
    · simp only [hn, decide_false, reduceCtorEq, Bool.false_eq_true, if_false]
      split_ifs <;> omega
  · have hf : (Frame.complete msg).fencing = none ∧ (Frame.complete msg).accepts = none := ⟨rfl, rfl⟩
    rw [hfs]
    simp [hfencing, haccepts, hf]

/-- Past its check a call goes on to the fence, or finds no row. -/
theorem Answered.completeRead {msg : Completion} {info : RunningInfo} {call : ℕ}
    (h : e.Answered ((.completeRead msg info call :: rest) ::ₘ T))
    (hund : e.Undisturbed c (.completeRead msg info call) ((rest : Multiset Frame) + System.framesOf T)) :
    (e.advance c (.completeRead msg info call)).1.Answered
      (((e.advance c (.completeRead msg info call)).2 ++ rest) ::ₘ T) := by
  obtain ⟨-, hrest, -⟩ := h.others hund
  have hheld := h.reporting (.completeRead msg info call) (mem_stack_cons.mpr (.inl rfl))
    msg.jobId info.leaseToken rfl
  cases hget : e.db.getJob msg.jobId with
  | none =>
      have hadv : e.advance c (.completeRead msg info call) = (e, [.reply call .notFound]) := by
        simp only [JobEngine.advance, JobEngine.completeRead, hget]
      refine h.step hund (l := []) (by rw [hadv, List.append_nil]) ?_ ?_ (fun n => ?_) fun n => ?_ <;> rw [hadv]
      · exact .of_none (List.forall_mem_cons.mpr ⟨rfl, hrest⟩)
      · simpa using reporting_of_none rfl
      · simp [Frame.calls]
      · simp [Frame.fencing, Frame.accepts]
  | some job =>
      obtain ⟨e₁, hadv, hrunning, hledger, hcalls⟩ : ∃ e₁, e.advance c (.completeRead msg info call) = (e₁,
          [.finish job info ⟨decide (msg.status = "SUCCEEDED"), msg.result, msg.error⟩ (some call),
            .reply call .accepted]) ∧
          e₁.running = e.running ∧ e₁.ledger = e.ledger ∧ e₁.calls = e.calls := by
        simp only [JobEngine.advance, JobEngine.completeRead, hget]
        refine ⟨_, rfl, ?_, ?_, ?_⟩ <;> split_ifs <;> rfl
      refine h.step hund (l := []) (by rw [hadv, List.append_nil]; exact hledger) ?_ ?_ (fun n => ?_) fun n => ?_ <;>
        rw [hadv]
      · refine ⟨List.forall_mem_cons.mpr ⟨rfl, hrest⟩, fun f hf n hn => ⟨.reply call .accepted, by simp, ?_⟩⟩
        cases hf
        exact hn
      · refine List.forall_mem_cons.mpr ⟨fun j t hj => ?_, by simpa using reporting_of_none rfl⟩
        cases hj
        rw [getJob_jobId hget, hrunning]
        exact hheld
      · rw [hcalls]
        simp [Frame.calls]
      · simp [List.countP_cons, Frame.fencing, Frame.accepts]

theorem Answered.reply {call : ℕ} {status : CompleteStatus} (h : e.Answered ((.reply call status :: rest) ::ₘ T))
    (hund : e.Undisturbed c (.reply call status) ((rest : Multiset Frame) + System.framesOf T)) :
    (e.advance c (.reply call status)).1.Answered (((e.advance c (.reply call status)).2 ++ rest) ::ₘ T) := by
  obtain ⟨-, hrest, -⟩ := h.others hund
  refine h.step hund (l := [.replied call status]) rfl (.of_none hrest) (by simp [JobEngine.advance]) (fun n => ?_)
    fun n => ?_
  · have hcalls : (e.advance c (.reply call status)).1.calls = e.calls := rfl
    rw [hcalls]
    simp [JobEngine.advance, Frame.calls, Receipt.answers]
  · cases status <;> simp [JobEngine.advance, Frame.fencing, Frame.accepts, Receipt.fencedBy, Receipt.accepts]

/-- The result of an undisturbed call passes the fence. -/
theorem Answered.finish {job : Job} {info : RunningInfo} {outcome : Outcome} {call : Option ℕ}
    (h : e.Answered ((.finish job info outcome call :: rest) ::ₘ T))
    (hund : e.Undisturbed c (.finish job info outcome call) ((rest : Multiset Frame) + System.framesOf T)) :
    (e.advance c (.finish job info outcome call)).1.Answered
      (((e.advance c (.finish job info outcome call)).2 ++ rest) ::ₘ T) := by
  obtain ⟨-, hrest, -⟩ := h.others hund
  by_cases hfence : ∃ held, e.running.lookup job.jobId = some held ∧ held.leaseToken = info.leaseToken
  · obtain ⟨held, hlookup, htoken⟩ := hfence
    have hadv : e.advance c (.finish job info outcome call) =
        ({ e with running := e.running.erase job.jobId, ledger := e.ledger ++ [.fenced info.leaseToken call] },
          [.finishRecord job info outcome]) := by
      simp only [JobEngine.advance, JobEngine.finish, hlookup, htoken, if_true]
    refine h.step hund (l := [.fenced info.leaseToken call]) (by rw [hadv]) ?_ ?_ (fun n => ?_) fun n => ?_ <;>
      rw [hadv]
    · exact .of_none (List.forall_mem_cons.mpr ⟨rfl, hrest⟩)
    · simpa using reporting_of_none rfl
    · simp [Frame.calls, Receipt.answers]
    · cases call <;> simp [List.countP_cons, Frame.fencing, Frame.accepts, Receipt.fencedBy, Receipt.accepts]
  · -- only an attempt of this process can be too late
    have hcall : call = none := by
      cases call with
      | none => rfl
      | some n =>
          exact absurd (h.reporting (.finish job info outcome (some n)) (mem_stack_cons.mpr (.inl rfl))
            job.jobId info.leaseToken rfl) hfence
    subst hcall
    refine h.voiceless hund rfl ?_
    simp only [JobEngine.advance, JobEngine.finish]
    split
    · rename_i held hlookup
      rw [if_neg fun htoken => hfence ⟨held, hlookup, htoken⟩]
      exact .of_ledger rfl rfl (by simp)
    · exact .of_ledger rfl rfl (by simp)

end Step

theorem Answered.advance {c : Choice} {f : Frame} {rest : List Frame} {T : Multiset (List Frame)}
    (h : e.Answered ((f :: rest) ::ₘ T))
    (hund : e.Undisturbed c f ((rest : Multiset Frame) + System.framesOf T)) :
    (e.advance c f).1.Answered (((e.advance c f).2 ++ rest) ::ₘ T) := by
  cases f with
  | complete msg => exact h.complete hund
  | completeRead msg info call => exact h.completeRead hund
  | reply call status => exact h.reply hund
  | finish job info outcome call => exact h.finish hund
  | _ => exact h.voiceless hund rfl (advance_voiceless c (by simp) (by simp) (by simp) (by simp))

theorem Answered.submits {T : Multiset (List Frame)} (h : e.Answered T) (hsub : Submits e e') : e'.Answered T := by
  have hdesk := Submits.desk hsub
  have hledger : e'.ledger = e.ledger := congrArg Desk.ledger hdesk
  have hrunning : e'.running = e.running := congrArg Desk.running hdesk
  have hcalls : e'.calls = e.calls := congrArg Desk.calls hdesk
  refine ⟨h.stacked, fun g hg j t hj => ?_, fun n => ?_, fun n => ?_⟩
  · rw [hrunning]
    exact h.reporting g hg j t hj
  · rw [hledger, hcalls]
    exact h.once n
  · rw [hledger]
    exact h.agree n

theorem Answered.spawn {f : Frame} {T : Multiset (List Frame)} (h : e.Answered T) (hcall : Call f) :
    e.Answered ([f] ::ₘ T) := by
  have hvoice : f.voice = false := by cases f <;> first | rfl | cases hcall
  obtain ⟨hreports, hfencing, hcalls, haccepts⟩ := Frame.of_voice hvoice
  have hcount : ∀ q : Frame → Option ℕ, q f = none → ∀ n,
      (System.framesOf ([f] ::ₘ T)).countP (fun g => q g = some n) =
        (System.framesOf T).countP fun g => q g = some n := by
    intro q hq n
    rw [System.framesOf_cons, Multiset.countP_add, Multiset.coe_countP, countP_none (by simpa using hq), zero_add]
  refine ⟨fun t ht => ?_, fun g hg => ?_, fun n => ?_, fun n => ?_⟩
  · rcases Multiset.mem_cons.mp ht with rfl | ht
    · exact .of_none (by simpa using hfencing)
    · exact h.stacked t ht
  · rw [System.framesOf_cons, Multiset.mem_add, Multiset.mem_coe, List.mem_singleton] at hg
    rcases hg with rfl | hg
    · exact reporting_of_none hreports
    · exact h.reporting g hg
  · rw [hcount _ hcalls]
    exact h.once n
  · rw [hcount _ hfencing, hcount _ haccepts]
    exact h.agree n

/-- Once a call is answered, its result has met the fence. -/
theorem Answered.answered {T : Multiset (List Frame)} (h : e.Answered T) {n : ℕ} {s : CompleteStatus}
    (hmem : Receipt.replied n s ∈ e.ledger) : s = .accepted ↔ ∃ t, Receipt.fenced t (some n) ∈ e.ledger := by
  have hone : 0 < e.ledger.countP (fun r => decide (r.answers = some n)) :=
    List.countP_pos_iff.mpr ⟨_, hmem, by simp [Receipt.answers]⟩
  have honce := h.once n
  have hle : (if n < e.calls then 1 else 0) ≤ 1 := by split_ifs <;> omega
  have hnocall : ∀ g ∈ System.framesOf T, g.calls ≠ some n := by
    have hzero : (System.framesOf T).countP (fun g => g.calls = some n) = 0 := by omega
    exact fun g hg hn => Multiset.countP_eq_zero.mp hzero g hg hn
  have hnoaccept : (System.framesOf T).countP (fun g => g.accepts = some n) = 0 := by
    refine Multiset.countP_eq_zero.mpr fun g hg hn => hnocall g hg ?_
    cases g with
    | reply call status => cases status <;> simp_all [Frame.accepts, Frame.calls]
    | _ => cases hn
  have hnofence : (System.framesOf T).countP (fun g => g.fencing = some n) = 0 := by
    refine Multiset.countP_eq_zero.mpr fun g hg hn => ?_
    -- the answer lies right below the result, so it would still be there
    obtain ⟨t, ht, hgt⟩ := Multiset.mem_bind.mp hg
    have hst := h.stacked t ht
    cases t with
    | nil => cases hgt
    | cons f rest =>
        rcases List.mem_cons.mp (Multiset.mem_coe.mp hgt) with rfl | hgt
        · obtain ⟨a, ha, han⟩ := hst.head g rfl n hn
          exact absurd han (Multiset.countP_eq_zero.mp hnoaccept a
            (Multiset.mem_bind.mpr ⟨_, ht, List.mem_cons_of_mem _ ha⟩))
        · rw [hst.tail g hgt] at hn
          cases hn
  have hagree := h.agree n
  rw [hnofence, hnoaccept, zero_add, zero_add] at hagree
  constructor
  · rintro rfl
    have hpos : 0 < e.ledger.countP (fun r => decide (r.accepts = some n)) :=
      List.countP_pos_iff.mpr ⟨_, hmem, by simp [Receipt.accepts]⟩
    rw [← hagree, List.countP_pos_iff] at hpos
    obtain ⟨r, hr, hn⟩ := hpos
    obtain ⟨t, rfl⟩ := Receipt.fencedBy_eq.mp (of_decide_eq_true hn)
    exact ⟨t, hr⟩
  · rintro ⟨t, ht⟩
    have hpos : 0 < e.ledger.countP (fun r => decide (r.fencedBy = some n)) :=
      List.countP_pos_iff.mpr ⟨_, ht, by simp [Receipt.fencedBy]⟩
    rw [hagree, List.countP_pos_iff] at hpos
    obtain ⟨r, hr, hn⟩ := hpos
    by_contra hs
    -- two different answers to one call
    have htwo := count_add_count e.ledger (a := .replied n s) (b := .replied n .accepted) (by simpa using hs)
    obtain rfl := Receipt.accepts_eq.mp (of_decide_eq_true hn)
    have h1 := List.count_pos_iff.mpr hmem
    have h2 := List.count_pos_iff.mpr hr
    have h3 : e.ledger.countP (fun r => decide (r = .replied n s ∨ r = .replied n .accepted)) ≤
        e.ledger.countP (fun r => decide (r.answers = some n)) := by
      refine List.countP_mono_left fun r _ hr => ?_
      simp only [decide_eq_true_eq] at hr ⊢
      rcases hr with rfl | rfl <;> rfl
    omega

section Runs

variable {cfg : EngineConfig} {types : List String} {world : World} {p : Pool JobEngine Frame}

theorem boot_answered : (boot cfg types world).Answered 0 where
  stacked t ht := by cases ht
  reporting g hg := by cases hg
  once _ := rfl
  agree _ := rfl

/-- **The answer of `complete` agrees with what was recorded, in every run in which nobody takes an entry
of `running_` between a check and its fence.** -/
theorem reply_agrees (hrun : Interleaved Undisturbed ⟨boot cfg types world, []⟩ p) :
    (∀ n s, .replied n s ∈ p.state.ledger → (s = .accepted ↔ ∃ t, .fenced t (some n) ∈ p.state.ledger)) ∧
    (p.state.Distinct → ∀ t n m, .fenced t (some n) ∈ p.state.ledger → .fenced t (some m) ∈ p.state.ledger →
      n = m) := by
  have hanswered : p.state.Answered p.threads :=
    hrun.invariant_stacks (fun _ _ _ _ _ _ hund h => h.advance hund) (fun _ _ _ hsub h => h.submits hsub)
      (fun _ _ _ hcall h => h.spawn hcall) boot_answered
  have hleased : p.state.Leased p.frames := boot_leased.run (p := ⟨boot cfg types world, []⟩) hrun
  refine ⟨fun n s hmem => hanswered.answered hmem, fun hdistinct t n m hn hm => ?_⟩
  by_contra hne
  have htwo := count_add_count p.state.ledger (a := .fenced t (some n)) (b := .fenced t (some m)) (by simpa using hne)
  have h1 := List.count_pos_iff.mpr hn
  have h2 := List.count_pos_iff.mpr hm
  have h3 : p.state.ledger.countP (fun r => decide (r = .fenced t (some n) ∨ r = .fenced t (some m))) ≤
      p.state.ledger.countP (·.closes t) := by
    refine List.countP_mono_left fun r _ hr => ?_
    simp only [decide_eq_true_eq] at hr
    rcases hr with rfl | rfl <;> simp [Receipt.closes]
  have h4 := hleased.lease t
  have h5 := hdistinct t
  omega

/-- A job is submitted and leased to a remote worker; its token is 1. -/
def leaseOut (req : SubmitRequest) : List (System.Act JobEngine Frame Choice) :=
  [.env fun e => (e.submit req).2, .spawn (.registerWorker "r" 1), .run 0 {}, .spawn (.claim "k_4" 1),
    .run 1 {}, .run 1 {}, .run 1 {}, .run 1 {}, .run 1 {}]

theorem leaseOut_allowed {req : SubmitRequest} (hwf : req.workflowId = "") (hdeps : req.pendingDeps = 0) :
    ∀ a ∈ leaseOut req, System.Allowed Submits Call a := by
  simp only [leaseOut, List.forall_mem_cons, System.Allowed, Call, Frame.isCall, true_and]
  exact ⟨fun e => .job req hwf hdeps, by simp⟩

/-- The worker's report of success. -/
def report : Completion := ⟨"k_4", "j_0", 1, 1, "SUCCEEDED", .null, ""⟩

set_option maxRecDepth 8000 in
theorem reply_agrees_single : ∃ p, Interleaved Undisturbed ⟨boot {} ["t"] {}, []⟩ p ∧
    .replied 0 .accepted ∈ p.state.ledger ∧ ∃ t, .fenced t (some 0) ∈ p.state.ledger := by
  have hsched : (engineSystem.execs (fun _ _ _ O => O.all (·.reports.isNone)) ⟨boot {} ["t"] {}, []⟩
      (leaseOut { type := "t" } ++ [.spawn (.complete report)] ++ List.replicate 10 (.run 2 {}))).map
        (fun p => decide (.replied 0 .accepted ∈ p.state.ledger)) = some true := by
    decide
  obtain ⟨p, hp, hmem⟩ := System.exists_run undisturbed_of_reports (List.forall_mem_append.mpr
    ⟨List.forall_mem_append.mpr ⟨leaseOut_allowed rfl rfl, by simp [System.Allowed, Call, Frame.isCall]⟩,
      by simp [System.Allowed]⟩) hsched
  have hreplied := of_decide_eq_true hmem
  exact ⟨p, hp, hreplied, ((reply_agrees hp).1 0 .accepted hreplied).mp rfl⟩

set_option maxRecDepth 8000 in
/-- Two copies of one report pass the check before the first of them meets the fence: both are told that the
result was accepted. -/
theorem reply_twice_accepted : ∃ p, Interleaved AnyStep ⟨boot {} ["t"] {}, []⟩ p ∧
    .replied 0 .accepted ∈ p.state.ledger ∧ .replied 1 .accepted ∈ p.state.ledger ∧
    ∀ t, .fenced t (some 1) ∉ p.state.ledger := by
  have hsched : (engineSystem.execs (fun _ _ _ _ => true) ⟨boot {} ["t"] {}, []⟩
      (leaseOut { type := "t" } ++ [.spawn (.complete report), .spawn (.complete report), .run 2 {},
        .run 3 {}, .run 2 {}, .run 2 {},
        .run 3 {}, .run 3 {}, .run 3 {}] ++ List.replicate 7 (.run 2 {}))).map (fun p => p.state.ledger) =
      some [.issued 1, .fenced 1 (some 0), .replied 1 .accepted, .recorded 1, .written 1, .metric "j_0",
        .callback "j_0", .slot "j_0", .accounted 1, .replied 0 .accepted] := by
    decide
  obtain ⟨p, hp, hledger⟩ := System.exists_run anyStep (List.forall_mem_append.mpr
    ⟨List.forall_mem_append.mpr ⟨leaseOut_allowed rfl rfl, by simp [System.Allowed, Call, Frame.isCall]⟩,
      by simp [System.Allowed]⟩) hsched
  refine ⟨p, hp, ?_, ?_, fun t ht => ?_⟩
  · rw [hledger]
    decide
  · rw [hledger]
    decide
  · rw [hledger] at ht
    simp at ht

end Runs

end JobEngine

end DistributedJobEngine
