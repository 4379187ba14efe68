import DistributedJobEngine.EngineEntries
import DistributedJobEngine.EngineQueue

/-! When a job is started. The queue runs on the steady clock while a row says by the wall clock when its job is
ready; `enqueue` converts the one into the other with a reading of each. No entry matures, and so no attempt
begins, earlier than the row says by more than what passes between these two readings. -/

namespace DistributedJobEngine

open LibPool LibTable

/-- Both clocks, read in whole milliseconds, go forward by the same amounts: their readings change at the same
instants. At most `δ` passes between the two readings of `enqueue`. -/
structure World.InStep (w : World) (δ : Int) : Prop where
  together : ∀ n, w.wall n - w.wall 0 = w.steady n - w.steady 0
  lag : ∀ n, 0 ≤ w.lag n ∧ w.lag n ≤ δ
  forward : ∀ n, w.steady n + w.lag n ≤ w.steady (n + 1)

/-- How far the wall clock is ahead of the steady clock. -/
def World.skew (w : World) : Int := w.wall 0 - w.steady 0

theorem World.InStep.monotone {w : World} {δ : Int} (h : w.InStep δ) : Monotone w.steady :=
  monotone_nat_of_le_succ fun n => by
    have := h.forward n
    have := (h.lag n).1
    omega

theorem World.InStep.wall {w : World} {δ : Int} (h : w.InStep δ) (n : ℕ) : w.wall n = w.steady n + w.skew := by
  have := h.together n
  unfold World.skew
  omega

/-- The kinds of frames that have to be on time. -/
def Kind.timed : Kind → Bool
  | start | claimRest | startWrite | enqueue => true
  | _ => false

namespace JobEngine

variable {e e' : JobEngine} {δ : Int}

theorem Flows.inStep (h : e.Flows e') (hw : e.world.InStep δ) : e'.world.InStep δ := by
  rw [h.1]
  exact ⟨hw.together, hw.lag, hw.forward⟩

theorem Flows.skew (h : e.Flows e') : e'.world.skew = e.world.skew := by
  rw [h.1]
  rfl

theorem wallMs_eq (hw : e.world.InStep δ) : e.wallMs = e.nowMs + e.world.skew := hw.wall e.world.pos

theorem Flows.wallMs_le (h : e.Flows e') (hw : e.world.InStep δ) : e.wallMs ≤ e'.wallMs := by
  rw [wallMs_eq hw, wallMs_eq (h.inStep hw), h.skew]
  have := h.nowMs_le hw.monotone
  omega

/-- **The conversion of `enqueue`** is early by no more than its lag. -/
theorem readyAt_le (hw : e.world.InStep δ) (job : Job) :
    job.readyAtWallMs ≤ e.readySteady job + e.world.skew + δ := by
  have hwall := wallMs_eq hw
  have hlag := hw.lag e.world.pos
  unfold readySteady
  dsimp only
  split_ifs <;> omega

/-! ### The invariant -/

/-- If the job waits to be started, its row says that it may be by the time `t`. -/
def ReadyBy (e : JobEngine) (j : JobId) (t : Int) : Prop :=
  ∀ row, e.db.getJob j = some row → row.state.isWaiting = true → row.readyAtWallMs ≤ t

/-- An operation that has taken an entry may start its job, and one that is to push an entry has the ready time of
the row. -/
def OnTime (e : JobEngine) (δ : Int) : Frame → Prop
  | .start jobId _ _ _ => e.ReadyBy jobId (e.wallMs + δ)
  | .claimRest _ _ first => e.ReadyBy first.jobId (e.wallMs + δ)
  | .startWrite job _ _ _ => e.db.getJob job.jobId = some job ∧ job.readyAtWallMs ≤ e.wallMs + δ
  | .enqueue job _ => e.ReadyBy job.jobId job.readyAtWallMs
  | _ => True

/-- A write that starts an attempt comes no earlier than the row says, but for `δ`. -/
def Prompt (δ : Int) (old row : Job) : Prop :=
  row.state = .running → old.state ≠ .running →
    old.readyAtWallMs = row.readyAtWallMs ∧ old.readyAtWallMs ≤ row.startedAtWallMs + δ

/-- No entry matures before its job may be started. -/
structure Patient (e : JobEngine) (δ : Int) : Prop where
  clock : e.world.InStep δ
  ripe : e.queue.Ripe e.nowMs
  entries : ∀ j a, e.queue.toMap.entries.lookup j = some a → e.ReadyBy j (a.readyAtMs + e.world.skew + δ)

structure Timely (e : JobEngine) (δ : Int) (F : Multiset Frame) : Prop extends Patient e δ where
  tended : e.Tended F
  frames : ∀ f ∈ F, e.OnTime δ f
  prompt : Journaled (Prompt δ) e.journal

theorem ReadyBy.mono {j : JobId} {t t' : Int} (h : e.ReadyBy j t) (hdb : e'.db.getJob j = e.db.getJob j)
    (ht : t ≤ t') : e'.ReadyBy j t' := by
  intro row hrow hwait
  rw [hdb] at hrow
  exact (h row hrow hwait).trans ht

theorem onTime_of_kind {g : Frame} (h : g.kind.timed = false) : e.OnTime δ g := by
  cases g <;> trivial

/-- A matured entry is that of a job that may be started. -/
theorem Timely.readyBy {F : Multiset Frame} (h : e.Timely δ F) {item : JobId × MapEntry}
    (hitem : e.queue.toMap.Ready e.nowMs item) : e.ReadyBy item.1 (e.wallMs + δ) := by
  refine (h.entries item.1 item.2 hitem.1).mono rfl ?_
  have hwall := wallMs_eq h.clock
  have hle := hitem.2
  omega

/-- The row that was written is the one an operation is to push. -/
theorem readyBy_written {row : Job} (h : e'.db.jobs = e.db.jobs.update row.persisted) :
    e'.ReadyBy row.jobId row.readyAtWallMs := by
  intro row' hrow _
  rw [Database.getJob, h, Table.lookup_update, if_pos (show row.persisted.jobId = row.jobId from rfl)] at hrow
  obtain ⟨old, -, rfl⟩ := Option.map_eq_some_iff.mp hrow
  exact le_rfl

/-- The frames a step leaves are on time. -/
theorem Timely.onTime_new {c : Choice} {f g : Frame} {O : Multiset Frame} (h : e.Timely δ (f ::ₘ O))
    (hg : g ∈ (e.advance c f).2) : (e.advance c f).1.OnTime δ g := by
  by_cases hpush : g.kind = .enqueue
  · cases g with
    | enqueue job token => exact readyBy_written (writes_of_enqueue h.tended.steady.sound.reliable hg).2
    | _ => cases hpush
  have hnext := (advance_follows (e := e) c f).next g hg
  have hquiet : (∀ k ∈ f.kind.next, k ≠ .enqueue → k.timed = false) → (e.advance c f).1.OnTime δ g := fun hk =>
    onTime_of_kind (hk _ hnext hpush)
  have hq := h.tended.steady.sound.queue
  have htick := (tick_flows e).wallMs_le h.clock
  cases f with
  | workerPop owner =>
      obtain ⟨-, -, hpoll⟩ := PriorityJobQueue.poll_refines hq h.ripe
      simp only [advance, workerPop] at hg ⊢
      rcases hp : e.queue.poll e.nowMs with ⟨r, q⟩
      rw [hp] at hg hpoll
      cases r with
      | none =>
          refine onTime_of_kind ?_
          dsimp only at hg
          split_ifs at hg
          · rw [List.mem_singleton.mp hg]
            rfl
          · cases hg
      | some entry =>
          rw [List.mem_singleton.mp hg]
          exact (h.readyBy hpoll.1).mono rfl (by dsimp only; exact Int.add_le_add_right htick δ)
  | claimFirst workerId maxJobs =>
      obtain ⟨-, -, hpoll⟩ := PriorityJobQueue.poll_refines hq h.ripe
      simp only [advance, claimFirst] at hg ⊢
      rcases hp : e.queue.poll e.nowMs with ⟨r, q⟩
      rw [hp] at hg hpoll
      cases r with
      | none =>
          refine onTime_of_kind ?_
          dsimp only at hg
          split_ifs at hg
          · rw [List.mem_singleton.mp hg]
            rfl
          · cases hg
      | some entry =>
          rw [List.mem_singleton.mp hg]
          exact (h.readyBy hpoll.1).mono rfl (by dsimp only; exact Int.add_le_add_right htick δ)
  | claimRest workerId maxJobs first =>
      obtain ⟨-, -, hfirst⟩ := PriorityJobQueue.drain_refines hq h.ripe (maxJobs - 1)
      obtain ⟨entry, hentry, rfl⟩ := List.mem_map.mp hg
      rcases List.mem_cons.mp hentry with rfl | hentry
      · have hf : e.ReadyBy entry.jobId (e.wallMs + δ) := h.frames _ (Multiset.mem_cons_self _ _)
        exact hf.mono rfl (Int.add_le_add_right htick δ)
      · exact (h.readyBy (hfirst.ready _ (List.mem_map_of_mem hentry))).mono rfl (Int.add_le_add_right htick δ)
  | start jobId owner eligibleAt remote =>
      have hf : e.ReadyBy jobId (e.wallMs + δ) := h.frames _ (Multiset.mem_cons_self _ _)
      simp only [advance, start] at hg
      split at hg
      · cases hg
      · rename_i job hjob
        split_ifs at hg with hwait
        · rw [List.mem_singleton.mp hg]
          exact ⟨by rw [getJob_jobId hjob]; exact hjob, hf job hjob hwait⟩
        · cases hg
  | _ => exact hquiet (by simp [Frame.kind, Kind.next, Kind.ending, Kind.timed])

theorem entries_pos_of_lookup {D : Multiset Due} {j : JobId} {a : MapEntry} (hq : e.queue.Consistent)
    (h : e.queue.toMap.entries.lookup j = some a) : 0 < e.board.entries D j := by
  obtain ⟨x, hx, heq⟩ := (hq.lookup_toMap j a).mp h
  have hlive : j ∈ e.board.live := hq.mem_live_iff.mpr ⟨x, hx, congrArg Prod.fst heq⟩
  rw [Board.entries, if_pos hlive]
  omega

theorem entries_pos_of_mem {b : Board} {D : Multiset Due} {j : JobId} (h : .held j ∈ D) : 0 < b.entries D j := by
  have hpos : 0 < D.countP (·.ticket j) := Multiset.countP_pos.mpr ⟨_, h, by simp [Due.ticket]⟩
  rw [Board.entries]
  omega

/-- The other operations stay on time. -/
theorem Timely.onTime_old {c : Choice} {f g : Frame} {O : Multiset Frame} (h : e.Timely δ (f ::ₘ O))
    (hO : ∀ g ∈ O, g.kind.still = true) (hg : g ∈ O) : (e.advance c f).1.OnTime δ g := by
  have hstill := hO g hg
  cases g with
  | start jobId owner eligibleAt remote =>
      have hf : e.ReadyBy jobId (e.wallMs + δ) := h.frames _ (Multiset.mem_cons_of_mem hg)
      have hdue : Due.held jobId ∈ duesIn (f ::ₘ O) :=
        mem_duesIn.mpr ⟨_, Multiset.mem_cons_of_mem hg, Multiset.mem_singleton_self _⟩
      have hpos := entries_pos_of_mem (b := e.board) hdue
      have hwall := (advance_onward (e := e) c f).flows.wallMs_le h.clock
      intro row hrow hwait
      rcases h.tended.getJob_advance hrow hwait with hold | hnone
      · exact (hf row hold hwait).trans (Int.add_le_add_right hwall δ)
      · omega
  | claimRest _ _ _ | startWrite _ _ _ _ | enqueue _ _ => cases hstill
  | _ => trivial

theorem Timely.entries_advance {c : Choice} {f : Frame} {O : Multiset Frame} (h : e.Timely δ (f ::ₘ O)) {j : JobId}
    {a : MapEntry} (ha : (e.advance c f).1.queue.toMap.entries.lookup j = some a) :
    (e.advance c f).1.ReadyBy j (a.readyAtMs + (e.advance c f).1.world.skew + δ) := by
  have hq := h.tended.steady.sound.queue
  rw [(advance_onward (e := e) c f).flows.skew]
  intro row hrow hwait
  rcases (advance_queue (e := e) c f).lookup hq h.ripe ha with hold | ⟨job, token, rfl, rfl, hready⟩
  · rcases h.tended.getJob_advance hrow hwait with hrow | hnone
    · exact h.entries j a hold row hrow hwait
    · exact absurd hnone (Nat.pos_iff_ne_zero.mp (entries_pos_of_lookup hq hold))
  · have hf : e.ReadyBy job.jobId job.readyAtWallMs := h.frames _ (Multiset.mem_cons_self _ _)
    have hdb : (e.advance c (.enqueue job token)).1.db = e.db := by
      cases token <;> exact (enqueue_rows job).1
    rw [hdb] at hrow
    rw [hready]
    exact (hf row hrow hwait).trans (readyAt_le h.clock job)

/-- A row is written as running by an operation that starts it on time, or when it was running. -/
theorem Timely.prompt_of_writes {f : Frame} {O : Multiset Frame} {row old : Job} (h : e.Timely δ (f ::ₘ O))
    (hrow : e.Writes f row) (hold : e.db.getJob row.jobId = some old) : Prompt δ old row := by
  intro hrun hnot
  have hf := h.frames f (Multiset.mem_cons_self f O)
  have hproper := h.tended.steady.sound.proper f (Multiset.mem_cons_self f O)
  cases hrow with
  | flag job =>
      have hwin := h.tended.steady.exact .cancel job.jobId job.stub
        (mem_duesIn.mpr ⟨_, Multiset.mem_cons_self _ _, by simp [Frame.dues]⟩) (by simp)
      rw [board_row, hold, Option.map_some, Option.some.injEq] at hwin
      have hstate : old.state = job.state := congrArg Stub.state hwin
      exact absurd (hstate.trans hproper) hnot
  | start job owner eligibleAt remote =>
      rw [show e.db.getJob (e.startedRow job owner eligibleAt remote).jobId = some job from hf.1,
        Option.some.injEq] at hold
      subst hold
      exact ⟨rfl, hf.2⟩
  | retry token =>
      rw [show row.state = .retrying from hproper] at hrun
      cases hrun
  | finish token =>
      have hend : row.state.isTerminal = true := hproper.1
      rw [hrun] at hend
      cases hend
  | expire now job =>
      unfold expiredRow at hrun
      dsimp only at hrun
      split_ifs at hrun
  | release job =>
      unfold releasedRow at hrun
      dsimp only at hrun
      split_ifs at hrun
  | _ => cases hrun

theorem Timely.advance {c : Choice} {f : Frame} {O : Multiset Frame} (h : e.Timely δ (f ::ₘ O))
    (hO : ∀ g ∈ O, g.kind.still = true) :
    (e.advance c f).1.Timely δ (((e.advance c f).2 : Multiset Frame) + O) := by
  have hflows := (advance_onward (e := e) c f).flows
  refine ⟨⟨hflows.inStep h.clock, ?_, fun j a => h.entries_advance⟩, h.tended.advance hO, fun g hg => ?_, ?_⟩
  · refine (advance_queue c f).ripe h.tended.steady.sound.queue h.clock.monotone hflows
      (fun job token hf => ?_) h.ripe
    have hle := nowMs_enqueue h.clock.monotone job
    subst hf
    cases token <;> exact hle
  · rcases Multiset.mem_add.mp hg with hg | hg
    · exact h.onTime_new hg
    · exact h.onTime_old hO hg
  · cases advance_rows (e := e) c f with
    | same _ hjournal =>
        rw [hjournal]
        exact h.prompt
    | wrote row hrow _ hjournal =>
        rw [hjournal]
        refine h.prompt.concat fun row' hw old hold hid => ?_
        obtain rfl := RowWrite.update.inj hw
        rw [← h.tended.steady.chronicle.holds.jobs] at hold
        exact h.prompt_of_writes hrow (Table.lookup_eq_some.mpr ⟨hold, hid⟩)

theorem Timely.spawn {f : Frame} {F : Multiset Frame} (h : e.Timely δ F) (hF : ∀ g ∈ F, g.parks = true)
    (hcall : Call f) : e.Timely δ (f ::ₘ F) := by
  refine ⟨h.toPatient, h.tended.spawn hF hcall, fun g hg => ?_, h.prompt⟩
  rcases Multiset.mem_cons.mp hg with rfl | hg
  · refine onTime_of_kind ?_
    cases g <;> first | rfl | cases hcall
  · exact h.frames g hg

/-! ### Submissions -/

theorem Patient.push (h : e.Patient δ) (hq : e.queue.Consistent) {job : Job}
    (hjob : e.ReadyBy job.jobId job.readyAtWallMs) : (e.enqueue job).Patient δ := by
  have hflows := (enqueue_onward (e := e) job).flows
  refine ⟨hflows.inStep h.clock, ?_, fun j a ha row hrow hwait => ?_⟩
  · exact ripe_enqueue (h.ripe.mono (hflows.nowMs_le h.clock.monotone)) (nowMs_enqueue h.clock.monotone job)
  · rw [(enqueue_rows job).1] at hrow
    rw [hflows.skew]
    rcases entry_enqueue hq ha with hold | ⟨rfl, rfl⟩
    · exact h.entries j a hold row hrow hwait
    · exact (hjob row hrow hwait).trans (readyAt_le h.clock job)

theorem Patient.pushes {jobs : List Job} (h : e.Patient δ) (hq : e.queue.Consistent)
    (hjobs : ∀ job ∈ jobs, e.ReadyBy job.jobId job.readyAtWallMs) : (jobs.foldl enqueue e).Patient δ := by
  induction jobs generalizing e with
  | nil => exact h
  | cons job jobs ih =>
      refine ih (h.push hq (hjobs job List.mem_cons_self)) (enqueue_queued hq job).kept.consistent fun job' hmem => ?_
      exact (hjobs job' (List.mem_cons_of_mem _ hmem)).mono (by rw [(enqueue_rows job).1]) le_rfl

theorem Intake.readyBy {news : List Job} {job : Job} (h : e.Intake e' news) (hjob : job ∈ news) :
    e'.ReadyBy job.jobId job.readyAtWallMs := by
  intro row hrow _
  rw [h.found hjob, Option.some.injEq] at hrow
  rw [← hrow]
  exact le_rfl

theorem Timely.submits {F : Multiset Frame} (h : e.Timely δ F) (hF : ∀ g ∈ F, g.parks = true)
    (hsub : Submits e e') : e'.Timely δ F := by
  obtain ⟨news, hnews⟩ := submits_intake hsub
  have hq := h.tended.steady.sound.queue
  refine ⟨?_, h.tended.submits hF hsub, fun g hg => ?_, ?_⟩
  · obtain ⟨e₁, hflows, hqueue, hdb, he'⟩ := hnews.queued
    have h₁ : e₁.Patient δ := by
      refine ⟨hflows.inStep h.clock, ?_, fun j a ha row hrow hwait => ?_⟩
      · rw [hqueue]
        exact h.ripe.mono (hflows.nowMs_le h.clock.monotone)
      · rw [hqueue] at ha
        rw [hdb] at hrow
        rw [hflows.skew]
        rcases hnews.getJob hrow with hold | ⟨hnone, -⟩
        · exact h.entries j a ha row hold hwait
        · -- a job without a row has no entry
          obtain ⟨x, hx, heq⟩ := (hq.lookup_toMap j a).mp ha
          exact absurd (hq.mem_live_iff.mpr ⟨x, hx, congrArg Prod.fst heq⟩) (h.tended.not_live hnone)
    rw [he']
    refine h₁.pushes (hqueue ▸ hq) fun job hjob => ?_
    exact (hnews.readyBy (List.mem_of_mem_filter hjob)).mono (by rw [hdb]) le_rfl
  · refine onTime_of_kind ?_
    have hpark := hF g hg
    cases g <;> first | rfl | cases hpark
  · cases submits_issues hsub with
    | nothing _ hjournal =>
        rw [hjournal]
        exact h.prompt
    | job job _ _ hjournal =>
        rw [hjournal]
        exact h.prompt.concat fun row hw => by cases hw
    | workflow wf rows edges _ _ hjournal =>
        rw [hjournal]
        exact h.prompt.concat fun row hw => by cases hw

/-! ### Recovery -/

/-- A row is written whose job has no entry. -/
theorem Patient.persist {row : Job} (h : e.Patient δ) (hr : e.Reliable) (hq : e.queue.Consistent)
    (hrow : row.jobId ∉ e.queue.live) : (e.persist row).Patient δ := by
  have hflows := (persist_onward (e := e) row).flows
  have hqueue := queue_persist (e := e) row
  refine ⟨hflows.inStep h.clock, ?_, fun j a ha row' hrow' hwait => ?_⟩
  · rw [hqueue]
    exact h.ripe.mono (hflows.nowMs_le h.clock.monotone)
  · rw [hqueue] at ha
    rw [hflows.skew]
    obtain ⟨x, hx, heq⟩ := (hq.lookup_toMap j a).mp ha
    have hlive : j ∈ e.queue.live := hq.mem_live_iff.mpr ⟨x, hx, congrArg Prod.fst heq⟩
    have hne : row.persisted.jobId ≠ j := fun hid => hrow (hid ▸ hlive)
    rw [persist_of_reliable hr] at hrow'
    change (e.db.jobs.update row.persisted).lookup j = some row' at hrow'
    rw [Table.lookup_update, if_neg hne] at hrow'
    exact h.entries j a ha row' hrow' hwait

theorem Patient.recoverJob {job : Job} (h : e.Patient δ) (hr : e.Reliable) (hq : e.queue.Consistent)
    (hrow : e.db.getJob job.jobId = some job) (hnot : job.jobId ∉ e.queue.live) : (e.recoverJob job).Patient δ := by
  have h' : JobEngine.Patient { e with outstanding := e.outstanding + 1 } δ := ⟨h.clock, h.ripe, h.entries⟩
  unfold JobEngine.recoverJob
  dsimp only
  split_ifs
  · have hnot' : (JobEngine.recoveredRow { e with outstanding := e.outstanding + 1 } job).jobId ∉ e.queue.live := hnot
    have hpersist := h'.persist hr hq hnot'
    refine hpersist.push (by rw [queue_persist]; exact hq) (readyBy_written (e := e) ?_)
    rw [persist_of_reliable (show JobEngine.Reliable { e with outstanding := e.outstanding + 1 } from hr)]
    rfl
  · refine h'.push hq fun row hrow' _ => ?_
    rw [show ({ e with outstanding := e.outstanding + 1 } : JobEngine).db.getJob job.jobId = some job from hrow,
      Option.some.injEq] at hrow'
    rw [hrow']
  · exact h'

theorem Recovering.patient {jobs : List Job} (h : e.Recovering jobs) (hr : e.Reliable) (hq : e.queue.Consistent)
    (hlive : ∀ job ∈ jobs, job.jobId ∉ e.queue.live) (hp : e.Patient δ) :
    (jobs.foldl recoverJob e).Patient δ := by
  induction jobs generalizing e with
  | nil => exact hp
  | cons job jobs ih =>
      have hnd := h.nodup
      rw [List.map_cons, List.nodup_cons] at hnd
      have hrec := recoverJob_recovered hq job
      refine ih h.next ((recoverJob_flows job).reliable hr) hrec.kept.consistent (fun job' hmem hin => ?_)
        (hp.recoverJob hr hq (h.rows job List.mem_cons_self) (hlive job List.mem_cons_self))
      rcases Finset.mem_union.mp (hrec.live.2 hin) with hold | hnew
      · exact hlive job' (List.mem_cons_of_mem _ hmem) hold
      · obtain ⟨x, hx, hid⟩ := List.mem_map.mp (List.mem_toFinset.mp hnew)
        rw [List.mem_singleton.mp (List.mem_of_mem_filter hx)] at hid
        exact hnd.1 (hid ▸ List.mem_map_of_mem hmem)

/-- Recovery starts nothing. -/
theorem prompt_recover {jobs : List Job} (h : Journaled (Prompt δ) e.journal) :
    Journaled (Prompt δ) (jobs.foldl recoverJob e).journal := by
  induction jobs generalizing e with
  | nil => exact h
  | cons job jobs ih =>
      refine ih ?_
      rcases rows_recoverJob (e := e) job with ⟨-, hsame⟩ | ⟨-, -, hwrote⟩
      · rw [hsame]
        exact h
      · rw [hwrote]
        refine h.concat fun row hw old _ _ hrun => ?_
        obtain rfl := RowWrite.update.inj hw
        cases hrun

theorem Timely.restarts {F : Multiset Frame} (h : e.Timely δ F)
    (hr : RestartsWith (fun _ world _ => world.InStep δ) e e') : e'.Timely δ 0 := by
  have htended := h.tended.restarts hr.restarts
  obtain @⟨cfg, types, world, db, kept, hkept, hdb, hworld, hclock⟩ := hr
  have hchronicle : (restart cfg types world db kept).Chronicle := h.tended.steady.chronicle.restart hkept hdb
  have hstart := recovering_start hchronicle (.restart h.tended.steady.chronicle hkept hdb)
  have hpatient : ((restart cfg types world db kept).recoverGraph db.loadNonTerminalJobs).Patient δ := by
    refine ⟨hclock, fun x hx => ?_, fun j a ha => ?_⟩
    · cases hx
    · obtain ⟨x, hx, -⟩ := ((PriorityJobQueue.consistent_empty cfg.maxOutstandingJobs).lookup_toMap j a).mp ha
      rcases hx with hx | hx <;> cases hx
  obtain ⟨hc, hripe, hentries⟩ := hstart.patient hworld (PriorityJobQueue.consistent_empty _)
    (fun _ _ hin => by cases hin) hpatient
  refine ⟨⟨hc, hripe, hentries⟩, htended, by simp, ?_⟩
  exact prompt_recover (e := (restart cfg types world db kept).recoverGraph db.loadNonTerminalJobs)
    (h.prompt.of_prefix hkept)

/-! ### Runs -/

section Claims

variable {cfg : EngineConfig} {types : List String} {world : World} {p : Pool JobEngine Frame}

theorem boot_timely (hworld : ∀ n, world.fault n = false) (hclock : world.InStep δ) :
    (boot cfg types world).Timely δ 0 := by
  refine ⟨⟨hclock, fun x hx => ?_, fun j a ha => ?_⟩, boot_tended hworld, by simp, .nil _⟩
  · cases hx
  · obtain ⟨x, hx, -⟩ := ((PriorityJobQueue.consistent_empty cfg.maxOutstandingJobs).lookup_toMap j a).mp ha
    rcases hx with hx | hx <;> cases hx

theorem Timely.lived {p p' : Pool JobEngine Frame} (h : p.state.Timely δ p.frames) (hp : engineSystem.AtRest p)
    (hrun : LivedWith (fun _ world _ => world.InStep δ) p p') : p'.state.Timely δ p'.frames :=
  lives_invariant (I := fun e F => e.Timely δ F) hrun hp
    (fun _ _ _ _ hO h => h.advance hO) (fun _ _ _ hF hsub h => h.submits hF hsub)
    (fun _ _ _ hF hcall h => h.spawn hF hcall) (fun _ _ _ hr h => h.restarts hr) h

/-- **No job starts early**, but for the time between the two clock readings of `enqueue`: whenever a row is
written as running, the ready time in the row as it was is at most `δ` ahead of the start. -/
theorem started_when_ready (hworld : ∀ n, world.fault n = false) (hclock : world.InStep δ)
    (hrun : LivedWith (fun _ world _ => world.InStep δ) ⟨boot cfg types world, []⟩ p) :
    p.state.db.Holds p.state.journal ∧
    ∀ pre row post, p.state.journal = pre ++ .update row :: post → row.state = .running →
      ∀ old ∈ (replay pre).jobs, old.jobId = row.jobId → old.state ≠ .running →
        old.readyAtWallMs = row.readyAtWallMs ∧ old.readyAtWallMs ≤ row.startedAtWallMs + δ := by
  have h := (boot_timely hworld hclock).lived atRest_boot hrun
  refine ⟨h.tended.steady.chronicle.holds, fun pre row post hjournal hrow old hold hid hnot => ?_⟩
  exact h.prompt pre row post hjournal old hold hid hrow hnot

/-- A job that is to run in `delay` milliseconds is submitted, and a worker asks for a job. -/
def delayed (delay : Int) : List (System.Play JobEngine Frame Choice) :=
  [.env fun e => (e.submit { type := "t", delayMs := delay }).2, .call (.workerPop "w") {}]

theorem delayed_playable (delay : Int) : ∀ a ∈ delayed delay, System.Playable Submits Call a := by
  simp only [delayed, List.forall_mem_cons, System.Playable, Call, Frame.isCall, true_and]
  exact ⟨fun e => .job _ rfl rfl, by simp⟩

/-- What a write and the row it changes say about the start of an attempt. -/
structure StartView where
  jobId : JobId
  state : JobState
  readyAtWallMs : Int
  startedAtWallMs : Int
  deriving DecidableEq

def startView (job : Job) : StartView := ⟨job.jobId, job.state, job.readyAtWallMs, job.startedAtWallMs⟩

theorem inStep_id : World.InStep { wall := fun n => n, steady := fun n => n } 0 :=
  ⟨fun _ => rfl, fun _ => ⟨le_rfl, le_rfl⟩, fun n => by simp⟩

set_option maxRecDepth 8000 in
theorem started_when_ready_delayed : ∃ p pre row post old,
    LivedWith (fun _ world _ => world.InStep 0)
      ⟨boot {} ["t"] { wall := fun n => n, steady := fun n => n }, []⟩ p ∧
    p.state.journal = pre ++ .update row :: post ∧ row.state = .running ∧ old ∈ (replay pre).jobs ∧
      old.jobId = row.jobId ∧ old.state = .scheduled ∧ old.readyAtWallMs = 3 ∧ 3 ≤ row.startedAtWallMs := by
  have hplay : (engineSystem.plays 40 ⟨boot {} ["t"] { wall := fun n => n, steady := fun n => n }, []⟩
      (delayed 3)).map (fun p =>
        ((replay (p.state.journal.take 1)).jobs.map startView,
          (p.state.journal[1]?).bind fun w => w.updated.map startView)) =
      some ([⟨"j_0", .scheduled, 3, 0⟩], some ⟨"j_0", .running, 3, 5⟩) := by
    decide +kernel
  obtain ⟨p, hrun, hview⟩ := System.exists_turns (delayed_playable 3) hplay
  obtain ⟨hrows, hwrite⟩ := Prod.mk.inj hview
  obtain ⟨row, hjournal, hrow⟩ := exists_updated hwrite
  obtain ⟨old, hold, hcols⟩ := mem_of_view hrows
  simp only [startView, StartView.mk.injEq] at hrow hcols
  refine ⟨p, _, row, _, old, hrun.lives, hjournal, hrow.2.1, hold, hcols.1.trans hrow.1.symm, hcols.2.1,
    hcols.2.2.1, ?_⟩
  obtain ⟨-, hready⟩ := (started_when_ready (fun _ => rfl) inStep_id hrun.lives).2 _ row _ hjournal hrow.2.1 old hold
    (hcols.1.trans hrow.1.symm) (by rw [hcols.2.1]; decide)
  rw [hcols.2.2.1] at hready
  omega

/-- One millisecond passes between the two clock readings of the first `enqueue`; the worker then asks when the
converted time has come. -/
def lagging : World :=
  { wall := fun n => if n ≤ 2 then 0 else if n = 3 then 1 else 4
    steady := fun n => if n ≤ 2 then 0 else if n = 3 then 1 else 4
    lag := fun n => if n = 2 then 1 else 0 }

theorem inStep_lagging : lagging.InStep 1 := by
  refine ⟨fun _ => rfl, fun n => ?_, fun n => ?_⟩
  · simp only [lagging]
    split_ifs <;> simp
  · simp only [lagging]
    split_ifs <;> omega

set_option maxRecDepth 8000 in
theorem started_before_ready : lagging.InStep 1 ∧ ∃ p pre row post old,
    LivedWith (fun _ world _ => world.InStep 1) ⟨boot {} ["t"] lagging, []⟩ p ∧
    p.state.journal = pre ++ .update row :: post ∧ row.state = .running ∧ old ∈ (replay pre).jobs ∧
      old.jobId = row.jobId ∧ old.state = .scheduled ∧ row.startedAtWallMs = 4 ∧ old.readyAtWallMs = 5 := by
  have hplay : (engineSystem.plays 40 ⟨boot {} ["t"] lagging, []⟩ (delayed 5)).map (fun p =>
        ((replay (p.state.journal.take 1)).jobs.map startView,
          (p.state.journal[1]?).bind fun w => w.updated.map startView)) =
      some ([⟨"j_0", .scheduled, 5, 0⟩], some ⟨"j_0", .running, 5, 4⟩) := by
    decide +kernel
  obtain ⟨p, hrun, hview⟩ := System.exists_turns (delayed_playable 5) hplay
  obtain ⟨hrows, hwrite⟩ := Prod.mk.inj hview
  obtain ⟨row, hjournal, hrow⟩ := exists_updated hwrite
  obtain ⟨old, hold, hcols⟩ := mem_of_view hrows
  simp only [startView, StartView.mk.injEq] at hrow hcols
  exact ⟨inStep_lagging, p, _, row, _, old, hrun.lives, hjournal, hrow.2.1, hold, hcols.1.trans hrow.1.symm,
    hcols.2.1,
    hrow.2.2.2, hcols.2.2.1⟩

end Claims

end JobEngine

end DistributedJobEngine
