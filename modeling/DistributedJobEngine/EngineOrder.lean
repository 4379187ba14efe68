import DistributedJobEngine.EngineCapacity
import DistributedJobEngine.EnginePlaces
import DistributedJobEngine.EngineQueue
import DistributedJobEngine.EngineRows

/-! The order in which jobs are popped. Two sequence numbers carry it: the one in the row, which every recovery seeds
anew from the rows it finds, and the one the queue gives an entry when it is pushed. For jobs that were never started
the second follows the first, since recovery pushes the rows in the order of the first. -/

namespace DistributedJobEngine

open LibPool LibTable

/-- The clocks of a process do not go back. -/
structure World.Forward (w : World) : Prop where
  steady : Monotone w.steady
  wall : Monotone w.wall
  lag : ∀ n, 0 ≤ w.lag n

/-- A job of no workflow that is queued and was never started. -/
def Job.Untouched (job : Job) : Prop := job.state = .queued ∧ job.attempt = 0 ∧ job.workflowId = ""

/-- The columns that tell a row that was written again from one that was only inserted. -/
structure Job.Marked (job : Job) : Prop where
  nonneg : 0 ≤ job.attempt
  started : job.state = .running → 1 ≤ job.attempt
  pending : job.state = .pending → job.workflowId ≠ ""

/-- Of two rows, the earlier one has the smaller sequence number, as long as both are untouched. -/
def Job.InOrder (a b : Job) : Prop := a.Untouched → b.Untouched → a.seq < b.seq

namespace JobEngine

variable {e e' : JobEngine} {c : Choice} {f : Frame} {O : Multiset Frame}

theorem rowLaw_marked : RowLaw Job.Marked where
  persisted _ h := ⟨h.nonneg, h.started, h.pending⟩
  fresh job h := by
    refine ⟨le_of_eq h.attempt.symm, fun hrun => ?_, h.waits⟩
    rcases h.state with hs | hs | hs <;> rw [hs] at hrun <;> cases hrun
  flag _ h _ := ⟨h.nonneg, h.started, h.pending⟩
  cancel _ _ h := ⟨h.nonneg, nofun, nofun⟩
  start _ _ _ _ _ h _ _ := ⟨Int.le_add_one h.nonneg, fun _ => Int.le_add_of_nonneg_left h.nonneg, nofun⟩
  finish e job info outcome h := by
    obtain ⟨hattempt, -, hstate⟩ := finishedRow_columns (e := e) job info outcome
      (verdict (e.reasonOf info) job outcome).1 (verdict (e.reasonOf info) job outcome).2.2
    have hnot : ∀ st, st = .running ∨ st = .pending → (verdict (e.reasonOf info) job outcome).1 ≠ st := by
      rintro st hst hv
      rcases verdict_state (e.reasonOf info) job outcome with hret | ⟨hend, -⟩
      · rcases hst with rfl | rfl <;> rw [hret] at hv <;> cases hv
      · rcases hst with rfl | rfl <;> rw [hv] at hend <;> cases hend
    exact ⟨hattempt ▸ h.nonneg, fun hs => absurd (hstate ▸ hs) (hnot _ (.inl rfl)),
      fun hs => absurd (hstate ▸ hs) (hnot _ (.inr rfl))⟩
  expire now job h _ := by
    unfold expiredRow
    dsimp only
    split_ifs <;> exact ⟨h.nonneg, nofun, nofun⟩
  release e job h _ := by
    unfold releasedRow
    split_ifs <;> exact ⟨h.nonneg, nofun, nofun⟩
  skip _ _ h := ⟨h.nonneg, nofun, nofun⟩

theorem resumable_marked (kept : List RowWrite) : Resumable Job.Marked kept :=
  fun _ _ _ h _ => ⟨h.nonneg, nofun, nofun⟩

/-- No row that a step writes is that of an untouched job. -/
theorem Ruled.not_untouched {f : Frame} {O : Multiset Frame} {row : Job} (h : e.Ruled Job.Marked (f ::ₘ O))
    (hrow : e.Writes f row) : ¬ row.Untouched := by
  have hf := h.copies f (Multiset.mem_cons_self f O)
  have hst := h.staged f (Multiset.mem_cons_self f O)
  have hproper := h.tended.steady.sound.proper f (Multiset.mem_cons_self f O)
  rintro ⟨hqueued, hattempt, hwf⟩
  cases hrow with
  | flag job =>
      rw [show ({ job with cancelRequested := true } : Job).state = .running from hproper] at hqueued
      cases hqueued
  | retry token =>
      rw [show row.state = .retrying from hproper] at hqueued
      cases hqueued
  | finish token =>
      have hend : row.state.isTerminal = true := hproper.1
      rw [hqueued] at hend
      cases hend
  | expire now job =>
      have hpos := (hf job rfl).started hst
      have hsame : (expiredRow now job).attempt = job.attempt := by
        unfold expiredRow
        dsimp only
        split_ifs <;> rfl
      omega
  | release job => exact (hf job rfl).pending hst hwf
  | _ => cases hqueued

/-! ### The invariant -/

theorem Flows.forward (h : e.Flows e') (hw : e.world.Forward) : e'.world.Forward := by
  rw [h.1]
  exact ⟨hw.steady, hw.wall, hw.lag⟩

theorem Flows.wall_le (h : e.Flows e') (hw : e.world.Forward) : e.wallMs ≤ e'.wallMs := by
  have hle := hw.wall h.2
  unfold wallMs
  rw [h.1]
  exact hle

/-- The untouched job of the row has the entry `a`. -/
structure Awaits (e : JobEngine) (row : Job) (a : MapEntry) : Prop where
  found : e.db.getJob row.jobId = some row
  untouched : row.Untouched
  entry : e.queue.toMap.entries.lookup row.jobId = some a

/-- The entries of untouched jobs: they have matured, and at one priority they are in the order of the rows. -/
structure Lined (e : JobEngine) : Prop where
  clock : e.world.Forward
  ripe : e.queue.Ripe e.nowMs
  matured : ∀ row a, e.Awaits row a → a.priority = row.priority ∧ a.readyAtMs ≤ e.nowMs
  order : ∀ row a row' a', e.Awaits row a → e.Awaits row' a' → row.priority = row'.priority → row.seq < row'.seq →
    a.seq < a'.seq

structure Ordered (e : JobEngine) (F : Multiset Frame) : Prop extends Lined e where
  ruled : e.Ruled Job.Marked F
  roomy : e.Roomy F
  pushes : ∀ job token, .enqueue job token ∈ F → ∀ row, e.db.getJob job.jobId = some row → ¬ row.Untouched
  sorted : ∀ ws, ws <+: e.journal → (replay ws).jobs.Pairwise Job.InOrder
  below : ∀ row ∈ e.db.jobs.rows, row.Untouched → row.seq < e.seqCounter

/-- No step makes a job untouched. -/
theorem Ruled.getJob_untouched {j : JobId} {row : Job}
    (h : e.Ruled Job.Marked (f ::ₘ O)) (hrow : (e.advance c f).1.db.getJob j = some row) (hu : row.Untouched) :
    e.db.getJob j = some row := by
  cases advance_rows (e := e) c f with
  | same hjobs _ =>
      rw [Database.getJob, hjobs] at hrow
      exact hrow
  | wrote row' hwrites hjobs _ =>
      rw [Database.getJob, hjobs, Table.lookup_update] at hrow
      split_ifs at hrow
      · obtain ⟨old, -, rfl⟩ := Option.map_eq_some_iff.mp hrow
        exact absurd (show row'.Untouched from hu) (h.not_untouched hwrites)
      · exact hrow

theorem Ordered.awaits_advance {row : Job} {a : MapEntry}
    (h : e.Ordered (f ::ₘ O)) (ha : (e.advance c f).1.Awaits row a) : e.Awaits row a := by
  have hrow := h.ruled.getJob_untouched ha.found ha.untouched
  refine ⟨hrow, ha.untouched, ?_⟩
  rcases (advance_queue c f).lookup h.roomy.tended.steady.sound.queue h.ripe ha.entry with hold |
    ⟨job, token, rfl, hid, -⟩
  · exact hold
  · exact absurd ha.untouched (h.pushes job token (Multiset.mem_cons_self _ _) row (hid ▸ hrow))

/-- Rows that are written again are out of the order. -/
theorem pairwise_update {ws : List RowWrite} {row : Job} (h : (replay ws).jobs.Pairwise Job.InOrder)
    (hrow : ¬ row.Untouched) : (replay (ws ++ [.update row])).jobs.Pairwise Job.InOrder := by
  rw [replay_concat]
  refine List.pairwise_map.mpr (h.imp fun {a b} hab => ?_)
  intro ha hb
  split_ifs at ha hb ⊢ <;> first | exact absurd ha hrow | exact absurd hb hrow | exact hab ha hb

theorem Ordered.advance (h : e.Ordered (f ::ₘ O))
    (hO : ∀ g ∈ O, g.kind.still = true) :
    (e.advance c f).1.Ordered (((e.advance c f).2 : Multiset Frame) + O) := by
  have hflows := (advance_onward (e := e) c f).flows
  have hq := h.roomy.tended.steady.sound.queue
  refine ⟨⟨hflows.forward h.clock, ?_, fun row a ha => ?_, fun row a row' a' ha ha' => ?_⟩,
    h.ruled.advance rowLaw_marked hO,
    h.roomy.advance hO, fun job token hg row hrow hu => ?_, ?_, fun row hrow hu => ?_⟩
  · refine (advance_queue c f).ripe hq h.clock.steady hflows (fun job token hf => ?_) h.ripe
    have hle := nowMs_enqueue h.clock.steady job
    subst hf
    cases token <;> exact hle
  · obtain ⟨hpri, hready⟩ := h.matured row a (h.awaits_advance ha)
    exact ⟨hpri, hready.trans (hflows.nowMs_le h.clock.steady)⟩
  · exact h.order row a row' a' (h.awaits_advance ha) (h.awaits_advance ha')
  · rcases Multiset.mem_add.mp hg with hg | hg
    · obtain ⟨hwrites, hjobs⟩ := writes_of_enqueue h.roomy.tended.steady.sound.reliable hg
      rw [Database.getJob, hjobs, Table.lookup_update, if_pos (show job.persisted.jobId = job.jobId from rfl)] at hrow
      obtain ⟨old, -, rfl⟩ := Option.map_eq_some_iff.mp hrow
      exact h.ruled.not_untouched hwrites hu
    · cases hO _ hg
  · cases advance_rows (e := e) c f with
    | same _ hjournal =>
        rw [hjournal]
        exact h.sorted
    | wrote row hrow _ hjournal =>
        rw [hjournal]
        exact prefixes_concat h.sorted
          (pairwise_update (h.sorted _ (List.prefix_refl _)) (h.ruled.not_untouched hrow))
  · rw [(advance_onward c f).seqCounter]
    have hold := h.ruled.getJob_untouched (Table.lookup_eq_some.mpr ⟨hrow, rfl⟩) hu
    exact h.below row (Table.lookup_eq_some.mp hold).1 hu

theorem Ordered.spawn {f : Frame} {F : Multiset Frame} (h : e.Ordered F) (hF : ∀ g ∈ F, g.parks = true)
    (hcall : Call f) : e.Ordered (f ::ₘ F) := by
  refine ⟨h.toLined, h.ruled.spawn hF hcall, h.roomy.spawn hF hcall, fun job token hg => ?_, h.sorted, h.below⟩
  rcases Multiset.mem_cons.mp hg with rfl | hg
  · cases hcall
  · exact h.pushes job token hg

/-! ### Pushing -/

/-- The job may get an entry: if it is untouched, it is ready, and it comes after the jobs of its priority that have
one. -/
def Joins (e : JobEngine) (job : Job) : Prop :=
  ∀ row, e.db.getJob job.jobId = some row → row.Untouched →
    row.priority = job.priority ∧ row.seq = job.seq ∧ job.readyAtWallMs ≤ e.wallMs ∧
      ∀ x a, e.Awaits x a → x.jobId ≠ job.jobId → x.priority = job.priority → x.seq < job.seq

theorem readySteady_of_le {job : Job} (hw : e.world.Forward) (hready : job.readyAtWallMs ≤ e.wallMs) :
    e.readySteady job = e.nowMs := by
  have hlag := hw.lag e.world.pos
  unfold readySteady
  dsimp only
  rw [if_neg (by omega)]

/-- An untouched job with an entry after `enqueue` had it before, or is the one that was pushed. -/
theorem Awaits.of_enqueue {job row : Job} {a : MapEntry} (hq : e.queue.Consistent)
    (h : (e.enqueue job).Awaits row a) :
    e.Awaits row a ∨ e.db.getJob job.jobId = some row ∧ row.Untouched ∧ job.jobId = row.jobId ∧
      a = ⟨job.priority, e.queue.nextSeq, e.readySteady job⟩ := by
  have hrow := h.found
  rw [(enqueue_rows job).1] at hrow
  rcases entry_enqueue hq h.entry with hold | ⟨hid, ha⟩
  · exact .inl ⟨hrow, h.untouched, hold⟩
  · exact .inr ⟨hid ▸ hrow, h.untouched, hid, ha⟩

theorem Lined.push {job : Job} (h : e.Lined) (hq : e.queue.Consistent) (hjob : e.Joins job) :
    (e.enqueue job).Lined := by
  have hflows := (enqueue_onward (e := e) job).flows
  have hle := hflows.nowMs_le h.clock.steady
  refine ⟨hflows.forward h.clock, ripe_enqueue (h.ripe.mono hle) (nowMs_enqueue h.clock.steady job),
    fun row a ha => ?_, fun row a row' a' ha ha' hpri hlt => ?_⟩
  · rcases ha.of_enqueue hq with hold | ⟨hrow, hu, -, rfl⟩
    · exact ⟨(h.matured row a hold).1, (h.matured row a hold).2.trans hle⟩
    · obtain ⟨hpri, -, hready, -⟩ := hjob row hrow hu
      exact ⟨hpri.symm, (readySteady_of_le h.clock hready).trans_le hle⟩
  · rcases ha.of_enqueue hq with hold | ⟨hrow, hu, hid, rfl⟩
    · rcases ha'.of_enqueue hq with hold' | ⟨-, -, -, rfl⟩
      · exact h.order row a row' a' hold hold' hpri hlt
      · exact hq.lookup_seq_lt hold.entry
    · -- nothing of its priority comes after the job that was pushed
      obtain ⟨hpri', hseq, -, hlast⟩ := hjob row hrow hu
      rcases ha'.of_enqueue hq with hold' | ⟨hrow', -⟩
      · by_cases hsame : row'.jobId = job.jobId
        · have hfound := hold'.found
          rw [hsame, hrow, Option.some.injEq] at hfound
          rw [hfound] at hlt
          exact absurd hlt (lt_irrefl _)
        · have hbefore := hlast row' a' hold' hsame (hpri.symm.trans hpri')
          omega
      · rw [hrow, Option.some.injEq] at hrow'
        rw [hrow'] at hlt
        exact absurd hlt (lt_irrefl _)

/-- A job that comes after the one that is pushed may still get an entry. -/
theorem Joins.after {job next : Job} (h : e.Joins next) (hw : e.world.Forward) (hq : e.queue.Consistent)
    (hjob : ∀ row, e.db.getJob job.jobId = some row → row.Untouched → ∀ row', e.db.getJob next.jobId = some row' →
      row'.Untouched → row.priority = row'.priority → row.seq < row'.seq) : (e.enqueue job).Joins next := by
  intro row' hrow' hu'
  rw [(enqueue_rows job).1] at hrow'
  obtain ⟨hpri, hseq, hready, hlast⟩ := h row' hrow' hu'
  refine ⟨hpri, hseq, hready.trans ((enqueue_onward job).flows.wall_le hw), fun x a ha hne hx => ?_⟩
  rcases ha.of_enqueue hq with hold | ⟨hrow, hu, -⟩
  · exact hlast x a hold hne hx
  · rw [← hseq]
    exact hjob x hrow hu row' hrow' hu' (hx.trans hpri.symm)

/-! ### Submissions -/

/-- If both jobs are untouched and have the same priority, the first has the smaller sequence number. -/
def Precedes (e : JobEngine) (a b : Job) : Prop :=
  ∀ row, e.db.getJob a.jobId = some row → row.Untouched → ∀ row', e.db.getJob b.jobId = some row' → row'.Untouched →
    row.priority = row'.priority → row.seq < row'.seq

theorem Lined.pushes {jobs : List Job} (h : e.Lined) (hq : e.queue.Consistent) (hjobs : ∀ job ∈ jobs, e.Joins job)
    (hsorted : jobs.Pairwise e.Precedes) : (jobs.foldl enqueue e).Lined := by
  induction jobs generalizing e with
  | nil => exact h
  | cons job jobs ih =>
      obtain ⟨hfirst, hrest⟩ := List.pairwise_cons.mp hsorted
      refine ih (h.push hq (hjobs job List.mem_cons_self)) (enqueue_queued hq job).kept.consistent
        (fun next hnext => ?_) (hrest.imp fun {a b} hab => ?_)
      · exact (hjobs next (List.mem_cons_of_mem _ hnext)).after h.clock hq (hfirst next hnext)
      · unfold Precedes
        rw [(enqueue_rows job).1]
        exact hab

/-- A job that is in the order has a row that counts. -/
theorem Ordered.seq_lt {F : Multiset Frame} {row : Job} {a : MapEntry} (h : e.Ordered F) (ha : e.Awaits row a) :
    row.seq < e.seqCounter :=
  h.below row (Table.lookup_eq_some.mp ha.found).1 ha.untouched

/-- The entries are as before when the rows of a submission are in the store. -/
theorem Ordered.awaits_intake {e₁ : JobEngine} {F : Multiset Frame} {news : List Job} {row : Job} {a : MapEntry}
    (h : e.Ordered F) (hnews : e.Intake e' news) (hqueue : e₁.queue = e.queue) (hdb : e₁.db = e'.db)
    (ha : e₁.Awaits row a) : e.Awaits row a := by
  obtain ⟨hrow, hu, hentry⟩ := ha
  rw [hdb] at hrow
  rw [hqueue] at hentry
  rcases hnews.getJob hrow with hold | ⟨hnone, -⟩
  · exact ⟨hold, hu, hentry⟩
  · have hq := h.roomy.tended.steady.sound.queue
    obtain ⟨x, hx, heq⟩ := (hq.lookup_toMap _ a).mp hentry
    exact absurd (hq.mem_live_iff.mpr ⟨x, hx, congrArg Prod.fst heq⟩) (h.roomy.tended.not_live hnone)

theorem Ordered.submits {F : Multiset Frame} (h : e.Ordered F) (hF : ∀ g ∈ F, g.parks = true)
    (hsub : Submits e e') : e'.Ordered F := by
  obtain ⟨news, hnews⟩ := submits_intake hsub
  have hruled := h.ruled.submits rowLaw_marked hF hsub
  have hnumbered := hnews.numbered
  refine ⟨?_, hruled, h.roomy.submits hF hsub, fun job token hg => ?_, prefixes_submits hsub h.sorted ?_,
    fun row hrow hu => ?_⟩
  · obtain ⟨e₁, hflows, hqueue, hdb, he'⟩ := hnews.queued
    have hback : ∀ {row a}, e₁.Awaits row a → e.Awaits row a := fun ha => h.awaits_intake hnews hqueue hdb ha
    have h₁ : e₁.Lined := by
      refine ⟨hflows.forward h.clock, ?_, fun row a ha => ?_, fun row a row' a' ha ha' => ?_⟩
      · rw [hqueue]
        exact h.ripe.mono (hflows.nowMs_le h.clock.steady)
      · obtain ⟨hpri, hready⟩ := h.matured row a (hback ha)
        exact ⟨hpri, hready.trans (hflows.nowMs_le h.clock.steady)⟩
      · exact h.order row a row' a' (hback ha) (hback ha')
    have hfound : ∀ job ∈ news, e₁.db.getJob job.jobId = some job.persisted := fun job hjob => by
      rw [hdb]
      exact hnews.found hjob
    rw [he']
    refine h₁.pushes (hqueue ▸ h.roomy.tended.steady.sound.queue) (fun job hjob row hrow hu => ?_) ?_
    · have hmem := List.mem_of_mem_filter hjob
      rw [hfound job hmem, Option.some.injEq] at hrow
      subst hrow
      refine ⟨rfl, rfl, (hnews.ready job hmem hu.1).trans_le (hflows.wall_le h.clock), fun x a ha _ _ => ?_⟩
      exact (h.seq_lt (hback ha)).trans_le (hnumbered.range job hmem).1
    · refine (hnumbered.sorted.sublist List.filter_sublist).imp_of_mem
        fun {a b} ha hb hab row hrow _ row' hrow' _ _ => ?_
      rw [hfound a (List.mem_of_mem_filter ha), Option.some.injEq] at hrow
      rw [hfound b (List.mem_of_mem_filter hb), Option.some.injEq] at hrow'
      rw [← hrow, ← hrow']
      exact hab
  · cases hF _ hg
  · rw [← hruled.tended.steady.chronicle.holds.jobs, hnews.rows, List.pairwise_append]
    refine ⟨?_, List.pairwise_map.mpr (hnumbered.sorted.imp fun hab _ _ => hab), fun a ha b hb hu _ => ?_⟩
    · rw [h.ruled.tended.steady.chronicle.holds.jobs]
      exact h.sorted _ (List.prefix_refl _)
    · obtain ⟨job, hjob, rfl⟩ := List.mem_map.mp hb
      exact (h.below a ha hu).trans_le (hnumbered.range job hjob).1
  · rw [hnews.rows] at hrow
    rcases List.mem_append.mp hrow with hold | hnew
    · exact (h.below row hold hu).trans_le hnumbered.le
    · obtain ⟨job, hjob, rfl⟩ := List.mem_map.mp hnew
      exact (hnumbered.range job hjob).2

/-! ### Recovery -/

theorem Lined.congr (h : e.Lined) (hworld : e'.world = e.world) (hdb : e'.db = e.db) (hqueue : e'.queue = e.queue) :
    e'.Lined := by
  have hback : ∀ {row a}, e'.Awaits row a → e.Awaits row a := fun ha =>
    ⟨hdb ▸ ha.found, ha.untouched, hqueue ▸ ha.entry⟩
  have hnow : e'.nowMs = e.nowMs := by unfold nowMs; rw [hworld]
  refine ⟨hworld ▸ h.clock, ?_, fun row a ha => ?_, fun row a row' a' ha ha' => ?_⟩
  · rw [hqueue, hnow]
    exact h.ripe
  · rw [hnow]
    exact h.matured row a (hback ha)
  · exact h.order row a row' a' (hback ha) (hback ha')

/-- A row that is written is not that of an untouched job, and the others stay. -/
theorem getJob_of_persist {row x : Job} {j : JobId} (hr : e.Reliable) (hrow : ¬ row.Untouched)
    (hx : (e.persist row).db.getJob j = some x) (hu : x.Untouched) : e.db.getJob j = some x ∧ row.jobId ≠ j := by
  rw [persist_of_reliable hr] at hx
  change (e.db.jobs.update row.persisted).lookup j = some x at hx
  rw [Table.lookup_update] at hx
  split_ifs at hx with hid
  · obtain ⟨old, -, rfl⟩ := Option.map_eq_some_iff.mp hx
    exact absurd (show row.Untouched from hu) hrow
  · exact ⟨hx, hid⟩

theorem Awaits.of_persist {row x : Job} {a : MapEntry} (hr : e.Reliable) (hrow : ¬ row.Untouched)
    (h : (e.persist row).Awaits x a) : e.Awaits x a := by
  have hentry := h.entry
  rw [queue_persist] at hentry
  exact ⟨(getJob_of_persist hr hrow h.found h.untouched).1, h.untouched, hentry⟩

theorem Lined.persist {row : Job} (h : e.Lined) (hr : e.Reliable) (hrow : ¬ row.Untouched) :
    (e.persist row).Lined := by
  have hflows := (persist_onward (e := e) row).flows
  refine ⟨hflows.forward h.clock, ?_, fun x a ha => ?_, fun x a x' a' ha ha' => ?_⟩
  · rw [queue_persist]
    exact h.ripe.mono (hflows.nowMs_le h.clock.steady)
  · obtain ⟨hpri, hready⟩ := h.matured x a (ha.of_persist hr hrow)
    exact ⟨hpri, hready.trans (hflows.nowMs_le h.clock.steady)⟩
  · exact h.order x a x' a' (ha.of_persist hr hrow) (ha'.of_persist hr hrow)

theorem Joins.congr {job : Job} (h : e.Joins job) (hworld : e'.world = e.world) (hdb : e'.db = e.db)
    (hqueue : e'.queue = e.queue) : e'.Joins job := by
  intro row hrow hu
  rw [hdb] at hrow
  obtain ⟨hpri, hseq, hready, hlast⟩ := h row hrow hu
  refine ⟨hpri, hseq, ?_, fun x a ha => hlast x a ⟨hdb ▸ ha.found, ha.untouched, hqueue ▸ ha.entry⟩⟩
  unfold wallMs
  rw [hworld]
  exact hready

theorem Joins.persist {row next : Job} (h : e.Joins next) (hw : e.world.Forward) (hr : e.Reliable)
    (hrow : ¬ row.Untouched) : (e.persist row).Joins next := by
  intro x hx hu
  obtain ⟨hpri, hseq, hready, hlast⟩ := h x (getJob_of_persist hr hrow hx hu).1 hu
  exact ⟨hpri, hseq, hready.trans ((persist_onward row).flows.wall_le hw),
    fun y a hy => hlast y a (hy.of_persist hr hrow)⟩

theorem recoveredRow_touched {job : Job} (h : job.Marked) (hrun : job.state = .running) :
    ¬ (e.recoveredRow job).Untouched := by
  intro hu
  have hpos := h.started hrun
  have hzero : job.attempt = 0 := hu.2.1
  omega

/-- The loop of recovery pushes one job. -/
theorem Lined.recoverJob {job : Job} (h : e.Lined) (hr : e.Reliable) (hq : e.queue.Consistent)
    (hmark : job.Marked) (hjob : e.Joins job) : (e.recoverJob job).Lined := by
  have h' : JobEngine.Lined { e with outstanding := e.outstanding + 1 } := h.congr rfl rfl rfl
  unfold JobEngine.recoverJob
  dsimp only
  split_ifs with hrun
  · have hnot := recoveredRow_touched (e := { e with outstanding := e.outstanding + 1 }) hmark hrun
    refine (h'.persist hr hnot).push (by rw [queue_persist]; exact hq) fun row hrow hu => ?_
    exact absurd rfl (getJob_of_persist (e := { e with outstanding := e.outstanding + 1 }) hr hnot hrow hu).2
  · exact h'.push hq (hjob.congr rfl rfl rfl)
  · exact h'

/-- The jobs that come after it may still get their entries. -/
theorem Joins.recoverJob {job next : Job} (h : e.Joins next) (hw : e.world.Forward) (hr : e.Reliable)
    (hq : e.queue.Consistent) (hmark : job.Marked) (hjob : e.Precedes job next) : (e.recoverJob job).Joins next := by
  have h' : JobEngine.Joins { e with outstanding := e.outstanding + 1 } next := h.congr rfl rfl rfl
  unfold JobEngine.recoverJob
  dsimp only
  split_ifs with hrun
  · have hnot := recoveredRow_touched (e := { e with outstanding := e.outstanding + 1 }) hmark hrun
    refine (h'.persist hw hr hnot).after ((persist_onward _).flows.forward hw) (by rw [queue_persist]; exact hq)
      fun row hrow hu => ?_
    exact absurd rfl (getJob_of_persist (e := { e with outstanding := e.outstanding + 1 }) hr hnot hrow hu).2
  · exact h'.after hw hq hjob
  · exact h'

/-- No turn of the loop makes a job untouched. -/
theorem getJob_of_recoverJob {job x : Job} {j : JobId} (hmark : job.Marked)
    (hx : (e.recoverJob job).db.getJob j = some x) (hu : x.Untouched) : e.db.getJob j = some x := by
  rcases rows_recoverJob (e := e) job with ⟨hsame, -⟩ | ⟨hrun, hwrote, -⟩
  · rwa [Database.getJob, hsame] at hx
  · rw [Database.getJob, hwrote, Table.lookup_update] at hx
    split_ifs at hx
    · obtain ⟨old, -, rfl⟩ := Option.map_eq_some_iff.mp hx
      exact absurd (show (e.recoveredRow job).Untouched from hu) (recoveredRow_touched hmark hrun)
    · exact hx

theorem lined_recover {jobs : List Job} (h : e.Lined) (hr : e.Reliable) (hq : e.queue.Consistent)
    (hmark : ∀ job ∈ jobs, job.Marked) (hjobs : ∀ job ∈ jobs, e.Joins job) (hsorted : jobs.Pairwise e.Precedes) :
    (jobs.foldl JobEngine.recoverJob e).Lined := by
  induction jobs generalizing e with
  | nil => exact h
  | cons job jobs ih =>
      obtain ⟨hfirst, hrest⟩ := List.pairwise_cons.mp hsorted
      have hm := hmark job List.mem_cons_self
      refine ih (h.recoverJob hr hq hm (hjobs job List.mem_cons_self)) ((recoverJob_flows job).reliable hr)
        (recoverJob_recovered hq job).kept.consistent (fun x hx => hmark x (List.mem_cons_of_mem _ hx))
        (fun next hnext => ?_) (hrest.imp fun {a b} hab row hrow hu row' hrow' hu' => ?_)
      · exact (hjobs next (List.mem_cons_of_mem _ hnext)).recoverJob h.clock hr hq hm (hfirst next hnext)
      · exact hab row (getJob_of_recoverJob hm hrow hu) hu row' (getJob_of_recoverJob hm hrow' hu') hu'

/-- The rows are loaded in the order of their sequence numbers, priority by priority. -/
theorem pairwise_loadNonTerminalJobs {db : Database} (h : db.jobs.rows.Pairwise Job.InOrder) :
    db.loadNonTerminalJobs.Pairwise fun a b =>
      a.Untouched → b.Untouched → a.priority = b.priority → a.seq < b.seq := by
  have hne : ∀ a ∈ db.jobs.rows, ∀ b ∈ db.jobs.rows, a ≠ b → a.Untouched → b.Untouched → a.seq ≠ b.seq := by
    intro a ha b hb
    have : Std.Symm fun x y : Job => x.Untouched → y.Untouched → x.seq ≠ y.seq :=
      ⟨fun x y hxy hy hx => (hxy hx hy).symm⟩
    exact (h.imp fun hxy hx hy => ne_of_lt (hxy hx hy)).forall ha hb
  have hsorted := db.sorted_loadNonTerminalJobs
  have hnodup : db.loadNonTerminalJobs.Nodup := List.Nodup.of_map _ nodup_loadNonTerminalJobs
  refine (hsorted.and hnodup).imp_of_mem fun {a b} ha hb hab hua hub hpri => ?_
  have hseq := hne a (mem_loadNonTerminalJobs.mp ha).1 b (mem_loadNonTerminalJobs.mp hb).1 hab.2 hua hub
  have hle := hab.1
  unfold Database.recoveryOrder at hle
  omega

theorem le_foldl_max {jobs : List Job} {m : Int} :
    m ≤ jobs.foldl (fun m j => max m j.seq) m ∧ ∀ job ∈ jobs, job.seq ≤ jobs.foldl (fun m j => max m j.seq) m := by
  induction jobs generalizing m with
  | nil => exact ⟨le_rfl, by simp⟩
  | cons job jobs ih =>
      obtain ⟨hle, hall⟩ := ih (m := max m job.seq)
      refine ⟨(le_max_left _ _).trans hle, fun x hx => ?_⟩
      rcases List.mem_cons.mp hx with rfl | hx
      · exact (le_max_right _ _).trans hle
      · exact hall x hx

/-- A restart that keeps the order: the clocks of the new process do not go back, the queue can hold all jobs that
have not ended, and the wall clock is not behind the time at which an untouched job became ready. -/
structure Resumes (cfg : EngineConfig) (world : World) (kept : List RowWrite) : Prop where
  forward : world.Forward
  fits : Fits cfg kept
  caughtUp : ∀ job ∈ (replay kept).jobs, job.Untouched → job.readyAtWallMs ≤ world.wall world.pos

theorem Ordered.restarts {F : Multiset Frame} (h : e.Ordered F) (hr : RestartsWith Resumes e e') : e'.Ordered 0 := by
  have hruled := h.ruled.restarts rowLaw_marked (fun _ _ kept _ => resumable_marked kept) hr
  have hroomy := h.roomy.restarts (hr.imp fun _ _ _ hP => hP.fits)
  obtain @⟨cfg, types, world, db, kept, hkept, hdb, hworld, hP⟩ := hr
  have hchronicle := h.roomy.tended.steady.chronicle
  have hmark : ∀ job ∈ db.loadNonTerminalJobs, job.Marked := fun job hjob =>
    h.ruled.rows kept hkept job (hdb.jobs ▸ (mem_loadNonTerminalJobs.mp hjob).1)
  have hfound : ∀ job ∈ db.loadNonTerminalJobs, db.getJob job.jobId = some job := fun job hjob =>
    Table.lookup_eq_some.mpr ⟨(mem_loadNonTerminalJobs.mp hjob).1, rfl⟩
  set e₀ := (restart cfg types world db kept).recoverGraph db.loadNonTerminalJobs with he₀
  have hnone : ∀ row a, ¬ e₀.Awaits row a := by
    intro row a ha
    obtain ⟨x, hx, -⟩ := ((PriorityJobQueue.consistent_empty cfg.maxOutstandingJobs).lookup_toMap _ a).mp ha.entry
    rcases hx with hx | hx <;> cases hx
  have hline : e₀.Lined := by
    refine ⟨hP.forward, fun x hx => ?_, fun row a ha => absurd ha (hnone row a),
      fun row a _ _ ha => absurd ha (hnone row a)⟩
    cases hx
  have hlined : (db.loadNonTerminalJobs.foldl JobEngine.recoverJob e₀).Lined := by
    refine lined_recover hline hworld (PriorityJobQueue.consistent_empty _) hmark (fun job hjob row hrow hu => ?_) ?_
    · rw [show e₀.db.getJob job.jobId = some job from hfound job hjob, Option.some.injEq] at hrow
      subst hrow
      refine ⟨rfl, rfl, hP.caughtUp job ?_ hu, fun x a ha => absurd ha (hnone x a)⟩
      exact hdb.jobs ▸ (mem_loadNonTerminalJobs.mp hjob).1
    · refine (pairwise_loadNonTerminalJobs (hdb.jobs ▸ h.sorted kept hkept)).imp_of_mem
        fun {a b} ha hb hab row hrow hu row' hrow' hu' => ?_
      rw [show e₀.db.getJob a.jobId = some a from hfound a ha, Option.some.injEq] at hrow
      rw [show e₀.db.getJob b.jobId = some b from hfound b hb, Option.some.injEq] at hrow'
      subst hrow hrow'
      exact hab hu hu'
  refine ⟨hlined.congr rfl rfl rfl, hruled, hroomy, by simp, ?_, fun row hrow hu => ?_⟩
  · refine prefixes_recover (e := e₀) (fun ws hws => h.sorted ws (List.IsPrefix.trans hws hkept))
      fun e job hjob hrun ws hws => ?_
    exact pairwise_update hws (recoveredRow_touched (hmark job hjob) hrun)
  · rcases row_recover (hchronicle.restart hkept hdb) (.restart hchronicle hkept hdb) hworld
        (Table.lookup_eq_some.mpr ⟨hrow, rfl⟩) with ⟨-, hend⟩ | ⟨job, hjob, e₁, -, -, rfl⟩
    · rw [hu.1] at hend
      cases hend
    · have hle := (le_foldl_max (m := 0)).2 job hjob
      unfold rowAfter at hu ⊢
      split_ifs at hu ⊢ with hrun
      · exact absurd (show (e₁.recoveredRow job).Untouched from hu) (recoveredRow_touched (hmark job hjob) hrun)
      · exact Int.lt_add_one_of_le hle

/-! ### Runs -/

section Claims

variable {cfg : EngineConfig} {types : List String} {world : World} {p : Pool JobEngine Frame}

theorem boot_ordered (hworld : ∀ n, world.fault n = false) (hclock : world.Forward) :
    (boot cfg types world).Ordered 0 := by
  have hnone : ∀ row a, ¬ (boot cfg types world).Awaits row a := fun row a ha => by cases ha.found
  refine ⟨⟨hclock, fun x hx => ?_, fun row a ha => absurd ha (hnone row a),
    fun row a _ _ ha => absurd ha (hnone row a)⟩,
    boot_ruled hworld, boot_roomy hworld, by simp, fun ws hws => ?_, fun row hrow => ?_⟩
  · cases hx
  · rw [List.prefix_nil.mp hws]
    exact .nil
  · cases hrow

theorem Ordered.lived {p p' : Pool JobEngine Frame} (h : p.state.Ordered p.frames) (hp : engineSystem.AtRest p)
    (hrun : LivedWith Resumes p p') : p'.state.Ordered p'.frames :=
  lives_invariant hrun hp
    (fun _ _ _ _ hO h => h.advance hO) (fun _ _ _ hF hsub h => h.submits hF hsub)
    (fun _ _ _ hF hcall h => h.spawn hF hcall) (fun _ _ _ hr h => h.restarts hr) h

/-- At rest every untouched job has an entry. -/
theorem Ordered.awaits {F : Multiset Frame} {row : Job} (h : e.Ordered F) (hF : AtRest F)
    (hrow : row ∈ e.db.jobs.rows)
    (hu : row.Untouched) : e.OnQueue row.jobId ∧ ∃ a, e.Awaits row a := by
  have hq := h.roomy.tended.steady.sound.queue
  have hget : e.db.getJob row.jobId = some row := Table.lookup_eq_some.mpr ⟨hrow, rfl⟩
  have hon := (onQueue_iff hq h.roomy.ticketed hF hget).mpr (by rw [hu.1]; rfl)
  obtain ⟨x, hx⟩ := List.length_pos_iff_exists_mem.mp (hon ▸ Nat.one_pos : 0 < (e.queue.liveEntries row.jobId).length)
  obtain ⟨hlive, hid⟩ := PriorityJobQueue.mem_liveEntries.mp hx
  exact ⟨hon, x.item.2, hget, hu, hid ▸ hq.lookup_item hlive⟩

/-- One job comes before another: it has the higher priority or, at equal priority, it was submitted first. -/
def Outranks (e : JobEngine) (a b : Job) : Prop :=
  b.priority < a.priority ∨ a.priority = b.priority ∧ [a, b].Sublist e.db.jobs.rows

theorem Ordered.not_precedes {F : Multiset Frame} {a b : Job} {x y : MapEntry} (h : e.Ordered F) (ha : e.Awaits a x)
    (hb : e.Awaits b y) (hab : e.Outranks a b) : ¬ y.Precedes x := by
  have hx := (h.matured a x ha).1
  have hy := (h.matured b y hb).1
  unfold MapEntry.Precedes
  rcases hab with hlt | ⟨hpri, hsub⟩
  · omega
  · have hsorted := h.sorted e.journal (List.prefix_refl _)
    rw [← h.ruled.tended.steady.chronicle.holds.jobs] at hsorted
    have hseq := List.pairwise_pair.mp (hsorted.sublist hsub) ha.untouched hb.untouched
    have horder := h.order a x b y ha hb hpri hseq
    omega

/-- **The order survives restarts.** Two untouched jobs both have an entry, and the one that comes before the other is
popped before it: no poll takes the other one, and in a batch it comes after it. -/
theorem popped_in_order (hworld : ∀ n, world.fault n = false) (hclock : world.Forward)
    (hrun : LivedWith Resumes ⟨boot cfg types world, []⟩ p) {a b : Job} (ha : a ∈ p.state.db.jobs.rows)
    (hb : b ∈ p.state.db.jobs.rows) (hua : a.Untouched) (hub : b.Untouched) (hab : p.state.Outranks a b) :
    p.state.OnQueue a.jobId ∧ p.state.OnQueue b.jobId ∧
    (∀ t, p.state.nowMs ≤ t → ∀ x ∈ (p.state.queue.poll t).1, x.jobId ≠ b.jobId) ∧
    ∀ maxItems waitMs start readings now, (p.state.nowMs :: start :: readings ++ [now]).Pairwise (· ≤ ·) →
      b.jobId ∈ (p.state.queue.popBatch maxItems waitMs start readings now).1.map (·.jobId) →
      [a.jobId, b.jobId].Sublist ((p.state.queue.popBatch maxItems waitMs start readings now).1.map (·.jobId)) := by
  have h := (boot_ordered hworld hclock).lived atRest_boot hrun
  have hrest : AtRest p.frames := ⟨fun g hg => (System.Lives.atRest hrun atRest_boot).parks hg⟩
  have hq := h.roomy.tended.steady.sound.queue
  obtain ⟨hona, x, hx⟩ := h.awaits hrest ha hua
  obtain ⟨honb, y, hy⟩ := h.awaits hrest hb hub
  have hnot := h.not_precedes hx hy hab
  have hready := (h.matured a x hx).2
  refine ⟨hona, honb, fun t ht z hz hid => ?_, fun maxItems waitMs start readings now hsorted hmem => ?_⟩
  · obtain ⟨-, -, hpoll⟩ := PriorityJobQueue.poll_refines hq (h.ripe.mono ht)
    rw [Option.mem_def.mp hz] at hpoll
    have hlook := hpoll.1.1
    rw [show z.item.1 = b.jobId from hid, hy.entry, Option.some.injEq] at hlook
    exact hnot (hlook ▸ hpoll.2.1 (a.jobId, x) ⟨hx.entry, hready.trans ht⟩)
  · obtain ⟨-, -, hstep⟩ := PriorityJobQueue.popBatch_refines hq h.ripe maxItems waitMs start readings now hsorted
    have hids : ((p.state.queue.popBatch maxItems waitMs start readings now).1.map (·.item)).map Prod.fst =
        (p.state.queue.popBatch maxItems waitMs start readings now).1.map (·.jobId) := by
      rw [List.map_map]
      rfl
    rw [← hids] at hmem ⊢
    refine MapQueue.popBatch_before (a := (a.jobId, x)) (b := (b.jobId, y)) hstep hx.entry (fun t ht => ?_)
      hy.entry hmem hnot
    refine hready.trans (List.rel_of_pairwise_cons hsorted ?_)
    exact List.mem_cons_of_mem _ ht

/-- One job of the given priority is submitted. -/
def submitOne (priority : Int) : List (System.Play JobEngine Frame Choice) :=
  [.env fun e => (e.submit { type := "t", priority }).2]

theorem submitOne_playable (priority : Int) : ∀ a ∈ submitOne priority, System.Playable Submits Call a := by
  simp only [submitOne, List.forall_mem_cons, System.Playable]
  exact ⟨fun e => .job _ rfl rfl, by simp⟩

/-- The columns that say which jobs are untouched and what their order is. -/
structure QueueView where
  jobId : JobId
  priority : Int
  state : JobState
  attempt : Int
  workflowId : WorkflowId
  readyAtWallMs : Int
  deriving DecidableEq

def queueView (job : Job) : QueueView :=
  ⟨job.jobId, job.priority, job.state, job.attempt, job.workflowId, job.readyAtWallMs⟩

theorem untouched_of_view {job : Job} {j : JobId} {priority ready : Int}
    (h : queueView job = ⟨j, priority, .queued, 0, "", ready⟩) :
    job.Untouched ∧ job.jobId = j ∧ job.priority = priority ∧ job.readyAtWallMs = ready := by
  simp only [queueView, QueueView.mk.injEq] at h
  exact ⟨⟨h.2.2.1, h.2.2.2.1, h.2.2.2.2.1⟩, h.1, h.2.1, h.2.2.2.2.2⟩

theorem forward_const (wall : Int) : World.Forward { wall := fun _ => wall } :=
  ⟨monotone_const, monotone_const, fun _ => le_rfl⟩

/-- The world of the second process, whose ids are other ones. -/
def secondWorld : World := { suffix := fun n => toString (n + 10) }

/-- The rows that a restart finds when one job was submitted. -/
theorem kept_of_views {ws : List RowWrite} {v : QueueView} (h : (replay ws).jobs.map queueView = [v]) :
    Fits {} ws ∧ ∀ job ∈ (replay ws).jobs, job.readyAtWallMs = v.readyAtWallMs := by
  constructor
  · have hlen := congrArg List.length h
    rw [List.length_map, List.length_singleton] at hlen
    exact (List.length_filter_le _ _).trans (hlen.trans_le (by decide))
  · intro job hjob
    have hv := List.mem_map_of_mem (f := queueView) hjob
    rw [h, List.mem_singleton] at hv
    rw [← hv]
    rfl

set_option maxRecDepth 8000 in
theorem popped_in_order_restarted : ∃ p a b, LivedWith Resumes ⟨boot {} ["t"] {}, []⟩ p ∧
    p.state.db.jobs.rows = [a, b] ∧ a.Untouched ∧ b.Untouched ∧ p.state.OnQueue a.jobId ∧ p.state.OnQueue b.jobId ∧
    ∀ x ∈ (p.state.queue.poll p.state.nowMs).1, x.jobId ≠ b.jobId := by
  have hfirst : (engineSystem.plays 40 ⟨boot {} ["t"] {}, []⟩ (submitOne 0)).map (fun q =>
      (replay q.state.journal).jobs.map queueView) = some [⟨"j_0", 0, .queued, 0, "", 0⟩] := by
    decide +kernel
  have hplay : ((engineSystem.plays 40 ⟨boot {} ["t"] {}, []⟩ (submitOne 0)).bind fun q =>
      (engineSystem.plays 40 ⟨(restart {} ["t"] secondWorld q.state.db q.state.journal).recover.2, []⟩
        (submitOne 0)).map fun p => p.state.db.jobs.rows.map queueView) =
      some [⟨"j_0", 0, .queued, 0, "", 0⟩, ⟨"j_12", 0, .queued, 0, "", 0⟩] := by
    decide +kernel
  obtain ⟨p, hrun, hview⟩ := exists_lives (R := RestartsWith Resumes) (submitOne_playable 0) (submitOne_playable 0)
    (fun q hq => by
      rw [hq, Option.map_some, Option.some.injEq] at hfirst
      obtain ⟨hfits, hready⟩ := kept_of_views hfirst
      exact .recovered (List.prefix_refl _) (holds_of_plays (fun _ => rfl) (submitOne_playable 0) hq) (fun _ => rfl)
        ⟨⟨monotone_const, monotone_const, fun _ => le_rfl⟩, hfits, fun job hjob _ => (hready job hjob).le⟩) hplay
  obtain ⟨a, rest, hrows, ha, hrest⟩ := List.map_eq_cons_iff.mp hview
  obtain ⟨b, rest, rfl, hb, hnil⟩ := List.map_eq_cons_iff.mp hrest
  obtain rfl := List.map_eq_nil_iff.mp hnil
  obtain ⟨hua, -, hpa, -⟩ := untouched_of_view ha
  obtain ⟨hub, -, hpb, -⟩ := untouched_of_view hb
  obtain ⟨hona, honb, hpoll, -⟩ := popped_in_order (fun _ => rfl) (forward_const 0) hrun (a := a) (b := b)
    (by simp [hrows]) (by simp [hrows]) hua hub (.inr ⟨hpa.trans hpb.symm, by rw [hrows]⟩)
  exact ⟨p, a, b, hrun, hrows, hua, hub, hona, honb, hpoll _ le_rfl⟩

set_option maxRecDepth 8000 in
/-- The wall clock is behind when the process is started again: the job of the first process, of priority 5, is
delayed, and one of priority 0 that is submitted then is popped. -/
theorem popped_out_of_order : ∃ p a b,
    LivedWith (fun cfg world kept => world.Forward ∧ Fits cfg kept) ⟨boot {} ["t"] { wall := fun _ => 100 }, []⟩ p ∧
    p.state.db.jobs.rows = [a, b] ∧ a.Untouched ∧ b.Untouched ∧ a.priority = 5 ∧ b.priority = 0 ∧
    (p.state.queue.poll p.state.nowMs).1.map (·.jobId) = some b.jobId := by
  have hfirst : (engineSystem.plays 40 ⟨boot {} ["t"] { wall := fun _ => 100 }, []⟩ (submitOne 5)).map (fun q =>
      (replay q.state.journal).jobs.map queueView) = some [⟨"j_0", 5, .queued, 0, "", 100⟩] := by
    decide +kernel
  have hplay : ((engineSystem.plays 40 ⟨boot {} ["t"] { wall := fun _ => 100 }, []⟩ (submitOne 5)).bind fun q =>
      (engineSystem.plays 40 ⟨(restart {} ["t"] secondWorld q.state.db q.state.journal).recover.2, []⟩
        (submitOne 0)).map fun p =>
          (p.state.db.jobs.rows.map queueView, (p.state.queue.poll p.state.nowMs).1.map (·.jobId))) =
      some ([⟨"j_0", 5, .queued, 0, "", 100⟩, ⟨"j_12", 0, .queued, 0, "", 0⟩], some "j_12") := by
    decide +kernel
  obtain ⟨p, hrun, hview⟩ := exists_lives
    (R := RestartsWith fun cfg world kept => world.Forward ∧ Fits cfg kept) (submitOne_playable 5)
    (submitOne_playable 0) (fun q hq => by
      rw [hq, Option.map_some, Option.some.injEq] at hfirst
      exact .recovered (List.prefix_refl _) (holds_of_plays (fun _ => rfl) (submitOne_playable 5) hq) (fun _ => rfl)
        ⟨⟨monotone_const, monotone_const, fun _ => le_rfl⟩, (kept_of_views hfirst).1⟩) hplay
  obtain ⟨hrows, hpoll⟩ := Prod.mk.inj hview
  obtain ⟨a, rest, hrows, ha, hrest⟩ := List.map_eq_cons_iff.mp hrows
  obtain ⟨b, rest, rfl, hb, hnil⟩ := List.map_eq_cons_iff.mp hrest
  obtain rfl := List.map_eq_nil_iff.mp hnil
  obtain ⟨hua, -, hpa, -⟩ := untouched_of_view ha
  obtain ⟨hub, hid, hpb, -⟩ := untouched_of_view hb
  exact ⟨p, a, b, hrun, hrows, hua, hub, hpa, hpb, by rw [hpoll, hid]⟩

end Claims

end JobEngine

end DistributedJobEngine
