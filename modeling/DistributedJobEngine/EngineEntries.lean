import DistributedJobEngine.EngineIntake
import DistributedJobEngine.EngineLives

/-! Entries and leases over the lives of the engine: a job that waits has at most one entry, no other job has any,
and a running job has the lease its row names. Unlike in one life, an entry may be missing: the queue of a new
process may be too small for all that recovery puts on it. -/

namespace DistributedJobEngine

open LibPool LibTable

namespace JobEngine

variable {e e' : JobEngine}

/-- A restart whose configuration, streams and store content meet a condition. -/
inductive RestartsWith (P : EngineConfig → World → List RowWrite → Prop) (e : JobEngine) : JobEngine → Prop
  | recovered {cfg : EngineConfig} {types : List String} {world : World} {db : Database} {kept : List RowWrite}
      (hkept : kept <+: e.journal) (hdb : db.Holds kept) (hworld : ∀ n, world.fault n = false)
      (hP : P cfg world kept) : RestartsWith P e (restart cfg types world db kept).recover.2

theorem RestartsWith.restarts {P : EngineConfig → World → List RowWrite → Prop} (h : RestartsWith P e e') :
    Restarts e e' := by
  obtain ⟨hkept, hdb, hworld, -⟩ := h
  exact .recovered hkept hdb hworld

theorem RestartsWith.imp {P Q : EngineConfig → World → List RowWrite → Prop} (h : RestartsWith P e e')
    (hPQ : ∀ cfg world kept, P cfg world kept → Q cfg world kept) : RestartsWith Q e e' := by
  obtain ⟨hkept, hdb, hworld, hP⟩ := h
  exact .recovered hkept hdb hworld (hPQ _ _ _ hP)

/-- Any number of operations, one at a time, with restarts that meet a condition between them. -/
abbrev LivedWith (P : EngineConfig → World → List RowWrite → Prop) :
    Pool JobEngine Frame → Pool JobEngine Frame → Prop :=
  engineSystem.Lives Submits Call (RestartsWith P)

/-- The invariant of the entries and leases. -/
structure Tended (e : JobEngine) (F : Multiset Frame) : Prop where
  steady : e.Steady F
  spare : e.board.Spare (duesIn F)
  manned : e.board.Manned (duesIn F)
  apart : Apart F

theorem Tended.advance {c : Choice} {f : Frame} {O : Multiset Frame} (h : e.Tended (f ::ₘ O))
    (hO : ∀ g ∈ O, g.kind.still = true) : (e.advance c f).1.Tended (((e.advance c f).2 : Multiset Frame) + O) := by
  obtain ⟨d, d', x, hd, hd', hbefore, hafter, hmove⟩ := h.steady.sound.step (c := c)
  have hsafe := h.steady.sound.safe
  have hexact := h.steady.exact
  have hspare := h.spare
  have hmanned := h.manned
  rw [hbefore] at hsafe hexact hspare hmanned
  refine ⟨h.steady.advance hO, ?_, ?_, h.apart.advance⟩
  · rw [hafter]
    exact hspare.move hsafe hexact hmove fun j r hwin hwin' => h.apart.ticket_of_cancel hO hd hd' hwin hwin'
  · rw [hafter]
    exact hmanned.move hsafe hexact hmove

theorem Tended.spawn {f : Frame} {F : Multiset Frame} (h : e.Tended F) (hF : ∀ g ∈ F, g.parks = true)
    (hcall : Call f) : e.Tended (f ::ₘ F) := by
  refine ⟨h.steady.spawn hcall, ?_, ?_, .spawn hF hcall⟩
  all_goals rw [duesIn_spawn hcall]
  · exact h.spare
  · exact h.manned

/-- A row that a step writes as one that waits did not wait before: it was running or pending. -/
theorem Steady.idle_of_writes {f : Frame} {O : Multiset Frame} (h : e.Steady (f ::ₘ O)) {row : Job}
    (hrow : e.Writes f row) (hwait : row.state.isWaiting = true) : e.board.waiting row.jobId = false := by
  have hsafe := h.sound.safe
  have hproper := h.sound.proper f (Multiset.mem_cons_self f O)
  rw [duesIn_cons] at hsafe
  cases hrow with
  | flag job =>
      rw [show ({ job with cancelRequested := true } : Job).state = .running from hproper] at hwait
      cases hwait
  | retry token =>
      obtain ⟨cur, hcur, -, hrun, -⟩ := hsafe.of_mem (x := .window .finish row.jobId row.stub.base)
        (by simp [Frame.dues])
      rw [Board.waiting_of_row hcur, hrun]
      rfl
  | finish token =>
      have hend : row.state.isTerminal = true := hproper.1
      rw [JobState.isTerminal_eq_false_of_isWaiting hwait] at hend
      cases hend
  | expire now job =>
      obtain ⟨cur, hcur, -, hrun, -⟩ := hsafe.of_mem (x := .window .expire job.jobId job.stub) (by simp [Frame.dues])
      rw [(expiredRow_spec now job).1, Board.waiting_of_row hcur, hrun]
      rfl
  | release job =>
      obtain ⟨cur, hcur, -, hpend, -⟩ := hsafe.of_mem (x := .window .release job.jobId job.stub)
        (by simp [Frame.dues])
      rw [show (e.releasedRow job).jobId = job.jobId from rfl, Board.waiting_of_row hcur, hpend]
      rfl
  | _ => cases hwait

/-- A row that waits after a step is as it was, or its job had no entry. -/
theorem Tended.getJob_advance {c : Choice} {f : Frame} {O : Multiset Frame} (h : e.Tended (f ::ₘ O)) {j : JobId}
    {row : Job} (hrow : (e.advance c f).1.db.getJob j = some row) (hwait : row.state.isWaiting = true) :
    e.db.getJob j = some row ∨ e.board.entries (duesIn (f ::ₘ O)) j = 0 := by
  cases advance_rows (e := e) c f with
  | same hjobs _ =>
      rw [Database.getJob, hjobs] at hrow
      exact .inl hrow
  | wrote row' hwrites hjobs _ =>
      rw [Database.getJob, hjobs, Table.lookup_update] at hrow
      split_ifs at hrow with hj
      · refine .inr ?_
        obtain ⟨old, -, rfl⟩ := Option.map_eq_some_iff.mp hrow
        have hidle := h.steady.idle_of_writes hwrites hwait
        have hle := h.spare j
        rw [← hj, show row'.persisted.jobId = row'.jobId from rfl, hidle] at hle
        rw [← hj]
        exact Nat.le_zero.mp hle
      · exact .inl hrow

/-! ### Submissions -/

theorem Intake.getJob {news : List Job} {j : JobId} {row : Job} (h : e.Intake e' news)
    (hrow : e'.db.getJob j = some row) :
    e.db.getJob j = some row ∨ e.db.getJob j = none ∧ ∃ job ∈ news, job.jobId = j ∧ row = job.persisted := by
  obtain ⟨hmem, hid⟩ := Table.lookup_eq_some.mp hrow
  rw [h.rows] at hmem
  rcases List.mem_append.mp hmem with hmem | hmem
  · exact .inl (Table.lookup_eq_some.mpr ⟨hmem, hid⟩)
  · obtain ⟨job, hjob, rfl⟩ := List.mem_map.mp hmem
    refine .inr ⟨?_, job, hjob, hid, rfl⟩
    have hnd := e'.db.jobs.nodup
    rw [h.rows, List.map_append] at hnd
    refine Table.lookup_eq_none.mpr fun hold => ?_
    exact List.disjoint_of_nodup_append hnd hold (List.mem_map.mpr ⟨_, hmem, hid⟩)

theorem Intake.found {news : List Job} {job : Job} (h : e.Intake e' news) (hjob : job ∈ news) :
    e'.db.getJob job.jobId = some job.persisted := by
  refine Table.lookup_eq_some.mpr ⟨?_, rfl⟩
  rw [h.rows]
  exact List.mem_append_right _ (List.mem_map_of_mem hjob)

/-- An entry that is there after a submission was there before or is that of a new job that is ready to run. -/
theorem Intake.live {news : List Job} {j : JobId} (hq : e.queue.Consistent) (h : e.Intake e' news)
    (hj : j ∈ e'.queue.live) : j ∈ e.queue.live ∨ ∃ job ∈ news, job.jobId = j ∧ job.state ≠ .pending := by
  obtain ⟨e₁, -, hqueue, -, he'⟩ := h.queued
  have hqueued := foldl_enqueue_queued (e := e₁) (hqueue ▸ hq) (news.filter fun j => j.state ≠ .pending)
  rw [he'] at hj
  rcases Finset.mem_union.mp (hqueued.live.2 hj) with hold | hnew
  · exact .inl (hqueue ▸ hold)
  · obtain ⟨job, hjob, hid⟩ := List.mem_map.mp (List.mem_toFinset.mp hnew)
    obtain ⟨hmem, hstate⟩ := List.mem_filter.mp hjob
    exact .inr ⟨job, hmem, hid, by simpa using hstate⟩

/-- A job without a row has no entry. -/
theorem Tended.not_live {F : Multiset Frame} {j : JobId} (h : e.Tended F) (hrow : e.db.getJob j = none) :
    j ∉ e.queue.live := by
  intro hin
  have hj := h.spare j
  have hwait : e.board.waiting j = false := by rw [Board.waiting, board_row, hrow]; rfl
  rw [hwait, Board.entries, if_pos (show j ∈ e.board.live from hin), Bool.toNat_false] at hj
  omega

theorem Tended.submits {F : Multiset Frame} (h : e.Tended F) (hF : ∀ g ∈ F, g.parks = true)
    (hsub : Submits e e') : e'.Tended F := by
  have hs := submits_submitted h.steady.sound hsub
  have hsteady := h.steady.submits hF hsub
  rcases hs.board with ⟨hb, -⟩ | ⟨N, w, hadm⟩
  · refine ⟨hsteady, ?_, ?_, h.apart⟩
    · rw [hb]
      exact h.spare
    · rw [hb]
      exact h.manned
  · refine ⟨hsteady, h.spare.admits hadm.admits fun j hj r hr hlive => ?_,
      h.manned.admits h.steady.sound.safe hadm.admits, h.apart⟩
    obtain ⟨news, hnews⟩ := submits_intake hsub
    have hfresh : e.db.getJob j = none := Option.map_eq_none_iff.mp (hadm.admits.fresh j hj)
    obtain ⟨row, hrow, rfl⟩ := Option.map_eq_some_iff.mp hr
    rcases hnews.live h.steady.sound.queue hlive with hold | ⟨job, hjob, hid, hstate⟩
    · exact absurd hold (h.not_live hfresh)
    · rcases hnews.getJob hrow with hold | ⟨-, job', hjob', hid', rfl⟩
      · rw [hfresh] at hold
        cases hold
      · have hnd := e'.db.jobs.nodup
        rw [hnews.rows, List.map_append, List.map_map] at hnd
        have hsame : job = job' :=
          List.inj_on_of_nodup_map (List.Nodup.of_append_right hnd) hjob hjob' (hid.trans hid'.symm)
        rw [← hsame]
        exact hstate

/-! ### Recovery -/

theorem recoverJob_flows (job : Job) : e.Flows (e.recoverJob job) := by
  unfold recoverJob
  dsimp only
  split_ifs
  · exact Flows.trans (e := { e with outstanding := e.outstanding + 1 }) (persist_onward _).flows
      (enqueue_onward _).flows
  · exact (enqueue_onward (e := { e with outstanding := e.outstanding + 1 }) job).flows
  · exact .refl e

theorem Flows.reliable (h : e.Flows e') (hr : e.Reliable) : e'.Reliable := by
  intro n
  rw [h.1]
  exact hr n

/-- The row of a job that the loop of recovery has handled at the state `e`. -/
def rowAfter (e : JobEngine) (job : Job) : Job := if job.state = .running then (e.recoveredRow job).persisted else job

theorem getJob_recoverJob (hr : e.Reliable) {job : Job} (hjob : e.db.getJob job.jobId = some job) :
    (e.recoverJob job).db.getJob job.jobId = some (e.rowAfter job) := by
  unfold rowAfter
  by_cases hrun : job.state = .running
  · have hjobs : (e.recoverJob job).db.jobs = e.db.jobs.update (e.recoveredRow job).persisted := by
      unfold recoverJob
      dsimp only
      rw [if_pos hrun, (enqueue_rows _).1,
        persist_of_reliable (show JobEngine.Reliable { e with outstanding := e.outstanding + 1 } from hr)]
      rfl
    rw [if_pos hrun, Database.getJob, hjobs, Table.lookup_update,
      if_pos (show (e.recoveredRow job).persisted.jobId = job.jobId from rfl), ← Database.getJob, hjob]
    rfl
  · rw [if_neg hrun]
    rcases rows_recoverJob (e := e) job with ⟨hsame, -⟩ | ⟨hrun', -⟩
    · rw [Database.getJob, hsame]
      exact hjob
    · exact absurd hrun' hrun

/-- The loop of recovery comes to `job` at some state `e₀`, and its row is then written for good. -/
theorem Recovering.getJob {jobs : List Job} (h : e.Recovering jobs) (hr : e.Reliable) {job : Job}
    (hjob : job ∈ jobs) :
    ∃ e₀, e.Flows e₀ ∧ (jobs.foldl recoverJob e).db.getJob job.jobId = some (e₀.rowAfter job) := by
  induction jobs generalizing e with
  | nil => cases hjob
  | cons head jobs ih =>
      have hnd := h.nodup
      rw [List.map_cons, List.nodup_cons] at hnd
      rcases List.mem_cons.mp hjob with rfl | hjob
      · refine ⟨e, .refl e, ?_⟩
        rw [List.foldl_cons, getJob_foldl_recoverJob fun x hx hid => hnd.1 (List.mem_map.mpr ⟨x, hx, hid⟩)]
        exact getJob_recoverJob hr (h.rows job List.mem_cons_self)
      · have hflows := recoverJob_flows (e := e) head
        obtain ⟨e₀, hflows₀, hrow⟩ := ih h.next (hflows.reliable hr) hjob
        exact ⟨e₀, hflows.trans hflows₀, hrow⟩

section Recovery

variable {cfg : EngineConfig} {types : List String} {world : World} {db : Database} {kept : List RowWrite}

/-- The rows that recovery leaves: those that had ended, and the others as it has handled them. -/
theorem row_recover (h : (restart cfg types world db kept).Chronicle) (hst : (restart cfg types world db kept).Stored)
    (hworld : ∀ n, world.fault n = false) {j : JobId} {row : Job}
    (hrow : (restart cfg types world db kept).recover.2.db.getJob j = some row) :
    row ∈ db.jobs.rows ∧ row.state.isTerminal = true ∨
      ∃ job ∈ db.loadNonTerminalJobs, ∃ e₀ : JobEngine, (restart cfg types world db kept).Flows e₀ ∧ job.jobId = j ∧
        row = e₀.rowAfter job := by
  have hstart := recovering_start h hst
  by_cases hj : j ∈ db.loadNonTerminalJobs.map Job.jobId
  · obtain ⟨job, hjob, rfl⟩ := List.mem_map.mp hj
    obtain ⟨e₀, hflows, hfinal⟩ := hstart.getJob hworld hjob
    rw [show (restart cfg types world db kept).recover.2.db.getJob job.jobId = _ from hfinal,
      Option.some.injEq] at hrow
    exact .inr ⟨job, hjob, e₀, hflows, rfl, hrow.symm⟩
  · have hother : ∀ job ∈ db.loadNonTerminalJobs, job.jobId ≠ j :=
      fun job hjob hid => hj (hid ▸ List.mem_map_of_mem hjob)
    have hsame := getJob_foldl_recoverJob (e := (restart cfg types world db kept).recoverGraph db.loadNonTerminalJobs)
      hother
    rw [show (restart cfg types world db kept).recover.2.db.getJob j = _ from hsame] at hrow
    obtain ⟨hmem, hid⟩ := Table.lookup_eq_some.mp hrow
    refine .inl ⟨hmem, ?_⟩
    by_contra hopen
    exact hj (hid ▸ List.mem_map_of_mem (mem_loadNonTerminalJobs.mpr ⟨hmem, Bool.not_eq_true _ ▸ hopen⟩))

theorem rowAfter_ne_running (job : Job) : (e.rowAfter job).state ≠ .running := by
  unfold rowAfter
  split_ifs with hrun
  · exact fun h => by cases h
  · exact hrun

theorem rowAfter_waits {job : Job} (h : job.recovers = true) : (e.rowAfter job).state.isWaiting = true := by
  unfold rowAfter
  split_ifs with hrun
  · rfl
  · simpa [Job.recovers, hrun] using h

theorem recovers_of_rowAfter {job : Job} (h : (e.rowAfter job).state.isWaiting = true) : job.recovers = true := by
  unfold rowAfter at h
  split_ifs at h with hrun
  · simp [Job.recovers, hrun]
  · simp [Job.recovers, h]

theorem tended_recover (h : (restart cfg types world db kept).Chronicle)
    (hst : (restart cfg types world db kept).Stored)
    (hworld : ∀ n, world.fault n = false) : (restart cfg types world db kept).recover.2.Tended 0 := by
  have hbuilt := @recover_rebuilt cfg types world db kept hworld
  refine ⟨steady_recover h hst hworld, fun j => ?_, ⟨fun j t a r hl => ?_, fun j r hr hrun => ?_⟩, by simp [Apart]⟩
  · -- an entry is that of a job that recovered
    rw [Board.entries, show (duesIn 0).countP (·.ticket j) = 0 from rfl, add_zero]
    split_ifs with hin
    · have hlive := (recover_recovered cfg types world db kept).live.2 hin
      rw [Finset.mem_union] at hlive
      rcases hlive with hnone | hlive
      · cases hnone
      · obtain ⟨job, hjob, hid⟩ := List.mem_map.mp (List.mem_toFinset.mp hlive)
        obtain ⟨hmem, hrec⟩ := List.mem_filter.mp hjob
        obtain ⟨e₀, -, hfinal⟩ := (recovering_start h hst).getJob hworld hmem
        have hwait : (restart cfg types world db kept).recover.2.board.waiting j = true := by
          rw [Board.waiting, board_row, ← hid,
            show (restart cfg types world db kept).recover.2.db.getJob job.jobId = _ from hfinal]
          exact rowAfter_waits hrec
        rw [hwait]
        exact le_rfl
    · exact Nat.zero_le _
  · change ((_ : AList fun _ : JobId => RunningInfo).lookup j).map _ = _ at hl
    rw [hbuilt.running] at hl
    cases hl
  · obtain ⟨row, hrow, rfl⟩ := Option.map_eq_some_iff.mp hr
    rcases row_recover h hst hworld hrow with ⟨-, hend⟩ | ⟨job, -, e₀, -, -, rfl⟩
    · rw [show row.state = .running from hrun] at hend
      cases hend
    · exact absurd hrun (rowAfter_ne_running job)

theorem Tended.restarts {F : Multiset Frame} (h : e.Tended F) (hr : Restarts e e') : e'.Tended 0 := by
  obtain ⟨hkept, hdb, hworld⟩ := hr
  exact tended_recover (h.steady.chronicle.restart hkept hdb) (.restart h.steady.chronicle hkept hdb) hworld

end Recovery

theorem boot_tended {cfg : EngineConfig} {types : List String} {world : World} (hworld : ∀ n, world.fault n = false) :
    (boot cfg types world).Tended 0 where
  steady := boot_steady hworld
  spare j := Nat.le_refl 0
  manned := ⟨fun j t a r hl => (by cases hl), fun j r hr => (by cases hr)⟩
  apart f hf := by cases hf

end JobEngine

end DistributedJobEngine
