import DistributedJobEngine.EngineRows

/-! The number of attempts. A job that is not running has an attempt left or has ended; every operation keeps this,
and so does recovery, except for a job that was running its last attempt. -/

namespace DistributedJobEngine

open LibPool LibTable

/-- How often the job may be started. -/
def Job.budget (job : Job) : Int := max 1 job.retry.maxAttempts

/-- The attempts of a job are within its budget, and if it may be started again there is one left. -/
structure Job.InBudget (job : Job) : Prop where
  le : job.attempt ≤ job.budget
  lt : job.state.isTerminal = false → job.state ≠ .running → job.attempt < job.budget

theorem Job.Fresh.inBudget {job : Job} (h : job.Fresh) : job.InBudget := by
  have hpos : (1 : Int) ≤ job.budget := le_max_left _ _
  have hzero := h.attempt
  exact ⟨by omega, fun _ _ => by omega⟩

theorem Job.InBudget.ended {job row : Job} (h : job.InBudget) (hattempt : row.attempt = job.attempt)
    (hretry : row.retry = job.retry) (hend : row.state.isTerminal = true) : row.InBudget := by
  have hbudget : row.budget = job.budget := by rw [budget, hretry]; rfl
  refine ⟨by rw [hattempt, hbudget]; exact h.le, fun hopen => ?_⟩
  rw [hend] at hopen
  cases hopen

/-- A row whose job has an attempt left, whatever its state. -/
theorem Job.inBudget_of_lt {job row : Job} (h : job.attempt < job.budget) (hattempt : row.attempt = job.attempt)
    (hretry : row.retry = job.retry) : row.InBudget := by
  have hbudget : row.budget = job.budget := by rw [budget, hretry]; rfl
  exact ⟨by rw [hattempt, hbudget]; exact h.le, fun _ _ => by rw [hattempt, hbudget]; exact h⟩

namespace JobEngine

variable {e e' : JobEngine}

theorem startedRow_inBudget {job : Job} (h : job.attempt < job.budget) (owner : String) (eligibleAt : Int)
    (remote : Bool) : (e.startedRow job owner eligibleAt remote).InBudget :=
  ⟨Int.add_one_le_of_lt h, fun _ hne => absurd rfl hne⟩

theorem lt_of_verdict {reason : CancelReason} {job : Job} {outcome : Outcome}
    (h : (verdict reason job outcome).1 = .retrying) : job.attempt < job.retry.maxAttempts := by
  by_contra hnot
  unfold verdict at h
  simp only [hnot, if_false] at h
  cases reason <;> dsimp only at h <;> first | cases h | split_ifs at h

theorem finishedRow_inBudget {job : Job} (h : job.InBudget) (info : RunningInfo) (outcome : Outcome) :
    (e.finishedRow job info outcome (verdict (e.reasonOf info) job outcome).1
      (verdict (e.reasonOf info) job outcome).2.2).InBudget := by
  obtain ⟨hattempt, hretry, hstate⟩ := finishedRow_columns (e := e) job info outcome
    (verdict (e.reasonOf info) job outcome).1 (verdict (e.reasonOf info) job outcome).2.2
  rcases verdict_state (e.reasonOf info) job outcome with hret | ⟨hend, -⟩
  · exact Job.inBudget_of_lt (lt_of_lt_of_le (lt_of_verdict hret) (le_max_right _ _)) hattempt hretry
  · exact h.ended hattempt hretry (by rw [hstate]; exact hend)

theorem expiredRow_inBudget {job : Job} (h : job.InBudget) (now : Int) : (expiredRow now job).InBudget := by
  unfold expiredRow
  dsimp only
  split_ifs with hlast
  · exact h.ended rfl rfl rfl
  · exact Job.inBudget_of_lt (lt_of_lt_of_le (not_le.mp hlast) (le_max_right _ _)) rfl rfl

theorem rowLaw_inBudget : RowLaw Job.InBudget where
  persisted _ h := ⟨h.le, h.lt⟩
  fresh _ h := h.inBudget
  flag _ h _ := ⟨h.le, h.lt⟩
  cancel _ _ h := h.ended rfl rfl rfl
  start _ _ owner eligibleAt remote h hwait _ := by
    refine startedRow_inBudget (h.lt (JobState.isTerminal_eq_false_of_isWaiting hwait) fun hrun => ?_)
      owner eligibleAt
      remote
    rw [hrun] at hwait
    cases hwait
  finish _ _ info outcome h := finishedRow_inBudget h info outcome
  expire now _ h _ := expiredRow_inBudget h now
  release _ _ h hpend := Job.inBudget_of_lt (h.lt (by rw [hpend]; rfl) (by rw [hpend]; decide)) rfl rfl
  skip _ _ h := h.ended rfl rfl rfl

/-- No job of the store was running its last attempt. -/
def LeftOver (kept : List RowWrite) : Prop :=
  ∀ job ∈ (replay kept).jobs, job.state = .running → job.attempt < job.budget

theorem LeftOver.resumable {kept : List RowWrite} (h : LeftOver kept) : Resumable Job.InBudget kept :=
  fun _ job hjob _ hrun => Job.inBudget_of_lt (h job hjob hrun) rfl rfl

section Claims

variable {cfg : EngineConfig} {types : List String} {world : World} {p : Pool JobEngine Frame}

/-- **Attempts are bounded** as long as no restart finds a job in its last attempt: after every write, the attempts
of every row are within its budget. -/
theorem attempts_bounded (hworld : ∀ n, world.fault n = false)
    (hrun : LivedWith (fun _ _ kept => LeftOver kept) ⟨boot cfg types world, []⟩ p) :
    p.state.db.Holds p.state.journal ∧
    ∀ ws, ws <+: p.state.journal → ∀ job ∈ (replay ws).jobs, job.attempt ≤ max 1 job.retry.maxAttempts := by
  have h := (boot_ruled hworld).lived rowLaw_inBudget (fun _ _ _ hleft => hleft.resumable) atRest_boot hrun
  exact ⟨h.tended.steady.chronicle.holds, fun ws hws job hjob => (h.rows ws hws job hjob).le⟩

set_option maxRecDepth 8000 in
theorem attempts_bounded_twice : ∃ p job, LivedWith (fun _ _ kept => LeftOver kept) ⟨boot {} ["t"] {}, []⟩ p ∧
    job ∈ (replay p.state.journal).jobs ∧ job.attempt = 2 ∧ job.attempt ≤ max 1 job.retry.maxAttempts := by
  have hplay : (engineSystem.plays 40 ⟨boot {} ["t"] {}, []⟩ retried).map (fun p =>
      (replay p.state.journal).jobs.map fun job => (job.attempt, job.retry.maxAttempts)) = some [(2, 2)] := by
    decide +kernel
  obtain ⟨p, hrun, hview⟩ := System.exists_turns retried_playable hplay
  obtain ⟨job, hjob, hcols⟩ := mem_of_view hview
  exact ⟨p, job, hrun.lives, hjob, congrArg Prod.fst hcols,
    (attempts_bounded (fun _ => rfl) hrun.lives).2 _ (List.prefix_refl _) job hjob⟩

/-- A job that is to run once is submitted and started. -/
def onceStarted : List (System.Play JobEngine Frame Choice) :=
  [.env fun e => (e.submit { type := "t" }).2, .call (.workerPop "w") {}]

theorem onceStarted_playable : ∀ a ∈ onceStarted, System.Playable Submits Call a := by
  simp only [onceStarted, List.forall_mem_cons, System.Playable, Call, Frame.isCall, true_and]
  exact ⟨fun e => .job _ rfl rfl, by simp⟩

set_option maxRecDepth 8000 in
/-- After a restart the job is started a second time. -/
theorem attempts_exceeded : ∃ p job, Lived ⟨boot {} ["t"] {}, []⟩ p ∧ job ∈ p.state.db.jobs.rows ∧
    job.state = .running ∧ job.attempt = 2 ∧ max 1 job.retry.maxAttempts = 1 := by
  have hplay : ((engineSystem.plays 40 ⟨boot {} ["t"] {}, []⟩ onceStarted).bind fun q =>
      (engineSystem.plays 40 ⟨(restart {} ["t"] {} q.state.db q.state.journal).recover.2, []⟩ popOne).map fun p =>
        p.state.db.jobs.rows.map fun job => (job.state, job.attempt, max 1 job.retry.maxAttempts)) =
      some [(.running, 2, 1)] := by
    decide +kernel
  obtain ⟨p, hrun, hview⟩ := exists_lived (fun _ => rfl) (fun _ => rfl) onceStarted_playable popOne_playable hplay
  obtain ⟨job, hjob, hcols⟩ := mem_of_view hview
  simp only [Prod.mk.injEq] at hcols
  exact ⟨p, job, hrun, hjob, hcols⟩

end Claims

end JobEngine

end DistributedJobEngine
