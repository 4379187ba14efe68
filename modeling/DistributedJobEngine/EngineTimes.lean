import DistributedJobEngine.ApiJson
import DistributedJobEngine.EngineColumns

/-! The times of a job in 64 bits. A submission bounds its delay, its timeout and its backoff only from below; the
sums that are made of them and of the clock readings leave the range of `int64_t` if they are large enough. -/

namespace DistributedJobEngine

open LibPool

/-- A time that was computed at time `now`: it fits and does not lie before it. -/
def Ahead (now t : Int) : Prop := now ≤ t ∧ t < 2 ^ 63

/-- The row has the timeout and the retry policy of the submission. -/
structure Job.SubmittedAs (job : Job) (req : SubmitRequest) : Prop where
  timeoutMs : job.timeoutMs = req.timeoutMs
  retry : job.retry = { req.retry with maxAttempts := if req.retry.maxAttempts < 1 then 1 else req.retry.maxAttempts }

theorem SubmitRequest.submittedAs_toJob (req : SubmitRequest) (id : JobId) (created steady seq : Int) :
    (req.toJob id created steady seq).SubmittedAs req := ⟨rfl, rfl⟩

theorem Job.SubmittedAs.of_spec {req : SubmitRequest} {row row' : Job} (h : row.SubmittedAs req)
    (hspec : row'.spec = row.spec) : row'.SubmittedAs req :=
  ⟨(congrArg Spec.timeoutMs hspec).trans h.timeoutMs, (congrArg Spec.retry hspec).trans h.retry⟩

namespace JobEngine

variable {e e₀ : JobEngine} {req : SubmitRequest}

/-- The clocks read plausible times, and so does the second reading of the wall clock in `enqueue`; the duration of
a lease leaves room for them. -/
structure Plausible (e : JobEngine) : Prop where
  wall_nonneg : 0 ≤ e.wallMs
  wall_lt : e.wallMs < 2 ^ 50
  lagged_nonneg : 0 ≤ e.wallMs + e.world.lag e.world.pos
  lagged_lt : e.wallMs + e.world.lag e.world.pos < 2 ^ 50
  steady_nonneg : 0 ≤ e.nowMs
  steady_lt : e.nowMs < 2 ^ 50
  lease_nonneg : 0 ≤ e.cfg.leaseDurationMs
  lease_le : e.cfg.leaseDurationMs ≤ 2 ^ 63 - 2 ^ 50

/-- All times of the jobs of a submission fit: the ready time, from a delay or from the backoff after an attempt,
on both clocks, the deadline and the expiry of a lease. `rounded k` is what `llround` makes of the backoff after
attempt `k`. The state `e₀` in which a ready time is computed need not be the one in which the job is enqueued. -/
structure TimesFit (req : SubmitRequest) (rounded : Int → Int) : Prop where
  ready : ∀ e : JobEngine, ∀ id seq, e.Plausible →
    Ahead e.wallMs (req.toJob id e.wallMs e.nowMs seq).readyAtWallMs
  enqueued : ∀ e₀ e : JobEngine, ∀ id seq, e₀.Plausible → e.Plausible →
    Ahead e.nowMs (e.readySteady (req.toJob id e₀.wallMs e₀.nowMs seq))
  deadline : ∀ e : JobEngine, ∀ job owner eligibleAt remote cell, e.Plausible → job.SubmittedAs req →
    0 < job.timeoutMs →
    Ahead e.wallMs (leaseOf (e.startedRow job owner eligibleAt remote) cell owner eligibleAt remote).deadlineWallMs
  grace : 0 < req.timeoutMs → req.timeoutMs + 2000 < 2 ^ 63
  lease : ∀ e : JobEngine, ∀ job owner eligibleAt, e.Plausible → job.SubmittedAs req →
    Ahead e.wallMs (e.startedRow job owner eligibleAt true).leaseExpiresMs
  retry : ∀ e : JobEngine, ∀ job : Job, e.Plausible → job.SubmittedAs req → 1 ≤ job.attempt →
    job.attempt < job.retry.maxAttempts →
    Ahead e.wallMs (e.wallMs + job.retry.clampDelay (rounded job.attempt) e.randomU64)
  reenqueued : ∀ e₀ e : JobEngine, ∀ job : Job, e₀.Plausible → e.Plausible → job.SubmittedAs req → 1 ≤ job.attempt →
    job.attempt < job.retry.maxAttempts →
    Ahead e.nowMs (e.readySteady
      { job with readyAtWallMs := e₀.wallMs + job.retry.clampDelay (rounded job.attempt) e₀.randomU64 })

end JobEngine

theorem RetryPolicy.clampDelay_mem (p : RetryPolicy) (rounded : Int) (draw : UInt64) :
    0 ≤ p.clampDelay rounded draw ∧ p.clampDelay rounded draw ≤ max 0 (min rounded p.backoffMaxMs) := by
  unfold clampDelay
  dsimp only
  split_ifs with hjitter
  · have hpos : (0 : Int) < max 0 (min rounded p.backoffMaxMs) + 1 := by omega
    exact ⟨Int.emod_nonneg _ hpos.ne', Int.lt_add_one_iff.mp (Int.emod_lt_of_pos _ hpos)⟩
  · exact ⟨le_max_left _ _, le_rfl⟩

/-- Some draw keeps the whole delay, as far as it fits. -/
theorem RetryPolicy.exists_draw (p : RetryPolicy) {rounded t : Int} (h : 0 < t) (hlt : t < 2 ^ 64)
    (hle : t ≤ min rounded p.backoffMaxMs) : ∃ draw, t ≤ p.clampDelay rounded draw := by
  refine ⟨UInt64.ofNat t.toNat, ?_⟩
  unfold clampDelay
  dsimp only
  split_ifs with hjitter
  · have hdraw : ((UInt64.ofNat t.toNat).toNat : Int) = t := by
      rw [UInt64.toNat_ofNat', Nat.mod_eq_of_lt (by omega)]
      omega
    rw [hdraw, Int.emod_eq_of_lt h.le (by omega)]
  · exact hle.trans (le_max_right _ _)

namespace JobEngine

variable {e e₀ : JobEngine} {req : SubmitRequest} {rounded : Int → Int}

/-- A ready time not too far from a plausible reading can be put on the steady clock. -/
theorem Plausible.ahead_readySteady (h : e.Plausible) {job : Job} (hready : job.readyAtWallMs < 2 ^ 63 - 2 ^ 50 + 1) :
    Ahead e.nowMs (e.readySteady job) := by
  have hlagged := h.lagged_nonneg
  have hsteady := h.steady_lt
  unfold readySteady
  dsimp only
  split_ifs with hlt
  · exact ⟨by omega, by omega⟩
  · exact ⟨le_rfl, by omega⟩

/-- A plausible state with the given readings and draw. -/
def reading (wall steady : Int) (draw : UInt64) : JobEngine :=
  { world := { wall := fun _ => wall, steady := fun _ => steady, draw := fun _ => draw } }

theorem plausible_reading {wall steady : Int} (hwall : 0 ≤ wall ∧ wall < 2 ^ 50)
    (hsteady : 0 ≤ steady ∧ steady < 2 ^ 50) (draw : UInt64) : (reading wall steady draw).Plausible where
  wall_nonneg := hwall.1
  wall_lt := hwall.2
  lagged_nonneg := by
    change 0 ≤ wall + 0
    omega
  lagged_lt := by
    change wall + 0 < 2 ^ 50
    omega
  steady_nonneg := hsteady.1
  steady_lt := hsteady.2
  lease_nonneg := by
    change (0 : Int) ≤ 30000
    omega
  lease_le := by
    change (30000 : Int) ≤ 2 ^ 63 - 2 ^ 50
    omega

/-- A ready time is latest on the steady clock if that clock is late and the wall clock has gone back to zero. -/
theorem readySteady_reading {job : Job} (h : 0 < job.readyAtWallMs) (draw : UInt64) :
    (reading 0 (2 ^ 50 - 1) draw).readySteady job = 2 ^ 50 - 1 + job.readyAtWallMs := by
  change (if (0 : Int) + 0 < job.readyAtWallMs then 2 ^ 50 - 1 + (job.readyAtWallMs - (0 + 0)) else 2 ^ 50 - 1) = _
  rw [if_pos (by omega)]
  omega

theorem plausible_late (draw : UInt64) : (reading (2 ^ 50 - 1) 0 draw).Plausible :=
  plausible_reading (by omega) (by omega) draw

theorem plausible_back : (reading 0 (2 ^ 50 - 1) 0).Plausible := plausible_reading (by omega) (by omega) 0

theorem TimesFit.delay_le (h : TimesFit req rounded) : req.delayMs ≤ 2 ^ 63 - 2 ^ 51 + 1 := by
  have hfit := (h.enqueued _ _ "" 0 (plausible_late 0) plausible_back).2
  rw [readySteady_reading (show 0 < 2 ^ 50 - 1 + max 0 req.delayMs by omega)] at hfit
  replace hfit : 2 ^ 50 - 1 + (2 ^ 50 - 1 + max 0 req.delayMs) < 2 ^ 63 := hfit
  omega

theorem TimesFit.timeout_le (h : TimesFit req rounded) : req.timeoutMs ≤ 2 ^ 63 - 2 ^ 50 := by
  by_contra hlarge
  have hpos : 0 < req.timeoutMs := by omega
  have hfit :=
    (h.deadline _ (req.toJob "" 0 0 0) "" 0 false 0 (plausible_late 0) (req.submittedAs_toJob _ _ _ _) hpos).2
  replace hfit : (if 0 < req.timeoutMs then 2 ^ 50 - 1 + req.timeoutMs else 0) < 2 ^ 63 := hfit
  rw [if_pos hpos] at hfit
  omega

theorem TimesFit.backoff_le (h : TimesFit req rounded) {k : Int} (hk : 1 ≤ k) (hlt : k < req.retry.maxAttempts) :
    min (rounded k) req.retry.backoffMaxMs ≤ 2 ^ 63 - 2 ^ 51 + 1 := by
  by_contra hlarge
  obtain ⟨draw, hdraw⟩ := req.retry.exists_draw (t := 2 ^ 63 - 2 ^ 51 + 2) (by omega) (by omega)
    (Int.add_one_le_of_lt (not_le.mp hlarge))
  have hattempts : k < if req.retry.maxAttempts < 1 then 1 else req.retry.maxAttempts := by
    rw [if_neg (by omega)]
    exact hlt
  have hfit := (h.reenqueued _ _ { req.toJob "" 0 0 0 with attempt := k } (plausible_late draw) plausible_back
    ⟨rfl, rfl⟩ hk hattempts).2
  rw [readySteady_reading (show 0 < 2 ^ 50 - 1 + req.retry.clampDelay (rounded k) draw by omega)] at hfit
  replace hfit : 2 ^ 50 - 1 + (2 ^ 50 - 1 + req.retry.clampDelay (rounded k) draw) < 2 ^ 63 := hfit
  omega

theorem timesFit_of_le (hattempts : 1 ≤ req.retry.maxAttempts) (htimeout : 0 ≤ req.timeoutMs)
    (hd : req.delayMs ≤ 2 ^ 63 - 2 ^ 51 + 1) (ht : req.timeoutMs ≤ 2 ^ 63 - 2 ^ 50)
    (hb : ∀ k, 1 ≤ k → k < req.retry.maxAttempts → min (rounded k) req.retry.backoffMaxMs ≤ 2 ^ 63 - 2 ^ 51 + 1) :
    TimesFit req rounded := by
  have hbackoff : ∀ (job : Job) draw, job.SubmittedAs req → 1 ≤ job.attempt → job.attempt < job.retry.maxAttempts →
      0 ≤ job.retry.clampDelay (rounded job.attempt) draw ∧
        job.retry.clampDelay (rounded job.attempt) draw ≤ 2 ^ 63 - 2 ^ 51 + 1 := by
    intro job draw hjob hpos hlt
    have hmem := job.retry.clampDelay_mem (rounded job.attempt) draw
    rw [hjob.retry, if_neg (by omega)] at hlt
    have hle := hb _ hpos hlt
    rw [hjob.retry] at hmem ⊢
    change _ ∧ _ ≤ max 0 (min _ req.retry.backoffMaxMs) at hmem
    omega
  constructor
  · intro e id seq he
    have hwall := he.wall_lt
    change Ahead e.wallMs (e.wallMs + max 0 req.delayMs)
    exact ⟨by omega, by omega⟩
  · intro e₀ e id seq he₀ he
    have hwall := he₀.wall_lt
    refine he.ahead_readySteady ?_
    change e₀.wallMs + max 0 req.delayMs < _
    omega
  · intro e job owner eligibleAt remote cell he hjob hpos
    have hwall := he.wall_lt
    change Ahead e.wallMs (if 0 < job.timeoutMs then e.wallMs + job.timeoutMs else 0)
    rw [if_pos hpos, hjob.timeoutMs]
    exact ⟨by omega, by omega⟩
  · intro _
    omega
  · intro e job owner eligibleAt he hjob
    have hwall := he.wall_lt
    have hlease := he.lease_nonneg
    have hlease' := he.lease_le
    change Ahead e.wallMs (e.wallMs + if 0 < job.timeoutMs then min e.cfg.leaseDurationMs (job.timeoutMs + 2000)
      else e.cfg.leaseDurationMs)
    split_ifs <;> exact ⟨by omega, by omega⟩
  · intro e job he hjob hpos hlt
    have hwall := he.wall_lt
    obtain ⟨hnonneg, hle⟩ := hbackoff job e.randomU64 hjob hpos hlt
    exact ⟨by omega, by omega⟩
  · intro e₀ e job he₀ he hjob hpos hlt
    have hwall := he₀.wall_lt
    obtain ⟨hnonneg, hle⟩ := hbackoff job e₀.randomU64 hjob hpos hlt
    refine he.ahead_readySteady ?_
    change e₀.wallMs + _ < _
    omega

/-! ### The rows of a submission -/

section Rows

variable {cfg : EngineConfig} {types : List String} {world : World} {p p' : Pool JobEngine Frame} {j : JobId}

/-- The copies in a run stay true to the rows, and a row keeps the columns that its submission set. -/
theorem specs_run {row : Job} (hrun : Interleaved AnyStep p p') (h : ∀ g ∈ p.frames, p.state.Faithful g)
    (hrow : p.state.specs j = some row.spec) :
    (∀ g ∈ p'.frames, p'.state.Faithful g) ∧ p'.state.specs j = some row.spec := by
  refine hrun.invariant (I := fun (e : JobEngine) F => (∀ g ∈ F, e.Faithful g) ∧ e.specs j = some row.spec)
    (fun e c f O _ _ h => ⟨faithful_advance h.1, ?_⟩) (fun e e' F hsub h => ⟨faithful_submits hsub h.1, ?_⟩)
    (fun e f F hcall h => ⟨faithful_spawn hcall h.1, h.2⟩) ⟨h, hrow⟩
  · exact (congrFun (specs_advance (h.1 f (Multiset.mem_cons_self f O))) j).trans h.2
  · obtain ⟨old, hold, hspec⟩ := Option.map_eq_some_iff.mp h.2
    rw [specs, Submits.getJob hsub hold, Option.map_some, hspec]

/-- In every run the row of a job keeps the timeout and the retry policy of its submission, and so do the copies of
the row that operations work on. -/
theorem submittedAs_run {row : Job} (hboot : Interleaved AnyStep ⟨boot cfg types world, []⟩ p)
    (hrun : Interleaved AnyStep p p') (hrow : p.state.db.getJob j = some row) (h : row.SubmittedAs req) :
    (∃ row', p'.state.db.getJob j = some row' ∧ row'.SubmittedAs req) ∧
      ∀ g ∈ p'.frames, ∀ job, g.copy = some job → job.jobId = j → job.SubmittedAs req := by
  have hfaithful : ∀ g ∈ p.frames, p.state.Faithful g :=
    hboot.invariant (I := fun e F => ∀ g ∈ F, e.Faithful g) (fun _ _ _ _ _ _ h => faithful_advance h)
      (fun _ _ _ hsub h => faithful_submits hsub h) (fun _ _ _ hcall h => faithful_spawn hcall h)
      (fun g hg => by cases hg)
  have hspec : p.state.specs j = some row.spec := by rw [specs, hrow, Option.map_some]
  obtain ⟨hcopies, hspec'⟩ := specs_run hrun hfaithful hspec
  obtain ⟨row', hrow', hsame⟩ := Option.map_eq_some_iff.mp hspec'
  refine ⟨⟨row', hrow', h.of_spec hsame⟩, fun g hg job hcopy hid => h.of_spec ?_⟩
  have hjob := hcopies g hg job hcopy
  rw [hid, hspec', Option.some.injEq] at hjob
  exact hjob.symm

end Rows

/-- **The times of an accepted submission fit** when its delay, its timeout and its longest backoff leave room for
the clock readings, and only then. -/
theorem timesFit_iff {libc : Libc} {body : Json} (haccepted : Api.readSubmitRequest libc body = .ok req)
    (rounded : Int → Int) :
    TimesFit req rounded ↔ req.delayMs ≤ 2 ^ 63 - 2 ^ 51 + 1 ∧ req.timeoutMs ≤ 2 ^ 63 - 2 ^ 50 ∧
      ∀ k, 1 ≤ k → k < req.retry.maxAttempts → min (rounded k) req.retry.backoffMaxMs ≤ 2 ^ 63 - 2 ^ 51 + 1 := by
  have hread := Api.readSubmitRequest_ok haccepted
  refine ⟨fun h => ⟨h.delay_le, h.timeout_le, fun k => h.backoff_le⟩, fun ⟨hd, ht, hb⟩ => ?_⟩
  exact timesFit_of_le hread.retry.attempts_pos hread.timeout_nonneg hd ht hb

/-- A job that is to run in a second. -/
theorem timesFit_second : TimesFit { type := "echo", delayMs := 1000 } (fun _ => 100) := by
  have haccepted : Api.readSubmitRequest zeroLibc (.object [(text "type", .str (text "echo")),
      (text "delay_ms", .int 1000)]) = .ok { type := "echo", delayMs := 1000 } := by rfl
  exact (timesFit_iff haccepted _).mpr ⟨by decide, by decide, fun k _ _ => by change min 100 30000 ≤ _; decide⟩

/-- The longest delay that is accepted gives a ready time that does not fit, and that lies in the past if the sum
wraps around. -/
theorem timesFit_overflow :
    ∃ (req : SubmitRequest) (e : JobEngine), Api.readSubmitRequest zeroLibc
      (.object [(text "type", .str (text "echo")),
        (text "delay_ms", .int (2 ^ 63 - 1))]) = .ok req ∧ e.Plausible ∧
      ¬Ahead e.wallMs (req.toJob "j" e.wallMs e.nowMs 1).readyAtWallMs ∧
      ((req.toJob "j" e.wallMs e.nowMs 1).readyAtWallMs).bmod (2 ^ 64) < e.wallMs := by
  refine ⟨{ type := "echo", delayMs := 2 ^ 63 - 1 }, reading 1 0 0, by rfl,
    plausible_reading (by omega) (by omega) 0, ?_, ?_⟩
  · change ¬((1 : Int) ≤ 1 + max 0 (2 ^ 63 - 1) ∧ (1 : Int) + max 0 (2 ^ 63 - 1) < 2 ^ 63)
    decide
  · change (1 + max 0 (2 ^ 63 - 1 : Int)).bmod (2 ^ 64) < 1
    decide

end JobEngine

end DistributedJobEngine
