import DistributedJobEngine.EngineClock
import DistributedJobEngine.EngineColumns
import DistributedJobEngine.EngineReplies

/-! The expiry of leases. A lease is granted with an expiry that respects the deadline of its job, heartbeats
extend it, and the watchdog revokes leases that it found expired or whose worker it found dead in an earlier
block. -/

namespace DistributedJobEngine

open LibPool

namespace JobEngine

variable {e e' : JobEngine}

/-! ### The deadline of a lease -/

/-- No remote lease outlives the deadline of its job by more than the grace period. -/
def Bounded (e : JobEngine) : Prop :=
  ∀ j info row, e.running.lookup j = some info → info.remote = true → e.db.getJob j = some row →
    0 < row.timeoutMs → info.leaseExpiresMs ≤ info.startedWall + row.timeoutMs + 2000

/-- A heartbeat of `w` now extends no lease past the deadline of its job and the grace period. -/
def Extends (e : JobEngine) (w : WorkerId) : Prop :=
  ∀ j info row, e.running.lookup j = some info → info.remote = true → info.owner = w → e.db.getJob j = some row →
    0 < row.timeoutMs → e.wallMs + e.cfg.leaseDurationMs ≤ info.startedWall + row.timeoutMs + 2000

def InTime (e : JobEngine) (_c : Choice) (f : Frame) (_O : Multiset Frame) : Prop :=
  ∀ w, f = .heartbeat w → e.Extends w

theorem timeout_of_specs {j : JobId} {row row' : Job} (hspecs : e'.specs j = e.specs j)
    (hrow : e.db.getJob j = some row)
    (hrow' : e'.db.getJob j = some row') : row'.timeoutMs = row.timeoutMs := by
  rw [specs, specs, hrow, hrow', Option.map_some, Option.map_some, Option.some.injEq] at hspecs
  exact congrArg Spec.timeoutMs hspecs

/-- A lease is granted within the bound. -/
theorem leaseOf_bounded {job : Job} (htimeout : 0 < job.timeoutMs) (owner : String) (eligibleAt : Int) (cell : ℕ) :
    (leaseOf (e.startedRow job owner eligibleAt true) cell owner eligibleAt true).leaseExpiresMs ≤
      (leaseOf (e.startedRow job owner eligibleAt true) cell owner eligibleAt true).startedWall +
        job.timeoutMs + 2000 := by
  simp only [leaseOf, startedRow, if_true, htimeout]
  omega

theorem Bounded.advance {c : Choice} {f : Frame} (h : e.Bounded) (hf : e.Faithful f) (htime : e.InTime c f 0) :
    (e.advance c f).1.Bounded := by
  intro j info row' hlookup hremote hrow' htimeout
  have hspecs := congrFun (specs_advance (c := c) hf) j
  obtain ⟨row, hrow⟩ : ∃ row, e.db.getJob j = some row := by
    have hsome : (e.specs j).isSome := by
      rw [← hspecs, specs, hrow']
      rfl
    rw [specs, Option.isSome_map] at hsome
    exact Option.isSome_iff_exists.mp hsome
  have hsame := timeout_of_specs hspecs hrow hrow'
  rw [hsame] at htimeout ⊢
  cases lookup_advance (e := e) c f j with
  | kept hnew => exact h j info row (hnew ▸ hlookup) hremote hrow htimeout
  | taken _ hnew =>
      rw [hlookup] at hnew
      cases hnew
  | granted job owner eligibleAt remote hframe hj hnew =>
      subst hframe
      rw [hlookup, Option.some.injEq] at hnew
      subst hnew
      obtain rfl : remote = true := hremote
      have hspec := hf job rfl
      rw [hj, specs, hrow, Option.map_some, Option.some.injEq] at hspec
      have hjob : row.timeoutMs = job.timeoutMs := congrArg Spec.timeoutMs hspec
      rw [hjob] at htimeout ⊢
      exact leaseOf_bounded htimeout owner eligibleAt _
  | renewed old hframe hold holdremote hnew =>
      rw [hlookup, Option.some.injEq] at hnew
      subst hnew
      exact htime old.owner hframe j old row hold holdremote rfl hrow htimeout

/-- Every entry of `running_` is of a job in the store. -/
def Rowed (e : JobEngine) : Prop := ∀ j info, e.running.lookup j = some info → ∃ row, e.db.getJob j = some row

theorem Rowed.advance {c : Choice} {f : Frame} (h : e.Rowed) (hf : e.Faithful f) : (e.advance c f).1.Rowed := by
  intro j info hlookup
  have hspecs := congrFun (specs_advance (c := c) hf) j
  have hold : ∃ row, e.db.getJob j = some row := by
    cases lookup_advance (e := e) c f j with
    | kept hnew => exact h j info (hnew ▸ hlookup)
    | taken _ hnew =>
        rw [hlookup] at hnew
        cases hnew
    | granted job owner eligibleAt remote hframe hj _ =>
        subst hframe
        obtain ⟨row, hrow, -⟩ := Option.map_eq_some_iff.mp (hf job rfl)
        exact ⟨row, hj ▸ hrow⟩
    | renewed old _ hold _ _ => exact h j old hold
  obtain ⟨row, hrow⟩ := hold
  rw [specs, specs, hrow, Option.map_some, Option.map_eq_some_iff] at hspecs
  obtain ⟨row', hrow', -⟩ := hspecs
  exact ⟨row', hrow'⟩

/-- The invariant behind the deadline of leases. -/
structure Timed (e : JobEngine) (F : Multiset Frame) : Prop where
  bounded : e.Bounded
  rowed : e.Rowed
  faithful : ∀ g ∈ F, e.Faithful g

theorem Timed.advance {c : Choice} {f : Frame} {O : Multiset Frame} (h : e.Timed (f ::ₘ O))
    (htime : e.InTime c f O) : (e.advance c f).1.Timed (((e.advance c f).2 : Multiset Frame) + O) :=
  have hf := h.faithful f (Multiset.mem_cons_self f O)
  ⟨h.bounded.advance hf htime, h.rowed.advance hf, faithful_advance h.faithful⟩

theorem Timed.submits {F : Multiset Frame} (h : e.Timed F) (hsub : Submits e e') : e'.Timed F := by
  have hrunning : e'.running = e.running := congrArg Desk.running (Submits.desk hsub)
  refine ⟨fun j info row hlookup hremote hrow htimeout => ?_, fun j info hlookup => ?_,
    faithful_submits hsub h.faithful⟩
  · rw [hrunning] at hlookup
    obtain ⟨old, hold⟩ := h.rowed j info hlookup
    rw [Submits.getJob hsub hold, Option.some.injEq] at hrow
    subst hrow
    exact h.bounded j info old hlookup hremote hold htimeout
  · rw [hrunning] at hlookup
    obtain ⟨old, hold⟩ := h.rowed j info hlookup
    exact ⟨old, Submits.getJob hsub hold⟩

/-- A heartbeat keeps the bound just if it extends no lease past it. -/
theorem Bounded.heartbeat_iff (h : e.Bounded) {w : WorkerId} (hw : (e.remoteWorkers.lookup w).isSome) :
    (e.heartbeat w).Bounded ↔ e.Extends w := by
  obtain ⟨info, hinfo⟩ := Option.isSome_iff_exists.mp hw
  constructor
  · intro hb j old row hlookup hremote howner hrow htimeout
    have hnew : (e.heartbeat w).running.lookup j =
        some { old with leaseExpiresMs := e.wallMs + e.cfg.leaseDurationMs } := by
      simp only [heartbeat, hinfo]
      rw [lookup_mapRunning, hlookup, Option.map_some, if_pos ⟨hremote, howner⟩]
    have hdb : (e.heartbeat w).db = e.db := by simp only [heartbeat, hinfo, tick]
    exact hb j _ row hnew hremote (by rw [hdb]; exact hrow) htimeout
  · intro hext
    exact h.advance (c := {}) (f := .heartbeat w) (by intro job hjob; cases hjob) fun w' hw' => by
      cases hw'
      exact hext

section Deadlines

variable {cfg : EngineConfig} {types : List String} {world : World} {p : Pool JobEngine Frame}

/-- **A lease stays within the deadline of its job and the grace period, in every run whose heartbeats extend
no lease past it; a heartbeat that does breaks the bound.** -/
theorem lease_within_deadline (hrun : Interleaved InTime ⟨boot cfg types world, []⟩ p) :
    p.state.Bounded ∧ ∀ w, (p.state.remoteWorkers.lookup w).isSome →
      ((p.state.heartbeat w).Bounded ↔ p.state.Extends w) := by
  have hboot : (boot cfg types world).Timed 0 :=
    ⟨fun j info row h => (by cases h), fun j info h => (by cases h), fun g hg => (by cases hg)⟩
  have htimed : p.state.Timed p.frames :=
    hrun.invariant (fun _ _ _ _ _ htime h => h.advance htime) (fun _ _ _ hsub h => h.submits hsub)
      (fun _ _ _ hcall h => ⟨h.bounded, h.rowed, faithful_spawn hcall h.faithful⟩) hboot
  exact ⟨htimed.bounded, fun w hw => htimed.bounded.heartbeat_iff hw⟩

instance (e : JobEngine) (w : WorkerId) : Decidable (e.Extends w) :=
  decidable_of_iff (∀ kv ∈ e.running.entries, kv.2.remote = true → kv.2.owner = w → ∀ row ∈ e.db.getJob kv.1,
      0 < row.timeoutMs → e.wallMs + e.cfg.leaseDurationMs ≤ kv.2.startedWall + row.timeoutMs + 2000)
    ⟨fun h j info row hlookup hremote howner hrow =>
        h ⟨j, info⟩ (AList.mem_lookup_iff.mp hlookup) hremote howner row hrow,
      fun h kv hkv hremote howner row hrow =>
        h kv.1 kv.2 row (AList.mem_lookup_iff.mpr hkv) hremote howner hrow⟩

/-- A job with a deadline. -/
def timedJob (timeoutMs : Int) : SubmitRequest := { type := "t", timeoutMs }

/-- Every heartbeat meets the condition. -/
def beatsInTime (e : JobEngine) (f : Frame) : Bool :=
  match f with
  | .heartbeat w => decide (e.Extends w)
  | _ => true

theorem inTime_of_beatsInTime (e : JobEngine) (c : Choice) (f : Frame) (O : List Frame) (h : e.beatsInTime f = true) :
    e.InTime c f O := by
  intro w hw
  subst hw
  exact of_decide_eq_true h

/-- The expiry, the start and the deadline of the lease of a job. -/
def leaseTimes (j : JobId) (p : Pool JobEngine Frame) : Option (Bool × Int × Int × Int) := do
  let info ← p.state.running.lookup j
  let row ← p.state.db.getJob j
  return (info.remote, info.leaseExpiresMs, info.startedWall, row.timeoutMs)

theorem leaseTimes_eq_some {j : JobId} {remote : Bool} {expires started timeout : Int}
    (h : leaseTimes j p = some (remote, expires, started, timeout)) :
    ∃ info row, p.state.running.lookup j = some info ∧ p.state.db.getJob j = some row ∧ info.remote = remote ∧
      info.leaseExpiresMs = expires ∧ info.startedWall = started ∧ row.timeoutMs = timeout := by
  simp only [leaseTimes, Option.bind_eq_bind, Option.bind_eq_some_iff, Option.pure_def, Option.some.injEq,
    Prod.mk.injEq] at h
  obtain ⟨info, hinfo, row, hrow, hremote, hexpires, hstarted, htimeout⟩ := h
  exact ⟨info, row, hinfo, hrow, hremote, hexpires, hstarted, htimeout⟩

/-- The worker leases the job and sends a heartbeat. -/
def leaseAndBeat (timeoutMs : Int) : List (System.Act JobEngine Frame Choice) :=
  leaseOut (timedJob timeoutMs) ++ [.spawn (.heartbeat "k_4"), .run 2 {}]

theorem leaseAndBeat_allowed (timeoutMs : Int) : ∀ a ∈ leaseAndBeat timeoutMs, System.Allowed Submits Call a :=
  List.forall_mem_append.mpr ⟨leaseOut_allowed rfl rfl, by simp [System.Allowed, Call, Frame.isCall]⟩

set_option maxRecDepth 8000 in
/-- A heartbeat one second after the start moves the expiry from `38000` to `39000`. -/
theorem lease_within_deadline_extended : ∃ p,
    Interleaved InTime ⟨boot {} ["t"] { wall := fun n => 1000 * n }, []⟩ p ∧
    leaseTimes "j_0" p = some (true, 39000, 8000, 40000) ∧ p.state.Bounded ∧
    ((p.state.heartbeat "k_4").Bounded ↔ p.state.Extends "k_4") := by
  have hsched : (engineSystem.execs (fun e _ f _ => e.beatsInTime f)
      ⟨boot {} ["t"] { wall := fun n => 1000 * n }, []⟩ (leaseAndBeat 40000)).map
        (fun p => (leaseTimes "j_0" p, (p.state.remoteWorkers.lookup "k_4").isSome)) =
      some (some (true, 39000, 8000, 40000), true) := by
    decide
  obtain ⟨p, hp, hview⟩ := System.exists_run inTime_of_beatsInTime (leaseAndBeat_allowed _) hsched
  obtain ⟨htimes, hworker⟩ := Prod.mk.inj hview
  have h := lease_within_deadline hp
  exact ⟨p, hp, htimes, h.1, h.2 "k_4" hworker⟩

set_option maxRecDepth 8000 in
/-- One heartbeat moves the expiry to thirty seconds, whatever the deadline of the job is. -/
theorem lease_outlives_deadline : ∃ p, Interleaved AnyStep ⟨boot {} ["t"] {}, []⟩ p ∧
    leaseTimes "j_0" p = some (true, 30000, 0, 1000) ∧ ¬ p.state.Bounded := by
  have hsched : (engineSystem.execs (fun _ _ _ _ => true) ⟨boot {} ["t"] {}, []⟩ (leaseAndBeat 1000)).map
      (leaseTimes "j_0") = some (some (true, 30000, 0, 1000)) := by
    decide
  obtain ⟨p, hp, hview⟩ := System.exists_run anyStep (leaseAndBeat_allowed _) hsched
  refine ⟨p, hp, hview, fun hb => ?_⟩
  obtain ⟨info, row, hinfo, hrow, hremote, hexpires, hstarted, htimeout⟩ := leaseTimes_eq_some hview
  have hle := hb "j_0" info row hinfo hremote hrow (by rw [htimeout]; decide)
  rw [hexpires, hstarted, htimeout] at hle
  omega

end Deadlines

/-! ### Revocation -/

/-- The worker is registered and marked dead. -/
def Dead (e : JobEngine) (w : WorkerId) : Prop := ∃ info, e.remoteWorkers.lookup w = some info ∧ info.alive = false

/-- The lease is past its expiry at the time `now`, or its worker is not alive. -/
def Overdue (e : JobEngine) (now : Int) (info : RunningInfo) : Prop :=
  (0 < info.leaseExpiresMs ∧ info.leaseExpiresMs < now) ∨ e.Dead info.owner

/-- The step of `f` is a sign of life of the worker `w`. -/
def Revives (e : JobEngine) (f : Frame) (w : WorkerId) : Prop :=
  match f with
  | .claim workerId _ | .heartbeat workerId => workerId = w
  | .registerWorker _ _ => e.newId "k_" = w
  | _ => False

end JobEngine

namespace Frame

/-- The leases a pass of the watchdog has selected and not revoked yet. -/
def selected : Frame → List (JobId × UInt64)
  | watchdogDead _ _ _ expired => expired
  | expire _ jobId tokens => tokens.map fun t => (jobId, t)
  | _ => []

/-- The workers a pass has marked dead and whose leases it has not collected yet. -/
def marked : Frame → List WorkerId
  | watchdogDead _ workerId dead _ => workerId :: dead
  | _ => []

/-- When the pass read the clock. -/
def passTime : Frame → Int
  | watchdogDead now _ _ _ | expire now _ _ => now
  | _ => 0

/-- The frame belongs to a pass that has made its scan. -/
def inPass : Frame → Bool
  | watchdogDead _ _ _ _ | expire _ _ _ => true
  | _ => false

end Frame

namespace JobEngine

variable {e e' : JobEngine}

/-- While a pass of another thread has a lease selected, `f` starts no attempt of its job and is no sign of
life of its worker, nor of a worker that the pass has marked dead. -/
def Unrenewed (e : JobEngine) (_c : Choice) (f : Frame) (O : Multiset Frame) : Prop :=
  ∀ g ∈ O, (∀ w ∈ g.marked, ¬ e.Revives f w) ∧
    ∀ x ∈ g.selected, (∀ job owner eligibleAt remote, f = .startWrite job owner eligibleAt remote → job.jobId ≠ x.1) ∧
      ∀ info, e.running.lookup x.1 = some info → ¬ e.Revives f info.owner

/-- What a pass knows of the entries it selected is still true. -/
structure Watched (e : JobEngine) (g : Frame) : Prop where
  marked : ∀ w ∈ g.marked, e.Dead w
  selected : ∀ x ∈ g.selected, ∀ info, e.running.lookup x.1 = some info →
    info.leaseToken = x.2 ∧ info.remote = true ∧ e.Overdue g.passTime info
  expire : ∀ now j tokens, g = .expire now j tokens → tokens ≠ []
  time : g.inPass = true → ∃ n ≤ e.world.pos, g.passTime = e.world.wall n

theorem watched_of_not_inPass {g : Frame} (h : g.inPass = false) : e.Watched g := by
  cases g with
  | watchdogDead => cases h
  | expire => cases h
  | _ => exact ⟨by simp [Frame.marked], by simp [Frame.selected], by simp, fun hpass => by cases hpass⟩

/-! ### Clocks and workers -/

/-- The clock is the same, read at the same position or a later one. -/
def Later (e e' : JobEngine) : Prop := e'.world.wall = e.world.wall ∧ e.world.pos ≤ e'.world.pos

theorem Later.of_flows (h : e.Flows e') : e.Later e' := ⟨by rw [h.1], h.2⟩

theorem advance_clock (c : Choice) (f : Frame) : e.Later (e.advance c f).1 := .of_flows (advance_onward c f).flows

theorem Submits.clock (h : Submits e e') : e.Later e' := .of_flows (Submits.flows h)

/-- The workers the scan marks dead, and all that were dead before, are dead after it. -/
theorem dead_watchdog {w : WorkerId} (h : e.Dead w ∨ ∃ info, e.remoteWorkers.lookup w = some info ∧
      e.cfg.workerHeartbeatTimeoutMs < e.wallMs - info.lastHeartbeatMs) : e.watchdog.1.Dead w := by
  obtain ⟨cells, hcells⟩ := setCells_eq (e := e.tick)
    (e.running.entries.filter fun kv => decide (e.pastDeadline e.wallMs kv.2))
  simp only [Dead, watchdog, hcells]
  -- the loop over the dead workers only clears flags
  have hloop : ∀ (l : List (Σ _ : WorkerId, WorkerInfo)) (ws : AList fun _ : WorkerId => WorkerInfo),
      ((∃ info, ws.lookup w = some info ∧ info.alive = false) ∨ w ∈ l.map (·.1)) →
      ∃ info, (l.foldl (fun ws kv => ws.insert kv.1 { kv.2 with alive := false }) ws).lookup w = some info ∧
        info.alive = false := by
    intro l
    induction l with
    | nil =>
        intro ws hw
        simpa using hw
    | cons kv l ih =>
        intro ws hw
        refine ih _ ?_
        by_cases hkv : w = kv.1
        · subst hkv
          exact .inl ⟨_, AList.lookup_insert _, rfl⟩
        · rcases hw with ⟨info, hlookup, halive⟩ | hmem
          · exact .inl ⟨info, by rw [AList.lookup_insert_ne hkv]; exact hlookup, halive⟩
          · rcases List.mem_cons.mp hmem with heq | hmem
            · exact absurd heq hkv
            · exact .inr hmem
  refine hloop _ _ ?_
  rcases h with hdead | ⟨info, hlookup, hlate⟩
  · exact .inl hdead
  · by_cases halive : info.alive = true
    · refine .inr (List.mem_map.mpr ⟨⟨w, info⟩, List.mem_filter.mpr ⟨AList.mem_lookup_iff.mp hlookup, ?_⟩, rfl⟩)
      simpa using ⟨halive, hlate⟩
    · exact .inl ⟨info, hlookup, Bool.not_eq_true _ ▸ halive⟩

theorem workers_aside (c : Choice) {f : Frame} (hf : f.aside = true) :
    (e.advance c f).1.remoteWorkers = e.remoteWorkers :=
  congrArg Desk.remoteWorkers (advance_desk c hf)

/-- A dead worker stays dead until it gives a sign of life. -/
theorem Dead.advance {c : Choice} {f : Frame} {w : WorkerId} (h : e.Dead w) (hnot : ¬ e.Revives f w) :
    (e.advance c f).1.Dead w := by
  have hsame : (e.advance c f).1.remoteWorkers = e.remoteWorkers → (e.advance c f).1.Dead w := by
    intro heq
    rw [Dead, heq]
    exact h
  cases f with
  | watchdog => exact dead_watchdog (.inl h)
  | claim workerId maxJobs =>
      simp only [JobEngine.advance, claim]
      split
      · exact h
      · obtain ⟨info, hlookup, halive⟩ := h
        exact ⟨info, by rw [AList.lookup_insert_ne (Ne.symm hnot)]; exact hlookup, halive⟩
  | heartbeat workerId =>
      simp only [JobEngine.advance, heartbeat]
      split
      · exact h
      · obtain ⟨info, hlookup, halive⟩ := h
        exact ⟨info, by rw [AList.lookup_insert_ne (Ne.symm hnot)]; exact hlookup, halive⟩
  | registerWorker name capacity =>
      obtain ⟨info, hlookup, halive⟩ := h
      exact ⟨info, (AList.lookup_insert_ne (Ne.symm hnot)).trans hlookup, halive⟩
  | startWrite job owner eligibleAt remote =>
      refine hsame ?_
      simp only [JobEngine.advance, startWrite]
      split
      · exact congrArg Desk.remoteWorkers (updateJob_desk _)
      · dsimp only [updateJob]
        split_ifs <;> rfl
  | finishRetry job token => exact hsame (congrArg Desk.remoteWorkers (persist_desk job))
  | finishTerminal job token => exact hsame (congrArg Desk.remoteWorkers (persist_desk job))
  | enqueue job token => cases token <;> exact hsame (congrArg Desk.remoteWorkers (enqueue_desk job))
  | slot jobId token => cases token <;> exact hsame rfl
  | finishRecord job info outcome =>
      refine hsame ?_
      simp only [JobEngine.advance, finishRecord]
      split_ifs <;> rfl
  | cancelSignal _ | complete _ | completeRead _ _ _ | finish _ _ _ _ | expire _ _ _ | account _ _ =>
      refine hsame ?_
      simp only [JobEngine.advance, cancelSignal, complete, completeRead, finish, expire, account]
      (repeat' split) <;> rfl
  | reply _ _ | metric _ | callback _ | cancelWorkflowDone _ | skipMetric _ => exact hsame rfl
  | _ => exact hsame (workers_aside c rfl)

/-! ### Passes of the watchdog -/

/-- What a pass of another thread knows survives a step that renews nothing it has selected. -/
theorem Watched.other {c : Choice} {f g : Frame} {O : Multiset Frame} (h : e.Watched g)
    (hunr : e.Unrenewed c f O) (hg : g ∈ O) : (e.advance c f).1.Watched g := by
  obtain ⟨hmarked, hselected⟩ := hunr g hg
  refine ⟨fun w hw => (h.marked w hw).advance (hmarked w hw), fun x hx info hlookup => ?_, h.expire, fun hpass => ?_⟩
  · obtain ⟨hstart, hlife⟩ := hselected x hx
    cases lookup_advance (e := e) c f x.1 with
    | kept hnew =>
        have hold : e.running.lookup x.1 = some info := hnew ▸ hlookup
        obtain ⟨htoken, hremote, hdue⟩ := h.selected x hx info hold
        refine ⟨htoken, hremote, ?_⟩
        rcases hdue with hpast | hdead
        · exact .inl hpast
        · exact .inr (hdead.advance (hlife info hold))
    | taken _ hnew =>
        rw [hlookup] at hnew
        cases hnew
    | granted job owner eligibleAt remote hf hj _ => exact absurd hj (hstart job owner eligibleAt remote hf)
    | renewed old hf hold _ _ =>
        subst hf
        exact absurd rfl (hlife old hold)
  · obtain ⟨n, hn, htime⟩ := h.time hpass
    have hclock := advance_clock (e := e) c f
    exact ⟨n, hn.trans hclock.2, by rw [hclock.1]; exact htime⟩

/-- The frames a pass goes on with know what it has found out. -/
theorem watched_reclaim {now : Int} {dead : List WorkerId} {expired : List (JobId × UInt64)}
    (hdead : ∀ w ∈ dead, e.Dead w)
    (hexpired : ∀ x ∈ expired, ∀ info, e.running.lookup x.1 = some info →
      info.leaseToken = x.2 ∧ info.remote = true ∧ e.Overdue now info)
    (htime : ∃ n ≤ e.world.pos, now = e.world.wall n) : ∀ g ∈ reclaim now dead expired, e.Watched g := by
  intro g hg
  cases dead with
  | cons w dead =>
      rw [List.mem_singleton.mp hg]
      exact ⟨hdead, hexpired, by simp, fun _ => htime⟩
  | nil =>
      obtain ⟨j, hj, rfl⟩ := List.mem_map.mp hg
      rw [List.mem_insertionSort, List.mem_dedup, List.mem_map] at hj
      obtain ⟨x, hx, rfl⟩ := hj
      refine ⟨by simp [Frame.marked], fun y hy => ?_, fun now' j' tokens h => ?_, fun _ => htime⟩
      · simp only [Frame.selected, List.map_map, List.mem_map, List.mem_filter, decide_eq_true_eq] at hy
        obtain ⟨z, ⟨hz, hzx⟩, rfl⟩ := hy
        intro info hlookup
        rw [← hzx] at hlookup
        exact hexpired z hz info hlookup
      · cases h
        intro hnil
        rw [List.map_eq_nil_iff, List.filter_eq_nil_iff] at hnil
        exact hnil x hx (by simp)

theorem watched_watchdog : ∀ g ∈ e.watchdog.2, e.watchdog.1.Watched g := by
  have hrunning : e.watchdog.1.running = e.running := by
    obtain ⟨cells, ws, n, h⟩ := exists_watchdog (e := e)
    rw [h]
    rfl
  have hclock := advance_clock (e := e) {} .watchdog
  refine watched_reclaim (fun w hw => ?_) (fun x hx info hlookup => ?_)
    ⟨e.world.pos, hclock.2, by rw [show e.watchdog.1.world.wall = _ from hclock.1]; rfl⟩
  · obtain ⟨kv, hkv, rfl⟩ := List.mem_map.mp hw
    obtain ⟨hmem, hlate⟩ := List.mem_filter.mp hkv
    exact dead_watchdog (.inr ⟨kv.2, AList.mem_lookup_iff.mpr hmem, (of_decide_eq_true hlate).2⟩)
  · obtain ⟨kv, hkv, rfl⟩ := List.mem_map.mp hx
    obtain ⟨hmem, hpast⟩ := List.mem_filter.mp hkv
    rw [hrunning] at hlookup
    have hinfo : kv.2 = info := by
      rw [AList.mem_lookup_iff.mpr hmem, Option.some.injEq] at hlookup
      exact hlookup
    subst hinfo
    obtain ⟨hremote, hexpires⟩ := of_decide_eq_true hpast
    exact ⟨rfl, hremote, .inl hexpires⟩

/-- The leases of a dead worker join the selected ones. -/
theorem Watched.watchdogDead {now : Int} {w : WorkerId} {dead : List WorkerId} {expired : List (JobId × UInt64)}
    (h : e.Watched (.watchdogDead now w dead expired)) : ∀ g ∈ e.watchdogDead now w dead expired, e.Watched g := by
  refine watched_reclaim (fun w' hw' => h.marked w' (List.mem_cons_of_mem _ hw')) (fun x hx info hlookup => ?_)
    (h.time rfl)
  rcases List.mem_append.mp hx with hx | hx
  · exact h.selected x hx info hlookup
  · obtain ⟨kv, hkv, rfl⟩ := List.mem_map.mp hx
    obtain ⟨hmem, howned⟩ := List.mem_filter.mp hkv
    rw [AList.mem_lookup_iff.mpr hmem, Option.some.injEq] at hlookup
    subst hlookup
    obtain ⟨hremote, howner⟩ := of_decide_eq_true howned
    exact ⟨rfl, hremote, .inr (howner ▸ h.marked w List.mem_cons_self)⟩

theorem inPass_tail (row : Job) (token : Option UInt64) : ∀ g ∈ Frame.tail row token, g.inPass = false := by
  simp [Frame.tail, Frame.inPass]

/-- Only a pass of the watchdog goes on with a pass. -/
theorem inPass_advance (c : Choice) {f : Frame} (hscan : f ≠ .watchdog) (hpass : f.inPass = false) :
    ∀ g ∈ (e.advance c f).2, g.inPass = false := by
  cases f with
  | watchdog => exact absurd rfl hscan
  | watchdogDead => cases hpass
  | expire => cases hpass
  | startWrite job owner eligibleAt remote =>
      simp only [advance, startWrite]
      split
      · exact inPass_tail _ _
      · dsimp only [updateJob]
        split_ifs
        · simp [startFailed, Frame.inPass]
        · cases remote <;> simp [startRunning, Frame.inPass]
  | finishTerminal job token => exact inPass_tail _ _
  | cancelWrite job =>
      simp only [advance, cancelWrite, updateJob]
      split_ifs
      · simp
      · exact inPass_tail _ _
  | expireWrite now job =>
      simp only [advance, expireWrite]
      split
      · exact inPass_tail _ _
      · simp [Frame.inPass]
  | cancelFlag job =>
      simp only [advance, cancelFlag, updateJob]
      split_ifs <;> simp [Frame.inPass]
  | cancelWorkflowNodes w =>
      intro g hg
      simp only [advance, cancelWorkflowNodes, List.mem_append, List.mem_map, List.mem_singleton] at hg
      rcases hg with ⟨j, -, rfl⟩ | rfl <;> rfl
  | claimRest workerId maxJobs first =>
      intro g hg
      obtain ⟨x, -, rfl⟩ := List.mem_map.mp hg
      rfl
  | release parent =>
      intro g hg
      obtain ⟨child, rfl⟩ := mem_release hg
      rfl
  | skipMetric jobs =>
      intro g hg
      obtain ⟨j, -, hg⟩ := List.mem_flatMap.mp hg
      simp only [List.mem_cons, List.not_mem_nil, or_false] at hg
      rcases hg with rfl | rfl <;> rfl
  | skipLoop w =>
      simp only [advance, skipLoop]
      (repeat' split) <;> simp [Frame.inPass]
  | cancel _ | cancelWorkflow _ | cancelWorkflowWrite _ | workerPop _ | claim _ _ | claimFirst _ _ =>
      simp only [advance, cancel, cancelWorkflow, cancelWorkflowWrite, workerPop, claim, claimFirst]
      (repeat' split) <;> simp [Frame.inPass]
  | complete _ | completeRead _ _ _ | start _ _ _ _ | handler _ _ | finish _ _ _ _ =>
      simp only [advance, complete, completeRead, start, handler, finish]
      (repeat' split) <;> simp [Frame.inPass]
  | onTerminal _ | releaseGet _ | skip _ | account _ _ | finalize _ _ =>
      simp only [advance, onTerminal, releaseGet, skip, account, finalize]
      (repeat' split) <;> simp [Frame.inPass]
  | finishRecord _ _ _ =>
      simp only [advance, finishRecord]
      split_ifs <;> simp [Frame.inPass]
  | finishRetry _ _ | releaseWrite _ | skipRemove _ _ | skipWrite _ _ | skipChildren _ _ | cancelRemove _ =>
      simp [advance, finishRetry, releaseWrite, skipWrite, skipChildren, Frame.inPass]
  | _ => simp [advance]

theorem watched_advance {c : Choice} {f : Frame} {O : Multiset Frame} (h : ∀ g ∈ f ::ₘ O, e.Watched g)
    (hunr : e.Unrenewed c f O) : ∀ g ∈ ((e.advance c f).2 : Multiset Frame) + O, (e.advance c f).1.Watched g := by
  intro g hg
  have hf := h f (Multiset.mem_cons_self f O)
  rcases Multiset.mem_add.mp hg with hg | hg
  · cases f with
    | watchdog => exact watched_watchdog g hg
    | watchdogDead now w dead expired => exact hf.watchdogDead g hg
    | expire now jobId tokens =>
        refine watched_of_not_inPass ?_
        simp only [advance, expire, Multiset.mem_coe] at hg
        (repeat' split at hg) <;> simp only [List.mem_singleton, List.not_mem_nil] at hg
        rw [hg]
        rfl
    | _ => exact watched_of_not_inPass (inPass_advance c (by simp) rfl g hg)
  · exact (h g (Multiset.mem_cons_of_mem hg)).other hunr hg

section Revocation

variable {cfg : EngineConfig} {types : List String} {world : World} {p : Pool JobEngine Frame}

theorem Watched.submits {g : Frame} (h : e.Watched g) (hsub : Submits e e') : e'.Watched g := by
  have hdesk := Submits.desk hsub
  have hrunning : e'.running = e.running := congrArg Desk.running hdesk
  have hdead : ∀ w, e'.Dead w ↔ e.Dead w := fun w => by
    rw [Dead, Dead, show e'.remoteWorkers = e.remoteWorkers from congrArg Desk.remoteWorkers hdesk]
  have hclock := Submits.clock hsub
  refine ⟨fun w hw => (hdead w).mpr (h.marked w hw), fun x hx info hlookup => ?_, h.expire, fun hpass => ?_⟩
  · rw [hrunning] at hlookup
    obtain ⟨htoken, hremote, hdue⟩ := h.selected x hx info hlookup
    exact ⟨htoken, hremote, hdue.imp_right (hdead info.owner).mpr⟩
  · obtain ⟨n, hn, htime⟩ := h.time hpass
    exact ⟨n, hn.trans hclock.2, by rw [hclock.1]; exact htime⟩

theorem watched_spawn {f : Frame} (h : Call f) : e.Watched f := by
  refine watched_of_not_inPass ?_
  cases f with
  | watchdogDead => cases h
  | expire => cases h
  | _ => rfl

/-- Passes know what they have found out, and all read one clock. -/
theorem watched_run (hrun : Interleaved Unrenewed ⟨boot cfg types world, []⟩ p) :
    p.state.world.wall = world.wall ∧ ∀ g ∈ p.frames, p.state.Watched g := by
  refine hrun.invariant (I := fun e F => e.world.wall = world.wall ∧ ∀ g ∈ F, e.Watched g) ?_ ?_ ?_
    ⟨rfl, fun g hg => by cases hg⟩
  · exact fun _ c f _ _ hunr h => ⟨(advance_clock c f).1.trans h.1, watched_advance h.2 hunr⟩
  · exact fun _ _ _ hsub h => ⟨(Submits.clock hsub).1.trans h.1, fun g hg => (h.2 g hg).submits hsub⟩
  · intro e f F hcall h
    refine ⟨h.1, fun g hg => ?_⟩
    rcases Multiset.mem_cons.mp hg with rfl | hg
    · exact watched_spawn hcall
    · exact h.2 g hg

/-- **A lease that the watchdog is about to revoke is one that its scan selected: it has a selected token, is
remote, and is overdue, in every run in which nothing renews a selected lease or its job before that.** -/
theorem revokes_overdue (hrun : Interleaved Unrenewed ⟨boot cfg types world, []⟩ p) {now : Int} {j : JobId}
    {tokens : List UInt64} {info : RunningInfo} (hframe : Frame.expire now j tokens ∈ p.frames)
    (hlookup : p.state.running.lookup j = some info) :
    (∀ t ∈ tokens, info.leaseToken = t) ∧ info.leaseToken ∈ tokens ∧ info.remote = true ∧
      p.state.Overdue now info ∧
      (Monotone world.wall → p.state.Overdue p.state.wallMs info) := by
  obtain ⟨hwall, hwatched⟩ := watched_run hrun
  have hpass := hwatched _ hframe
  have hselected : ∀ t ∈ tokens, info.leaseToken = t ∧ info.remote = true ∧ p.state.Overdue now info :=
    fun t ht => hpass.selected (j, t) (List.mem_map.mpr ⟨t, ht, rfl⟩) info hlookup
  obtain ⟨t, ht⟩ := List.exists_mem_of_ne_nil tokens (hpass.expire now j tokens rfl)
  obtain ⟨htoken, hremote, hdue⟩ := hselected t ht
  refine ⟨fun t ht => (hselected t ht).1, htoken ▸ ht, hremote, hdue, fun hmono => ?_⟩
  obtain ⟨n, hn, htime⟩ := hpass.time rfl
  have hnow : now ≤ p.state.wallMs := by
    calc now = world.wall n := by rw [← hwall]; exact htime
      _ ≤ world.wall p.state.world.pos := hmono hn
      _ = p.state.wallMs := by rw [wallMs, hwall]
  exact hdue.imp_left fun hpast => ⟨hpast.1, hpast.2.trans_le hnow⟩

/-- Clocks that go on by a second with every reading. -/
def ticking : World :=
  { wall := fun n => 1000 * n, steady := fun n => 1000 * n, draw := fun n => UInt64.ofNat n }

theorem ticking_monotone : Monotone ticking.wall := by
  intro m n hmn
  change (1000 * m : Int) ≤ 1000 * n
  omega

/-- Leases of half a second. -/
def shortLease : EngineConfig := { leaseDurationMs := 500 }

/-- A job with two attempts. -/
def retriedJob : SubmitRequest := { type := "t", retry := { maxAttempts := 2 } }

/-- The leases about to be revoked, and the entry of the job `j`. -/
def revoking (j : JobId) (p : Pool JobEngine Frame) : List (Int × JobId × List UInt64) × Option (UInt64 × Bool) :=
  (p.threads.flatten.filterMap fun f => match f with
      | .expire now jobId tokens => some (now, jobId, tokens)
      | _ => none,
    (p.state.running.lookup j).map fun info => (info.leaseToken, info.remote))

theorem revoking_eq {j : JobId} {now : Int} {tokens : List UInt64} {token : UInt64} {remote : Bool}
    (h : revoking j p = ([(now, j, tokens)], some (token, remote))) : Frame.expire now j tokens ∈ p.frames ∧
      ∃ info, p.state.running.lookup j = some info ∧ info.leaseToken = token ∧ info.remote = remote := by
  obtain ⟨hframes, hentry⟩ := Prod.mk.injEq .. ▸ h
  obtain ⟨info, hinfo, hpair⟩ := Option.map_eq_some_iff.mp hentry
  rw [Prod.mk.injEq] at hpair
  refine ⟨?_, info, hinfo, hpair⟩
  obtain ⟨f, hf, hview⟩ := List.mem_filterMap.mp (hframes ▸ List.mem_singleton_self (now, j, tokens))
  cases f with
  | expire now' j' tokens' =>
      cases hview
      exact hf
  | _ => cases hview

theorem unrenewed_of_inPass (e : JobEngine) (c : Choice) (f : Frame) (O : List Frame)
    (h : O.all (fun g => !g.inPass) = true) : e.Unrenewed c f O := by
  intro g hg
  have hpass := List.all_eq_true.mp h g hg
  cases g with
  | watchdogDead => cases hpass
  | expire => cases hpass
  | _ => exact ⟨by simp [Frame.marked], by simp [Frame.selected]⟩

set_option maxRecDepth 8000 in
theorem revokes_overdue_expired : ∃ p now info, Interleaved Unrenewed ⟨boot shortLease ["t"] ticking, []⟩ p ∧
    Frame.expire now "j_0" [info.leaseToken] ∈ p.frames ∧ p.state.running.lookup "j_0" = some info ∧
      info.remote = true ∧ p.state.Overdue p.state.wallMs info := by
  have hsched : (engineSystem.execs (fun _ _ _ O => O.all fun g => !g.inPass) ⟨boot shortLease ["t"] ticking, []⟩
      (leaseOut retriedJob ++ [.spawn .watchdog, .run 2 {}])).map (revoking "j_0") =
        some ([(9000, "j_0", [9])], some (9, true)) := by
    decide
  obtain ⟨p, hp, hview⟩ := System.exists_run unrenewed_of_inPass (List.forall_mem_append.mpr
    ⟨leaseOut_allowed rfl rfl, by simp [System.Allowed, Call, Frame.isCall]⟩) hsched
  obtain ⟨hframe, info, hinfo, htoken, -⟩ := revoking_eq hview
  obtain ⟨-, -, hremote, -, hdue⟩ := revokes_overdue hp hframe hinfo
  exact ⟨p, 9000, info, hp, htoken ▸ hframe, hinfo, hremote, hdue ticking_monotone⟩

set_option maxRecDepth 8000 in
/-- After the scan the worker reports a failure and an embedded worker starts the next attempt: the pass takes
that attempt out of `running_`, though it is no lease and was never selected. -/
theorem revokes_embedded : ∃ p info, Interleaved AnyStep ⟨boot shortLease ["t"] ticking, []⟩ p ∧
    Frame.expire 9000 "j_0" [9] ∈ p.frames ∧ p.state.running.lookup "j_0" = some info ∧
      info.leaseToken = 15 ∧ info.remote = false ∧
        (p.state.advance {} (.expire 9000 "j_0" [9])).1.running.lookup "j_0" = none := by
  have hsched : (engineSystem.execs (fun _ _ _ _ => true) ⟨boot shortLease ["t"] ticking, []⟩
      (leaseOut retriedJob ++ [.spawn .watchdog, .run 2 {},
        .spawn (.complete ⟨"k_4", "j_0", 1, 9, "FAILED", .null, ""⟩), .spawn (.workerPop "e")] ++
        List.replicate 6 (.run 3 {}) ++ List.replicate 3 (.run 4 {}))).map (revoking "j_0") =
        some ([(9000, "j_0", [9])], some (15, false)) := by
    decide +kernel
  obtain ⟨p, hp, hview⟩ := System.exists_run anyStep (List.forall_mem_append.mpr ⟨List.forall_mem_append.mpr
    ⟨List.forall_mem_append.mpr ⟨leaseOut_allowed rfl rfl, by simp [System.Allowed, Call, Frame.isCall]⟩,
      by simp [System.Allowed]⟩, by simp [System.Allowed]⟩) hsched
  obtain ⟨hframe, info, hinfo, htoken, hremote⟩ := revoking_eq hview
  refine ⟨p, info, hp, hframe, hinfo, htoken, hremote, ?_⟩
  simp only [advance, expire, hinfo]
  exact AList.lookup_erase _ _

end Revocation

end JobEngine

end DistributedJobEngine
