import Mathlib.Data.List.Basic
import Mathlib.Tactic

/-! The connection threads of `HttpServer`. The acceptor pushes each accepted connection, notifies one
waiting thread and then decides whether to add a thread; the threads take connections from the back of the
list. An event is one block that runs under `mutex_`, one notification or one read of the idle counter. A
waiting thread may look at the list at any time, since a condition variable may wake it for no reason. -/

namespace DistributedJobEngine

/-- `threads` is a floor and `maxConnectionThreads` the cap of the pool. -/
structure HttpServerConfig where
  threads : Int := 16
  maxConnectionThreads : Int := 256

/-- A connection thread: on its way to its first `next_connection`, there with `mutex_` held after it has
counted itself as idle, blocked there, serving a connection, or returned because the server is stopping. -/
inductive ConnectionThread where
  | starting
  | entered
  | waiting
  | busy (fd : ℕ)
  | exited
  deriving DecidableEq, Repr

namespace ConnectionThread

/-- The thread is inside `next_connection`. -/
def isWaiting : ConnectionThread → Bool
  | entered | waiting => true
  | _ => false

end ConnectionThread

/-- Where `accept_loop` stands: between two iterations, after the push, after `notify_one`, or after a read
of the idle counter that found it zero. -/
inductive AcceptorPhase where
  | polling
  | pushed
  | notified
  | growing
  deriving DecidableEq, Repr

structure HttpServer where
  cfg : HttpServerConfig
  pending : List ℕ := []
  workers : List ConnectionThread := []
  idleThreads : ℕ := 0
  acceptor : AcceptorPhase := .polling
  stopping : Bool := false
  accepted : ℕ := 0
  threadsSpawnedOnDemand : ℕ := 0

inductive PoolEvent where
  | accept (fd : ℕ)
  | notify
  | readIdle
  | grow
  | run (thread : ℕ)
  | stop
  deriving DecidableEq, Repr

namespace HttpServer

/-- `start`: the threads of the floor, none of which has run yet. -/
def start (cfg : HttpServerConfig) : HttpServer :=
  { cfg, workers := List.replicate (max 1 cfg.threads).toNat .starting }

/-- A thread holds `mutex_` across two events only while it enters `next_connection`. -/
def locked (s : HttpServer) : Bool := s.workers.any fun t => decide (t = .entered)

/-- The predicate `cv_.wait` is called with. -/
def wakes (s : HttpServer) : Bool := s.stopping || !s.pending.isEmpty

/-- Thread `i` leaves the wait of `next_connection` with the newest connection, or without one to return. -/
def takeConnection (s : HttpServer) (i : ℕ) : HttpServer :=
  match s.pending.getLast? with
  | some fd =>
      { s with
        idleThreads := s.idleThreads - 1
        pending := s.pending.dropLast
        workers := s.workers.set i (.busy fd) }
  | none => { s with idleThreads := s.idleThreads - 1, workers := s.workers.set i .exited }

/-- What thread `i` does next, where that needs `mutex_` and another thread holds it, nothing. A thread that
starts, or has served its connection, enters `next_connection`. -/
def runThread (s : HttpServer) (i : ℕ) : HttpServer :=
  match s.workers[i]? with
  | some .entered =>
      if s.wakes then s.takeConnection i else { s with workers := s.workers.set i .waiting }
  | some .waiting => if s.wakes && !s.locked then s.takeConnection i else s
  | some .exited => s
  | some _ =>
      if s.locked then s
      else { s with idleThreads := s.idleThreads + 1, workers := s.workers.set i .entered }
  | none => s

/-- The block of `grow_pool_if_starved` under `mutex_`. -/
def growPool (s : HttpServer) : HttpServer :=
  let s := { s with acceptor := .polling }
  if s.stopping then s
  else if s.pending.isEmpty then s
  else if s.cfg.maxConnectionThreads ≤ s.workers.length then s
  else
    { s with
      workers := s.workers ++ [.starting]
      threadsSpawnedOnDemand := s.threadsSpawnedOnDemand + 1 }

/-- One event. An event out of its turn, or one that waits for `mutex_`, does nothing. The idle counter is
read without the lock. -/
def step (s : HttpServer) : PoolEvent → HttpServer
  | .accept fd =>
      if s.acceptor = .polling ∧ s.locked = false then
        { s with accepted := s.accepted + 1, pending := s.pending ++ [fd], acceptor := .pushed }
      else s
  | .notify => if s.acceptor = .pushed then { s with acceptor := .notified } else s
  | .readIdle =>
      if s.acceptor = .notified then
        { s with acceptor := if 0 < s.idleThreads then .polling else .growing }
      else s
  | .grow => if s.acceptor = .growing ∧ s.locked = false then s.growPool else s
  | .run i => s.runThread i
  | .stop => { s with stopping := true }

def runEvents (s : HttpServer) (events : List PoolEvent) : HttpServer := events.foldl step s

/-- The threads in `next_connection`. -/
def waiting (s : HttpServer) : ℕ := s.workers.countP ConnectionThread.isWaiting

/-- The pool has as many threads as it may have. -/
def full (s : HttpServer) : Prop := s.cfg.maxConnectionThreads ≤ s.workers.length

/-- The waiting threads that no pending connection is for; negative where connections wait behind busy threads. -/
def slack (s : HttpServer) : Int := s.waiting - s.pending.length

variable {s : HttpServer} {i : ℕ} {t : ConnectionThread}

/-! ### One event -/

/-- A thread that goes from one phase to another moves from one count to the other. -/
theorem countP_set_add {workers : List ConnectionThread} (h : workers[i]? = some t)
    (t' : ConnectionThread) (p : ConnectionThread → Bool) :
    (workers.set i t').countP p + (if p t then 1 else 0) = workers.countP p + (if p t' then 1 else 0) := by
  obtain ⟨hi, rfl⟩ := List.getElem?_eq_some_iff.mp h
  have hle := List.boole_getElem_le_countP (p := p) hi
  rw [List.countP_set hi]
  omega

/-- What one event does as long as the server is not stopping: a thread that comes to `next_connection` adds to the
slack, the acceptor that leaves for an iteration takes from it, and nothing else changes it. -/
structure Moves (s s' : HttpServer) : Prop where
  slack : s'.slack = s.slack + (if s.waiting < s'.waiting then 1 else 0) -
    (if s.acceptor = .polling ∧ s'.acceptor ≠ .polling then 1 else 0)
  full : s.full → s'.full

theorem Moves.refl (s : HttpServer) : s.Moves s where
  slack := by
    rw [if_neg (lt_irrefl _), if_neg fun h => h.2 h.1]
    omega
  full := id

theorem Moves.stays {s' : HttpServer} (h : s.Moves s') (hstays : ¬(s.acceptor = .polling ∧ s'.acceptor ≠ .polling)) :
    s'.slack = s.slack + (if s.waiting < s'.waiting then 1 else 0) := by
  have hslack := h.slack
  rwa [if_neg hstays, sub_zero] at hslack

theorem Moves.leaves {s' : HttpServer} (h : s.Moves s') (hleaves : s.acceptor = .polling ∧ s'.acceptor ≠ .polling)
    (hwaiting : s'.waiting = s.waiting) : s'.slack = s.slack - 1 := by
  have hslack := h.slack
  rwa [if_pos hleaves, hwaiting, if_neg (lt_irrefl _), add_zero] at hslack

/-- A thread moves: it comes to `next_connection`, or stays where it is or takes a connection. -/
theorem Moves.thread {s' : HttpServer} (hcfg : s'.cfg = s.cfg) (hacceptor : s'.acceptor = s.acceptor)
    (hworkers : s'.workers.length = s.workers.length)
    (hcount : s'.waiting = s.waiting + 1 ∧ s'.pending.length = s.pending.length ∨
      s'.waiting ≤ s.waiting ∧ s'.waiting + s.pending.length = s.waiting + s'.pending.length) : s.Moves s' where
  slack := by
    have hstays : ¬(s.acceptor = .polling ∧ s'.acceptor ≠ .polling) := fun h => h.2 (hacceptor.trans h.1)
    rw [HttpServer.slack, HttpServer.slack, if_neg hstays]
    rcases hcount with ⟨hwaiting, hpending⟩ | ⟨hle, hcount⟩
    · have hmore : s.waiting < s'.waiting := by omega
      rw [if_pos hmore]
      omega
    · have hless : ¬s.waiting < s'.waiting := by omega
      rw [if_neg hless]
      omega
  full hfull := by rwa [HttpServer.full, hcfg, hworkers]

/-- The acceptor moves: it leaves with a connection for an iteration, or is inside one. -/
theorem Moves.acceptor {s' : HttpServer} (hcfg : s'.cfg = s.cfg) (hwaiting : s'.waiting = s.waiting)
    (hworkers : s.workers.length ≤ s'.workers.length)
    (hmove : (s.acceptor = .polling ∧ s'.acceptor ≠ .polling) ∧ s'.pending.length = s.pending.length + 1 ∨
      s.acceptor ≠ .polling ∧ s'.pending = s.pending) : s.Moves s' where
  slack := by
    rw [HttpServer.slack, HttpServer.slack, hwaiting, if_neg (lt_irrefl _)]
    rcases hmove with ⟨hleaves, hpending⟩ | ⟨hinside, hpending⟩
    · rw [if_pos hleaves, hpending]
      omega
    · rw [if_neg fun h => hinside h.1, hpending]
      omega
  full hfull := by
    rw [HttpServer.full, hcfg]
    exact le_trans hfull (Int.ofNat_le.mpr hworkers)

/-- A thread that takes a connection leaves one connection and one waiting thread less. -/
theorem takeConnection_moves (hi : s.workers[i]? = some t) (ht : t.isWaiting = true) (hwakes : s.wakes = true)
    (hstop : s.stopping = false) : s.Moves (s.takeConnection i) := by
  have hne : s.pending ≠ [] := by
    rintro hnil
    rw [wakes, hstop, hnil] at hwakes
    cases hwakes
  have hlength := List.length_pos_iff.mpr hne
  unfold takeConnection
  rw [List.getLast?_eq_getLast_of_ne_nil hne]
  have hwaiting := countP_set_add hi (.busy (s.pending.getLast hne)) ConnectionThread.isWaiting
  rw [ht] at hwaiting
  simp only [ConnectionThread.isWaiting, if_true, Bool.false_eq_true, if_false] at hwaiting
  refine .thread rfl rfl (List.length_set ..) (.inr ?_)
  simp only [waiting, List.length_dropLast]
  omega

theorem runThread_moves (i : ℕ) (hstop : s.stopping = false) : s.Moves (s.runThread i) := by
  unfold runThread
  split
  · next hi =>
      split
      · next hwakes => exact takeConnection_moves hi rfl hwakes hstop
      · -- the thread blocks, and stays among those in `next_connection`
        have hwaiting := countP_set_add hi .waiting ConnectionThread.isWaiting
        simp only [ConnectionThread.isWaiting, if_true] at hwaiting
        refine .thread rfl rfl (List.length_set ..) (.inr ?_)
        simp only [waiting]
        omega
  · next hi =>
      split
      · next hwakes =>
          rw [Bool.and_eq_true] at hwakes
          exact takeConnection_moves hi rfl hwakes.1 hstop
      · exact .refl s
  · exact .refl s
  · next t hentered hwaits hexited hi =>
      split
      · exact .refl s
      · have hwaiting := countP_set_add hi .entered ConnectionThread.isWaiting
        have ht : t.isWaiting = false := by
          cases t <;> first | rfl | exact absurd rfl hentered | exact absurd rfl hwaits
        rw [ht] at hwaiting
        simp only [ConnectionThread.isWaiting, if_true, Bool.false_eq_true, if_false] at hwaiting
        exact .thread rfl rfl (List.length_set ..) (.inl ⟨hwaiting, rfl⟩)
  · exact .refl s

/-- A new thread does not wait yet. -/
theorem growPool_moves (h : s.acceptor = .growing) : s.Moves s.growPool := by
  have hinside : s.acceptor ≠ .polling := by
    rw [h]
    simp
  unfold growPool
  dsimp only
  split_ifs
  · exact .acceptor rfl rfl le_rfl (.inr ⟨hinside, rfl⟩)
  · exact .acceptor rfl rfl le_rfl (.inr ⟨hinside, rfl⟩)
  · exact .acceptor rfl rfl le_rfl (.inr ⟨hinside, rfl⟩)
  · refine .acceptor rfl ?_ ?_ (.inr ⟨hinside, rfl⟩)
    · rw [waiting, waiting, List.countP_append]
      rfl
    · rw [List.length_append]
      exact Nat.le_add_right _ _

theorem stopping_step {ev : PoolEvent} (h : (s.step ev).stopping = false) : s.stopping = false := by
  cases ev with
  | run i =>
      rw [← h, step, runThread]
      split <;> try split
      all_goals first | rfl | (unfold takeConnection; split <;> rfl)
  | grow =>
      rw [← h, step, growPool]
      split_ifs <;> rfl
  | stop => cases h
  | accept _ | notify | readIdle =>
      rw [← h, step]
      split_ifs <;> rfl

theorem acceptor_runThread (s : HttpServer) (i : ℕ) : (s.runThread i).acceptor = s.acceptor := by
  rw [runThread]
  split <;> try split
  all_goals first | rfl | (unfold takeConnection; split <;> rfl)

/-- The acceptor leaves for an iteration by an accept, with which no thread moves. -/
theorem waiting_of_leaves {ev : PoolEvent} (h : s.acceptor = .polling) (hleft : (s.step ev).acceptor ≠ .polling) :
    (s.step ev).waiting = s.waiting := by
  cases ev with
  | run i => exact absurd ((acceptor_runThread s i).trans h) hleft
  | accept fd =>
      rw [step]
      split_ifs <;> rfl
  | notify | readIdle | grow =>
      refine absurd ?_ hleft
      rw [step, h, if_neg (by simp)]
      exact h
  | stop => rfl

theorem step_moves (ev : PoolEvent) (h : (s.step ev).stopping = false) : s.Moves (s.step ev) := by
  have hstop := stopping_step h
  cases ev with
  | accept fd =>
      rw [step]
      split_ifs with hpolling
      · exact .acceptor rfl rfl le_rfl (.inl ⟨⟨hpolling.1, by simp⟩, List.length_append⟩)
      · exact .refl s
  | notify =>
      rw [step]
      split_ifs with hpushed
      · exact .acceptor rfl rfl le_rfl (.inr ⟨by simp [hpushed], rfl⟩)
      · exact .refl s
  | readIdle =>
      rw [step]
      split
      · next hnotified =>
          exact .acceptor rfl rfl le_rfl (.inr ⟨by simp [hnotified], rfl⟩)
      · exact .refl s
  | grow =>
      rw [step]
      split_ifs with hgrowing
      · exact growPool_moves hgrowing.1
      · exact .refl s
  | run i => exact runThread_moves i hstop
  | stop => cases h

/-! ### A run -/

/-- The server after `n` events. -/
def moment (cfg : HttpServerConfig) (events : List PoolEvent) (n : ℕ) : HttpServer :=
  (start cfg).runEvents (events.take n)

variable {cfg : HttpServerConfig} {events : List PoolEvent}

theorem moment_succ (cfg : HttpServerConfig) (events : List PoolEvent) (n : ℕ) :
    moment cfg events (n + 1) = moment cfg events n ∨
      ∃ ev, moment cfg events (n + 1) = (moment cfg events n).step ev := by
  unfold moment
  rw [List.take_add_one]
  cases events[n]? with
  | none => exact .inl (by rw [Option.toList_none, List.append_nil])
  | some ev => exact .inr ⟨ev, by rw [Option.toList_some, runEvents, List.foldl_append]; rfl⟩

theorem moment_stopping {n m : ℕ} (hle : n ≤ m) (h : (moment cfg events m).stopping = false) :
    (moment cfg events n).stopping = false := by
  induction m, hle using Nat.le_induction with
  | base => exact h
  | succ m _ ih =>
      rcases moment_succ cfg events m with hsame | ⟨ev, hev⟩
      · exact ih (hsame ▸ h)
      · exact ih (stopping_step (hev ▸ h))

theorem moment_moves {n : ℕ} (h : (moment cfg events (n + 1)).stopping = false) :
    (moment cfg events n).Moves (moment cfg events (n + 1)) := by
  rcases moment_succ cfg events n with hsame | ⟨ev, hev⟩
  · rw [hsame]
    exact .refl _
  · rw [hev] at h ⊢
    exact step_moves ev h

/-- A thread comes to `next_connection` between the two moments. -/
def Arrives (cfg : HttpServerConfig) (events : List PoolEvent) (n m : ℕ) : Prop :=
  ∃ k, n ≤ k ∧ k < m ∧ (moment cfg events k).waiting < (moment cfg events (k + 1)).waiting

/-- While the acceptor is inside an iteration the slack only grows, by the threads that arrive. -/
theorem slack_inside {n m : ℕ} (hle : n ≤ m) (hstop : (moment cfg events m).stopping = false)
    (hinside : ∀ k, n ≤ k → k < m → (moment cfg events k).acceptor ≠ .polling) :
    (moment cfg events n).slack ≤ (moment cfg events m).slack ∧
      ((moment cfg events n).slack < (moment cfg events m).slack ↔ Arrives cfg events n m) ∧
      ((moment cfg events n).full → (moment cfg events m).full) := by
  induction m, hle using Nat.le_induction with
  | base =>
      refine ⟨le_rfl, iff_of_false (lt_irrefl _) ?_, id⟩
      rintro ⟨k, hn, hm, -⟩
      omega
  | succ m hle ih =>
      obtain ⟨hslack, harrives, hfull⟩ := ih (moment_stopping m.le_succ hstop) fun k hn hm => hinside k hn (by omega)
      have hmoves := moment_moves hstop
      have hstep := hmoves.stays fun h => hinside m hle m.lt_succ_self h.1
      refine ⟨?_, ?_, hmoves.full ∘ hfull⟩
      · rw [hstep]
        split_ifs <;> omega
      · constructor
        · intro hlt
          by_cases hnow : (moment cfg events m).waiting < (moment cfg events (m + 1)).waiting
          · exact ⟨m, hle, m.lt_succ_self, hnow⟩
          · rw [if_neg hnow] at hstep
            obtain ⟨k, hn, hm, hk⟩ := harrives.mp (by omega)
            exact ⟨k, hn, hm.trans m.lt_succ_self, hk⟩
        · rintro ⟨k, hn, hm, hk⟩
          rcases Nat.lt_succ_iff_lt_or_eq.mp hm with hlt | rfl
          · have hbefore := harrives.mpr ⟨k, hn, hlt, hk⟩
            rw [hstep]
            split_ifs <;> omega
          · rw [if_pos hk] at hstep
            omega

/-- Between the moments `n` and `m` the acceptor makes one iteration: it accepts a connection, notifies a thread and
ends its grow check. -/
structure Iteration (cfg : HttpServerConfig) (events : List PoolEvent) (n m : ℕ) : Prop where
  lt : n < m
  accepts : (moment cfg events n).acceptor = .polling
  inside : ∀ k, n < k → k < m → (moment cfg events k).acceptor ≠ .polling
  nonempty : n + 1 ≠ m
  ends : (moment cfg events m).acceptor = .polling

/-- The connection of an iteration takes one from the slack, and the threads that arrive give it back. -/
theorem Iteration.slack {n m : ℕ} (h : Iteration cfg events n m) (hstop : (moment cfg events m).stopping = false) :
    (moment cfg events n).slack ≤ (moment cfg events m).slack + 1 ∧
      ((moment cfg events n).slack < (moment cfg events m).slack + 1 ↔ Arrives cfg events (n + 1) m) ∧
      ((moment cfg events n).full → (moment cfg events m).full) := by
  have hlt : n + 1 < m := lt_of_le_of_ne h.lt h.nonempty
  obtain ⟨hslack, harrives, hfull⟩ := slack_inside hlt.le hstop fun k hn hm => h.inside k hn hm
  have hmoves := moment_moves (moment_stopping hlt.le hstop)
  have hleft := h.inside (n + 1) n.lt_succ_self hlt
  -- the event that leaves `polling` is the accept, which no thread comes with
  have hsame : (moment cfg events (n + 1)).waiting = (moment cfg events n).waiting := by
    rcases moment_succ cfg events n with hsame | ⟨ev, hev⟩
    · rw [hsame]
    · rw [hev] at hleft ⊢
      exact waiting_of_leaves h.accepts hleft
  have hstep := hmoves.leaves ⟨h.accepts, hleft⟩ hsame
  refine ⟨by omega, ?_, hfull ∘ hmoves.full⟩
  rw [← harrives]
  omega

end HttpServer

end DistributedJobEngine
