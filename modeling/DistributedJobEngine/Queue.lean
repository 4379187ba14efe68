import DistributedJobEngine.Job
import DistributedJobEngine.LibHeap
import Mathlib.Data.List.AList

/-! The bounded priority queue with delayed entries (`queue.hpp`, `queue.cpp`). Every operation runs
under the queue's one mutex, so each is a function on the state; the clock readings the source takes
with `now_ms` are arguments. -/

namespace DistributedJobEngine

structure QueueEntry where
  jobId : JobId
  priority : Int
  seq : Int
  readyAtMs : Int
  eligibleAtSteady : Int
  deriving DecidableEq, Repr

/-- `ReadyOrder`: "less" is popped later. -/
def readyOrder (a b : QueueEntry) : Bool :=
  if a.priority ≠ b.priority then decide (a.priority < b.priority) else decide (b.seq < a.seq)

/-- `DelayedOrder`: the entry that matures first is on top. -/
def delayedOrder (a b : QueueEntry) : Bool :=
  if a.readyAtMs ≠ b.readyAtMs then decide (b.readyAtMs < a.readyAtMs)
  else if a.priority ≠ b.priority then decide (a.priority < b.priority)
  else decide (b.seq < a.seq)

theorem readyOrder_comparator : LibHeap.Comparator readyOrder := by
  constructor
  · intro a b h
    unfold readyOrder at *
    split_ifs at * <;> simp_all <;> omega
  · intro a b c hab hbc
    unfold readyOrder at *
    split_ifs at * <;> simp_all <;> omega

theorem delayedOrder_comparator : LibHeap.Comparator delayedOrder := by
  constructor
  · intro a b h
    unfold delayedOrder at *
    split_ifs at * <;> simp_all <;> omega
  · intro a b c hab hbc
    unfold delayedOrder at *
    split_ifs at * <;> simp_all <;> omega

/-- Where the live entry of a job is: its seq, and whether the delayed heap holds it. -/
structure Loc where
  seq : Int
  delayed : Bool
  deriving DecidableEq, Repr

inductive PushStatus where
  | ok
  | full
  | closed
  deriving DecidableEq, Repr

structure PriorityJobQueue where
  ready : List QueueEntry := []
  delayed : List QueueEntry := []
  index : AList (fun _ : JobId => Loc) := ∅
  tombstones : Finset Int := ∅
  capacity : ℕ
  liveReady : ℕ := 0
  liveDelayed : ℕ := 0
  nextSeq : Int := 1
  pushed : Int := 0
  popped : Int := 0
  closed : Bool := false

namespace PriorityJobQueue

def liveCountLocked (q : PriorityJobQueue) : ℕ := q.liveReady + q.liveDelayed

def size (q : PriorityJobQueue) : ℕ := q.liveReady + q.liveDelayed

/-- The part `push` and `remove` share: the entry at `loc` becomes a tombstone, its heap loses one
live entry and the job leaves the index. -/
def bury (q : PriorityJobQueue) (jobId : JobId) (loc : Loc) : PriorityJobQueue :=
  { q with
    tombstones := insert loc.seq q.tombstones
    liveDelayed := if loc.delayed then q.liveDelayed - 1 else q.liveDelayed
    liveReady := if loc.delayed then q.liveReady else q.liveReady - 1
    index := q.index.erase jobId }

/-- The entry `push` makes at clock reading `now`. -/
def freshEntry (q : PriorityJobQueue) (now : Int) (jobId : JobId) (priority readyAtMs : Int) :
    QueueEntry where
  jobId := jobId
  priority := priority
  seq := q.nextSeq
  readyAtMs := readyAtMs
  eligibleAtSteady := if now < readyAtMs then readyAtMs else now

/-- The second half of `push`: a fresh entry goes into the heap its ready time asks for. -/
def file (q : PriorityJobQueue) (now : Int) (jobId : JobId) (priority readyAtMs : Int) :
    PriorityJobQueue :=
  let e := q.freshEntry now jobId priority readyAtMs
  let q := { q with
    nextSeq := q.nextSeq + 1
    pushed := q.pushed + 1
    index := q.index.insert jobId ⟨e.seq, decide (now < readyAtMs)⟩ }
  if now < readyAtMs then
    { q with delayed := LibHeap.push delayedOrder q.delayed e, liveDelayed := q.liveDelayed + 1 }
  else
    { q with ready := LibHeap.push readyOrder q.ready e, liveReady := q.liveReady + 1 }

/-- The first half of `push`: an entry the job already has is replaced, never doubled. -/
def evict (q : PriorityJobQueue) (jobId : JobId) : PriorityJobQueue :=
  match q.index.lookup jobId with
  | some loc => q.bury jobId loc
  | none => q

def push (q : PriorityJobQueue) (now : Int) (jobId : JobId) (priority readyAtMs : Int) :
    PushStatus × PriorityJobQueue :=
  if q.closed then (.closed, q)
  else if q.capacity ≤ q.liveCountLocked then (.full, q)
  else (.ok, (q.evict jobId).file now jobId priority readyAtMs)

/-- A matured entry that is not a tombstone moves to the ready heap. -/
def promoteEntry (q : PriorityJobQueue) (e : QueueEntry) : PriorityJobQueue :=
  { q with
    liveDelayed := q.liveDelayed - 1
    liveReady := q.liveReady + 1
    index := match q.index.lookup e.jobId with
      | some loc => if loc.seq = e.seq then q.index.insert e.jobId ⟨loc.seq, false⟩ else q.index
      | none => q.index
    ready := LibHeap.push readyOrder q.ready e }

/-- The loop of `promote_matured_locked`, over the delayed heap in the order its top is taken. -/
def promoteLoop (now : Int) : List QueueEntry → PriorityJobQueue → PriorityJobQueue
  | [], q => { q with delayed := [] }
  | e :: rest, q =>
      if e.readyAtMs ≤ now then
        if e.seq ∈ q.tombstones then
          promoteLoop now rest { q with delayed := rest, tombstones := q.tombstones.erase e.seq }
        else promoteLoop now rest ({ q with delayed := rest }.promoteEntry e)
      else { q with delayed := e :: rest }

def promoteMaturedLocked (q : PriorityJobQueue) (now : Int) : PriorityJobQueue :=
  promoteLoop now q.delayed q

/-- The top of the ready heap, known to be live, leaves the queue. -/
def takeEntry (q : PriorityJobQueue) (e : QueueEntry) : PriorityJobQueue :=
  { q with
    liveReady := q.liveReady - 1
    index := match q.index.lookup e.jobId with
      | some loc => if loc.seq = e.seq then q.index.erase e.jobId else q.index
      | none => q.index
    popped := q.popped + 1 }

/-- The loop of `take_ready_locked`. -/
def takeLoop : List QueueEntry → PriorityJobQueue → Option QueueEntry × PriorityJobQueue
  | [], q => (none, { q with ready := [] })
  | e :: rest, q =>
      if e.seq ∈ q.tombstones then
        takeLoop rest { q with ready := rest, tombstones := q.tombstones.erase e.seq }
      else (some e, { q with ready := rest }.takeEntry e)

def takeReadyLocked (q : PriorityJobQueue) : Option QueueEntry × PriorityJobQueue :=
  takeLoop q.ready q

/-- One iteration of the loop of `pop` and of `pop_for`. -/
def poll (q : PriorityJobQueue) (now : Int) : Option QueueEntry × PriorityJobQueue :=
  (q.promoteMaturedLocked now).takeReadyLocked

/-- `pop_for` run without interference: one poll for each clock reading its loop takes. It gives up
when the queue is closed or the deadline has passed. -/
def popLoop (deadline : Option Int) : List Int → PriorityJobQueue → Option QueueEntry × PriorityJobQueue
  | [], q => (none, q)
  | now :: later, q =>
      match q.poll now with
      | (some e, q') => (some e, q')
      | (none, q') =>
          if q'.closed = true ∨ ∃ d ∈ deadline, d ≤ now then (none, q') else popLoop deadline later q'

def pop (q : PriorityJobQueue) (readings : List Int) : Option QueueEntry × PriorityJobQueue :=
  popLoop none readings q

/-- `start` is the reading that fixes the deadline, `readings` those of the loop. -/
def popFor (q : PriorityJobQueue) (timeoutMs start : Int) (readings : List Int) :
    Option QueueEntry × PriorityJobQueue :=
  popLoop (some (start + max 0 timeoutMs)) readings q

/-- The loop that fills the rest of a batch, at most `n` entries. -/
def drainLoop : ℕ → PriorityJobQueue → List QueueEntry × PriorityJobQueue
  | 0, q => ([], q)
  | n + 1, q =>
      match q.takeReadyLocked with
      | (none, q') => ([], q')
      | (some e, q') => (e :: (drainLoop n q').1, (drainLoop n q').2)

/-- `pop_batch` gives up the mutex between its first entry and the rest, and reads the clock again:
`now` is that second reading. -/
def popBatch (q : PriorityJobQueue) (maxItems : ℕ) (waitMs start : Int) (readings : List Int)
    (now : Int) : List QueueEntry × PriorityJobQueue :=
  if maxItems = 0 then ([], q)
  else match q.popFor waitMs start readings with
    | (none, q') => ([], q')
    | (some first, q') =>
        let rest := drainLoop (maxItems - 1) (q'.promoteMaturedLocked now)
        (first :: rest.1, rest.2)

def remove (q : PriorityJobQueue) (jobId : JobId) : Bool × PriorityJobQueue :=
  match q.index.lookup jobId with
  | none => (false, q)
  | some loc => (true, q.bury jobId loc)

def close (q : PriorityJobQueue) : PriorityJobQueue := { q with closed := true }

end PriorityJobQueue

end DistributedJobEngine
