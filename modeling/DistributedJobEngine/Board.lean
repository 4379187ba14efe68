import DistributedJobEngine.Database
import Mathlib.Data.Multiset.AddSub
import Mathlib.Data.Finset.Card

/-! The life of jobs as a board of rows and a multiset of dues. The board is what the operations share:
rows, leases, dependency counters, the queue, admission and completion counters. A due is what a running
operation has read or still owes: a window between the read of a row and the write of the whole row, a
child that was counted down to zero, a slot that is not released yet. A `Move` is everything one step of
one operation can do to the board and to its dues. -/

namespace DistributedJobEngine

/-- The columns of a row that decide what may happen to its job. -/
@[ext] structure Stub where
  state : JobState
  workflowId : WorkflowId
  deps : Int
  attempt : Int
  token : UInt64
  deriving DecidableEq

/-- What an operation that finishes an attempt keeps of the row it writes back. -/
def Stub.base (s : Stub) : Stub := { s with state := .running, attempt := 0, token := 0 }

def Job.stub (j : Job) : Stub := ⟨j.state, j.workflowId, j.pendingDeps, j.attempt, j.leaseToken⟩

/-- The operations that read a row and write it back later. -/
inductive Window where
  | cancel | start | finish | expire | release | skip
  deriving DecidableEq

inductive Due where
  /-- The row of `jobId` was read as `copy` and will be written. -/
  | window (k : Window) (jobId : JobId) (copy : Stub)
  /-- A result for `jobId` was accepted; its row is to be read. -/
  | seek (jobId : JobId)
  /-- An attempt of `jobId` is to be finished from `copy`. -/
  | copy (jobId : JobId) (copy : Stub)
  /-- `parent` succeeded and its children have not been counted down. -/
  | unreleased (parent : JobId)
  /-- The counter of `child` reached zero. -/
  | ready (child : JobId)
  /-- `parent` did not succeed and its children are to be skipped. -/
  | expand (parent : JobId) (workflowId : WorkflowId)
  | doomed (child : JobId) (workflowId : WorkflowId)
  /-- `child` was met by the walk that skips descendants. -/
  | closed (child : JobId)
  | metric (jobId : JobId)
  | callback (jobId : JobId)
  | slot (jobId : JobId)
  | unit (jobId : JobId) (workflowId : WorkflowId) (failed : Bool)
  /-- The entry of `jobId` was taken from the queue. -/
  | held (jobId : JobId)
  /-- `jobId` is to be put on the queue. -/
  | requeue (jobId : JobId)
  /-- The record of a workflow was read as running and is to be marked as cancelled. -/
  | relabel (workflowId : WorkflowId)
  | cancelling (workflowId : WorkflowId)
  /-- All nodes of a workflow are accounted for. -/
  | verdict (workflowId : WorkflowId) (failed : Bool)
  deriving DecidableEq

namespace Due

/-- A window on the row of `j`. -/
def onRow (j : JobId) : Due → Bool
  | window _ i _ => i = j
  | _ => false

def isWindow : Due → Bool
  | window _ _ _ => true
  | _ => false

theorem onRow_of_not_isWindow {x : Due} (h : x.isWindow = false) (j : JobId) : x.onRow j = false := by
  cases x <;> first | rfl | cases h

/-- The windows that `run_mutex_` covers from the read to the write. -/
def locked : Due → Bool
  | window .cancel _ _ | window .start _ _ | window .expire _ _ => true
  | _ => false

/-- The windows that end an attempt of `j`. -/
def finishing (j : JobId) : Due → Bool
  | window .finish i _ | window .expire i _ => i = j
  | _ => false

/-- The dues that will take `c` out of `PENDING`. -/
def releasing (c : JobId) : Due → Bool
  | ready i | window .release i _ => i = c
  | _ => false

/-- Neither a window nor about to become one. -/
def plain : Due → Bool
  | window _ _ _ | ready _ => false
  | _ => true

theorem locked_of_plain {x : Due} (h : x.plain = true) : x.locked = false := by
  cases x <;> first | rfl | cases h

theorem finishing_of_plain {x : Due} (h : x.plain = true) (j : JobId) : x.finishing j = false := by
  cases x <;> first | rfl | cases h

theorem releasing_of_plain {x : Due} (h : x.plain = true) (c : JobId) : x.releasing c = false := by
  cases x <;> first | rfl | cases h

/-- A count over dues none of which is of the kind counted. -/
theorem countP_eq_zero_of_forall {f : Due → Bool} {d : Multiset Due} (h : ∀ x ∈ d, f x = false) :
    d.countP (fun x => f x = true) = 0 :=
  Multiset.countP_eq_zero.mpr fun x hx => by simp [h x hx]

theorem countP_singleton (f : Due → Bool) (x : Due) :
    ({x} : Multiset Due).countP (fun y => f y = true) = (f x).toNat := by
  rw [← Multiset.cons_zero, Multiset.countP_cons, Multiset.countP_zero, zero_add]
  cases f x <;> rfl

theorem countP_pair (f : Due → Bool) (x y : Due) :
    ({x, y} : Multiset Due).countP (fun z => f z = true) = (f x).toNat + (f y).toNat := by
  rw [Multiset.insert_eq_cons, Multiset.countP_cons, countP_singleton, add_comm]
  cases f x <;> rfl

def unitOf (j : JobId) : Due → Bool
  | unit i _ _ => i = j
  | _ => false

/-- The dues of a job that ended. -/
def accounting : Due → Bool
  | metric _ | callback _ | slot _ | unit _ _ _ => true
  | _ => false

end Due

@[ext] structure Board where
  ids : Finset JobId
  row : JobId → Option Stub
  deps : Finset (JobId × JobId)
  children : JobId → List JobId
  pending : JobId → Int
  lease : JobId → Option (UInt64 × Int)
  live : Finset JobId
  outstanding : ℕ
  remaining : WorkflowId → Option Int
  failures : WorkflowId → Int
  tally : ℕ
  slots : Multiset JobId
  callbacks : Multiset JobId
  counted : Multiset JobId
  units : Multiset JobId
  record : WorkflowId → Option WorkflowState
  cancelled : Multiset WorkflowId

namespace Board

/-- The whole row of `j` is written; a row that is not there stays absent. -/
def write (b : Board) (j : JobId) (s : Stub) : Board :=
  { b with row := Function.update b.row j ((b.row j).map fun _ => s) }

/-- The row of `j` is written and `j` is leased to the attempt the row names. -/
def grant (b : Board) (j : JobId) (s : Stub) : Board :=
  { b with row := (b.write j s).row, lease := Function.update b.lease j (some (s.token, s.attempt)) }

def unlease (b : Board) (j : JobId) : Board := { b with lease := Function.update b.lease j none }

/-- The counters after the children of `p` were counted down. -/
def countedDown (b : Board) (p : JobId) (c : JobId) : Int :=
  if c ∈ b.children p ∧ 0 < b.pending c then b.pending c - 1 else b.pending c

/-- The children of `p` whose counter reaches zero when `p` is released. -/
def newlyReady (b : Board) (p : JobId) : List JobId := (b.children p).filter fun c => b.pending c = 1

/-- The failures of `w` after `n` more of its nodes are accounted for. -/
def addFailures (b : Board) (w : WorkflowId) (failed : Bool) (n : ℕ) : WorkflowId → Int :=
  if failed then Function.update b.failures w (b.failures w + n) else b.failures

end Board

/-- What an operation owes once it has written the terminal row `s` of `j`. -/
def Stub.endDues (j : JobId) (s : Stub) : Multiset Due :=
  {.metric j, .callback j, .slot j} +
    if s.workflowId = "" then 0
    else if s.state = .succeeded then {.unit j s.workflowId false, .unreleased j}
    else {.unit j s.workflowId true, .expand j s.workflowId}

namespace Window

/-- The entry that an operation of this kind holds besides its window, once it is about to write. -/
def entry (k : Window) (j : JobId) (copy : Stub) : Multiset Due :=
  match k with
  | start => {.held j}
  | cancel => if copy.state.isWaiting then {.held j} else 0
  | _ => 0

/-- The terminal states an operation of this kind writes over the row it read as `copy`. -/
def Ends (k : Window) (copy : Stub) (s : JobState) : Prop :=
  match k with
  | cancel => copy.state ≠ .running ∧ s = .cancelled
  | start => s = .cancelled
  | finish => s.isTerminal = true ∧ s ≠ .skipped
  | expire => s = .failed
  | _ => False

end Window

open Due Window in
/-- Everything one step can do: the dues it takes over, the board after it and the dues it leaves. -/
inductive Move (b : Board) : Multiset Due → Board → Multiset Due → Prop
  | idle {d : Multiset Due} : Move b d b d
  -- reads
  | openCancel {j : JobId} {r : Stub} (hrow : b.row j = some r) (hopen : r.state.isTerminal = false) :
      Move b 0 b {window cancel j r}
  | openStart {j : JobId} {r : Stub} (hrow : b.row j = some r) (hwait : r.state.isWaiting = true) :
      Move b {held j} b {window start j r, held j}
  | dropStart {j : JobId} (hrow : ∀ r, b.row j = some r → r.state.isWaiting = false) : Move b {held j} b 0
  | openRelease {c : JobId} {r : Stub} (hrow : b.row c = some r) (hpend : r.state = .pending) :
      Move b {ready c} b {window release c r}
  | dropReady {c : JobId} (hrow : ∀ r, b.row c = some r → r.state ≠ .pending) : Move b {ready c} b 0
  | openSkip {c : JobId} {w : WorkflowId} {r : Stub} (hrow : b.row c = some r)
      (hopen : r.state.isTerminal = false) :
      Move b {doomed c w} b {doomed c w, window skip c r, closed c}
  | passSkip {c : JobId} {w : WorkflowId} {r : Stub} (hrow : b.row c = some r)
      (hend : r.state.isTerminal = true) : Move b {doomed c w} b {expand c w, closed c}
  | missSkip {c : JobId} {w : WorkflowId} (hrow : b.row c = none) : Move b {doomed c w} b {closed c}
  | seenSkip {c : JobId} {w : WorkflowId} : Move b {doomed c w, closed c} b {closed c}
  | endSkip {seen : List JobId} : Move b (seen.map closed : List Due) b 0
  | accept {j : JobId} (hlease : (b.lease j).isSome) : Move b 0 b {seek j}
  | readCopy {j : JobId} {r : Stub} (hrow : b.row j = some r) : Move b {seek j} b {copy j r.base}
  | dropSeek {j : JobId} : Move b {seek j} b 0
  | dropCopy {j : JobId} {s : Stub} : Move b {copy j s} b 0
  -- leases
  | fence {j : JobId} {s : Stub} (hlease : (b.lease j).isSome) :
      Move b {copy j s} (b.unlease j) {window finish j s}
  | openExpire {j : JobId} {r : Stub} (hlease : (b.lease j).isSome) (hrow : b.row j = some r)
      (hrun : r.state = .running) : Move b 0 (b.unlease j) {window expire j r}
  | dropLease {j : JobId} (hlease : (b.lease j).isSome) (hrow : ∀ r, b.row j = some r → r.state ≠ .running) :
      Move b 0 (b.unlease j) 0
  -- writes
  | flag {j : JobId} {r : Stub} (hrun : r.state = .running) : Move b {window cancel j r} (b.write j r) 0
  | launch {j : JobId} {r s : Stub} {d' : Multiset Due} (hstate : s.state = .running)
      (hwf : s.workflowId = r.workflowId) (hdeps : s.deps = r.deps) (hd' : d' = 0 ∨ d' = {copy j s.base}) :
      Move b {window start j r, held j} (b.grant j s) d'
  | retry {j : JobId} {r s : Stub} (hstate : s.state = .retrying) (hwf : s.workflowId = r.workflowId)
      (hdeps : s.deps = r.deps) : Move b {window finish j r} (b.write j s) {requeue j}
  | reassign {j : JobId} {r s : Stub} (hstate : s.state = .queued) (hwf : s.workflowId = r.workflowId)
      (hdeps : s.deps = r.deps) : Move b {window expire j r} (b.write j s) {requeue j}
  | release {c : JobId} {r s : Stub} (hstate : s.state = .queued ∨ s.state = .scheduled)
      (hwf : s.workflowId = r.workflowId) (hdeps : s.deps = 0) :
      Move b {window release c r} (b.write c s) {requeue c}
  | conclude {k : Window} {j : JobId} {r s : Stub} (hends : k.Ends r s.state)
      (hwf : s.workflowId = r.workflowId) :
      Move b ({window k j r} + k.entry j r) (b.write j s) (s.endDues j)
  | skip {c : JobId} {w : WorkflowId} {r s : Stub} (hstate : s.state = .skipped)
      (hwf : s.workflowId = r.workflowId) :
      Move b {window skip c r, doomed c w} (b.write c s)
        {metric c, callback c, slot c, unit c w true, expand c w}
  -- the graph
  | countDown {p : JobId} :
      Move b {unreleased p} { b with pending := b.countedDown p } ((b.newlyReady p).map ready : List Due)
  | expand {p : JobId} {w : WorkflowId} :
      Move b {expand p w} b ((b.children p).map (doomed · w) : List Due)
  -- accounting
  | metric {js : List JobId} :
      Move b (js.map metric : List Due) { b with counted := b.counted + js, tally := b.tally + js.length } 0
  | callback {j : JobId} : Move b {callback j} { b with callbacks := b.callbacks + {j} } 0
  | slot {j : JobId} :
      Move b {slot j} { b with
        slots := b.slots + {j}
        outstanding := if b.outstanding = 0 then 2 ^ 64 - 1 else b.outstanding - 1 } 0
  | account {js : List JobId} {w : WorkflowId} {failed : Bool} {r : Int} (hjs : js ≠ [])
      (hrem : b.remaining w = some r) (hmore : 0 < r - js.length) :
      Move b (js.map (unit · w failed) : List Due) { b with
        units := b.units + js
        remaining := Function.update b.remaining w (some (r - js.length))
        failures := b.addFailures w failed js.length } 0
  | accountLast {js : List JobId} {w : WorkflowId} {failed : Bool} {r : Int} (hjs : js ≠ [])
      (hrem : b.remaining w = some r) (hlast : r - js.length ≤ 0) :
      Move b (js.map (unit · w failed) : List Due) { b with
        units := b.units + js
        remaining := Function.update b.remaining w none
        failures := Function.update (b.addFailures w failed js.length) w 0 }
        {verdict w (decide (0 < b.addFailures w failed js.length w))}
  | accountLate {js : List JobId} {w : WorkflowId} {failed : Bool} (hjs : js ≠ []) (hrem : b.remaining w = none) :
      Move b (js.map (unit · w failed) : List Due) { b with failures := b.addFailures w failed js.length } 0
  -- the queue
  | unqueue {k : Window} {j : JobId} {r : Stub} (hk : k = cancel ∨ k = skip) :
      Move b {window k j r} { b with live := b.live.erase j } ({window k j r} + k.entry j r)
  | pop {js : List JobId} (hjs : js.Nodup) (hlive : ∀ j ∈ js, j ∈ b.live) :
      Move b 0 { b with live := b.live \ js.toFinset } (js.map held : List Due)
  | push {j : JobId} : Move b {requeue j} { b with live := insert j b.live } 0
  | pushRefused {j : JobId} : Move b {requeue j} b 0
  -- workflow records
  | openRelabel {w : WorkflowId} (hrec : b.record w = some .running) : Move b 0 b {relabel w}
  | relabel {w : WorkflowId} :
      Move b {relabel w} { b with record := Function.update b.record w ((b.record w).map fun _ => .cancelled) }
        {cancelling w}
  | cancelled {w : WorkflowId} :
      Move b {cancelling w} { b with cancelled := b.cancelled + {w} } 0
  | dropVerdict {w : WorkflowId} {failed : Bool} (hrec : w = "" ∨ b.record w ≠ some .running) :
      Move b {verdict w failed} b 0
  | label {w : WorkflowId} {failed : Bool} :
      Move b {verdict w failed} { b with
        record := Function.update b.record w
          ((b.record w).map fun _ => if failed then .failed else .succeeded) } 0

end DistributedJobEngine
