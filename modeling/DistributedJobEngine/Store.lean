import DistributedJobEngine.Database
import Mathlib.Data.List.AList

/-! The group-commit store: writes are buffered and cached, and a flusher thread takes a bounded prefix of
each buffer, commits it as one transaction and retires what it committed from the cache. Every function
here is one block that the source runs under `wb_mutex_` or `writer_mutex_`, or the end of a wait. -/

namespace DistributedJobEngine

structure StoreConfig where
  maxBatch : ℕ := 1024
  maxBufferedRows : ℕ := 20000

/-- A row tagged with the version at which it was queued; `insertSeq` is non-zero for inserts only. -/
structure VersionedJob where
  version : ℕ
  insertSeq : ℕ := 0
  job : Job

/-- What the flusher writes in one transaction. -/
structure Batch where
  inserts : List VersionedJob := []
  updates : List VersionedJob := []
  attempts : List AttemptRecord := []

namespace Batch

/-- The watermark: the sequence number of the last insert taken. -/
def insertSeq (b : Batch) : ℕ := (b.inserts.getLast?.map (·.insertSeq)).getD 0

def size (b : Batch) : ℕ := b.inserts.length + b.updates.length + b.attempts.length

/-- A watermark above anything is the sequence number of an insert of the batch. -/
theorem insertSeq_mem (b : Batch) {n : ℕ} (h : n < b.insertSeq) : ∃ v ∈ b.inserts, v.insertSeq = b.insertSeq := by
  unfold insertSeq at h ⊢
  cases hlast : b.inserts.getLast? with
  | none =>
      rw [hlast] at h
      exact absurd h (Nat.not_lt_zero _)
  | some v => exact ⟨v, List.mem_of_getLast? hlast, rfl⟩

/-- Inserts are taken in arrival order, so the watermark is the largest sequence number. -/
theorem le_insertSeq (b : Batch) (hsorted : b.inserts.Pairwise fun v w => v.insertSeq ≤ w.insertSeq)
    {v : VersionedJob} (hv : v ∈ b.inserts) : v.insertSeq ≤ b.insertSeq := by
  have hne : b.inserts ≠ [] := List.ne_nil_of_mem hv
  unfold insertSeq
  rw [List.getLast?_eq_getLast_of_ne_nil hne, Option.map_some, Option.getD_some]
  rw [← List.dropLast_append_getLast hne] at hsorted hv
  rcases List.mem_append.mp hv with hv | hv
  · exact (List.pairwise_append.mp hsorted).2.2 v hv _ List.mem_cons_self
  · rw [List.mem_singleton.mp hv]

end Batch

/-- Inserts come first: a batch can hold a row's insert and a later update of it. -/
def Database.commitBatch (db : Database) (b : Batch) : Except String Database := do
  let db ← db.insertJobs (b.inserts.map (·.job))
  return b.attempts.foldl Database.appendAttempt ((b.updates.map (·.job)).foldl Database.updateJob db)

/-- An error SQLite reports on its own account; its message is not empty. -/
structure SqlError where
  message : String
  nonempty : message ≠ ""

/-- Where the flusher thread stands between two of its critical sections. -/
inductive FlusherPhase where
  | waiting
  | taken (b : Batch)
  | committed (b : Batch) (error : Option String)

namespace FlusherPhase

/-- The batch between its take and its retirement. -/
def flying : FlusherPhase → Batch
  | waiting => {}
  | taken b => b
  | committed b _ => b

/-- The batch between its take and its commit. -/
def uncommitted : FlusherPhase → Batch
  | taken b => b
  | _ => {}

end FlusherPhase

structure JobStore where
  cfg : StoreConfig := {}
  db : Database := {}
  pendingInserts : List VersionedJob := []
  pendingUpdates : List VersionedJob := []
  pendingAttempts : List AttemptRecord := []
  cache : AList (fun _ : JobId => VersionedJob) := ∅
  versionCounter : ℕ := 0
  insertSeq : ℕ := 0
  committedInsertSeq : ℕ := 0
  inFlight : ℕ := 0
  lastFlushError : String := ""
  flusher : FlusherPhase := .waiting
  batchesCommitted : ℕ := 0
  writesCommitted : ℕ := 0

namespace JobStore

def buffered (s : JobStore) : ℕ :=
  s.pendingInserts.length + s.pendingUpdates.length + s.pendingAttempts.length

def hasPendingLocked (s : JobStore) : Bool :=
  !s.pendingInserts.isEmpty || !s.pendingUpdates.isEmpty || !s.pendingAttempts.isEmpty

/-- The first critical section of the flusher. -/
def take (s : JobStore) : JobStore :=
  let b : Batch :=
    { inserts := s.pendingInserts.take s.cfg.maxBatch
      updates := s.pendingUpdates.take s.cfg.maxBatch
      attempts := s.pendingAttempts.take s.cfg.maxBatch }
  { s with
    pendingInserts := s.pendingInserts.drop s.cfg.maxBatch
    pendingUpdates := s.pendingUpdates.drop s.cfg.maxBatch
    pendingAttempts := s.pendingAttempts.drop s.cfg.maxBatch
    inFlight := b.size
    flusher := .taken b }

/-- The transaction. A fault is an error of SQLite itself; either way a failed transaction is rolled
back. -/
def commit (s : JobStore) (fault : Option SqlError) (b : Batch) : JobStore :=
  match fault with
  | some e => { s with flusher := .committed b (some e.message) }
  | none =>
      match s.db.commitBatch b with
      | .ok db => { s with db, flusher := .committed b none }
      | .error e => { s with flusher := .committed b (some e) }

/-- A cache entry goes only while the version just written is still the newest one. -/
def retireRow (cache : AList (fun _ : JobId => VersionedJob)) (v : VersionedJob) :
    AList (fun _ : JobId => VersionedJob) :=
  match cache.lookup v.job.jobId with
  | some newest => if newest.version = v.version then cache.erase v.job.jobId else cache
  | none => cache

/-- The second critical section of the flusher. -/
def retire (s : JobStore) (b : Batch) (error : Option String) : JobStore :=
  { s with
    cache := b.updates.foldl retireRow (b.inserts.foldl retireRow s.cache)
    inFlight := 0
    lastFlushError := error.getD s.lastFlushError
    committedInsertSeq :=
      if s.committedInsertSeq < b.insertSeq then b.insertSeq else s.committedInsertSeq
    batchesCommitted := s.batchesCommitted + 1
    writesCommitted := s.writesCommitted + b.size
    flusher := .waiting }

/-- One step of `flusher_loop`. -/
def flusherStep (s : JobStore) (fault : Option SqlError) : JobStore :=
  match s.flusher with
  | .waiting => if s.hasPendingLocked then s.take else s
  | .taken b => s.commit fault b
  | .committed b error => s.retire b error

/-- `n` steps of a flusher none of whose transactions meets a fault. -/
def flusherSteps (s : JobStore) (n : ℕ) : JobStore := (fun s => flusherStep s none)^[n] s

/-- The row `insert_jobs` queues for `job`. -/
def enqueueInsert (s : JobStore) (job : Job) : JobStore :=
  let v : VersionedJob := { version := s.versionCounter + 1, insertSeq := s.insertSeq, job }
  { s with
    versionCounter := s.versionCounter + 1
    pendingInserts := s.pendingInserts ++ [v]
    cache := s.cache.insert job.jobId v }

/-- The critical section of `insert_jobs` before its wait. -/
def enqueueInserts (s : JobStore) (jobs : List Job) : JobStore :=
  jobs.foldl enqueueInsert { s with insertSeq := s.insertSeq + 1 }

/-- The wait of `insert_jobs` for the call with sequence number `seq` is over. -/
def insertReturns (s : JobStore) (seq : ℕ) : Bool := decide (seq ≤ s.committedInsertSeq)

/-- What `insert_jobs` returns after its wait. -/
def insertVerdict (s : JobStore) : Bool := decide (s.lastFlushError = "")

/-- The last part of `update_job`, after it has waited for the buffer to shrink. -/
def bufferUpdate (s : JobStore) (job : Job) : JobStore :=
  let v : VersionedJob := { version := s.versionCounter + 1, job }
  { s with
    versionCounter := s.versionCounter + 1
    pendingUpdates := s.pendingUpdates ++ [v]
    cache := s.cache.insert job.jobId v }

/-- `update_job` has to wait, for at most 50 ms. -/
def overHighWater (s : JobStore) : Bool :=
  decide (0 < s.cfg.maxBufferedRows ∧ s.cfg.maxBufferedRows ≤ s.buffered)

def appendAttempt (s : JobStore) (rec : AttemptRecord) : JobStore :=
  { s with pendingAttempts := s.pendingAttempts ++ [rec], versionCounter := s.versionCounter + 1 }

/-- The condition on which `flush` returns. -/
def flushed (s : JobStore) : Bool := !s.hasPendingLocked && decide (s.inFlight = 0)

end JobStore

end DistributedJobEngine
