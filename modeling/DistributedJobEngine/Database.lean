import DistributedJobEngine.Job
import DistributedJobEngine.LibTable
import Mathlib.Data.List.Sort

/-! The tables of the metadata store and the statements `JobStore` runs against them on one connection.
The queries read the committed tables. -/

namespace DistributedJobEngine

open LibTable

structure AttemptRecord where
  jobId : JobId
  attempt : Int := 0
  status : String := ""
  startedMs : Int := 0
  finishedMs : Int := 0
  durationMs : Int := 0
  worker : String := ""
  error : String := ""
  deriving DecidableEq, Repr

inductive WorkflowState where
  | running | succeeded | failed | cancelled
  deriving DecidableEq, Repr

structure WorkflowRecord where
  workflowId : WorkflowId
  name : String := ""
  state : WorkflowState := .running
  createdAtMs : Int := 0
  finishedAtMs : Int := 0
  nodeCount : ℕ := 0
  deriving DecidableEq, Repr

/-- A row of `job_dependencies`; all three columns are the key. -/
structure Dependency where
  workflowId : WorkflowId
  parent : JobId
  child : JobId
  deriving DecidableEq, Repr

/-- `(job_id, attempt)` is the primary key of `job_attempts`. -/
def AttemptRecord.key (a : AttemptRecord) : JobId × Int := (a.jobId, a.attempt)

structure Database where
  jobs : Table Job.jobId := .empty
  attempts : Table AttemptRecord.key := .empty
  workflows : Table WorkflowRecord.workflowId := .empty
  dependencies : Table (id : Dependency → Dependency) := .empty

namespace Database

def writeJobRow (db : Database) (job : Job) (insert : Bool) : Except String Database :=
  if insert then
    match db.jobs.insert job.persisted with
    | some jobs => .ok { db with jobs }
    | none => .error "job write failed: UNIQUE constraint failed: jobs.job_id"
  else .ok { db with jobs := db.jobs.update job.persisted }

/-- One transaction: the rows of a call are inserted together or not at all. -/
def insertJobs (db : Database) (jobs : List Job) : Except String Database :=
  jobs.foldlM (fun db job => db.writeJobRow job true) db

def updateJob (db : Database) (job : Job) : Database := { db with jobs := db.jobs.update job.persisted }

def appendAttempt (db : Database) (rec : AttemptRecord) : Database :=
  { db with attempts := db.attempts.upsert rec }

def getJob (db : Database) (jobId : JobId) : Option Job := db.jobs.lookup jobId

/-- `LIMIT limit OFFSET offset`: a negative limit is no limit, a negative offset is none. -/
def page {α : Type} (limit offset : Int) (rows : List α) : List α :=
  let rest := rows.drop offset.toNat
  if limit < 0 then rest else rest.take limit.toNat

/-- `ORDER BY created_at_ms DESC, job_id DESC`. -/
def newestFirst (a b : Job) : Prop :=
  b.createdAtMs < a.createdAtMs ∨ (a.createdAtMs = b.createdAtMs ∧ b.jobId ≤ a.jobId)

instance : DecidableRel newestFirst := fun a b => by
  unfold newestFirst
  infer_instance

/-- `ORDER BY priority DESC, seq ASC`. -/
def recoveryOrder (a b : Job) : Prop :=
  b.priority < a.priority ∨ (a.priority = b.priority ∧ a.seq ≤ b.seq)

instance : DecidableRel recoveryOrder := fun a b => by
  unfold recoveryOrder
  infer_instance

def inState (state : Option JobState) (j : Job) : Bool :=
  match state with
  | none => true
  | some s => decide (j.state = s)

def listJobs (db : Database) (state : Option JobState) (limit offset : Int) : List Job :=
  page limit offset ((db.jobs.rows.filter (inState state)).insertionSort newestFirst)

def loadNonTerminalJobs (db : Database) : List Job :=
  (db.jobs.rows.filter fun j => !j.state.isTerminal).insertionSort recoveryOrder

def countJobs (db : Database) (state : Option JobState) : ℕ := (db.jobs.rows.filter (inState state)).length

def listAttempts (db : Database) (jobId : JobId) : List AttemptRecord :=
  (db.attempts.rows.filter fun a => decide (a.jobId = jobId)).insertionSort fun a b => a.attempt ≤ b.attempt

def listWorkflowJobs (db : Database) (workflowId : WorkflowId) : List Job :=
  (db.jobs.rows.filter fun j => decide (j.workflowId = workflowId)).insertionSort fun a b => a.seq ≤ b.seq

/-- The workflow, its nodes and its edges in one transaction. -/
def insertWorkflow (db : Database) (wf : WorkflowRecord) (nodes : List Job) (edges : List (JobId × JobId)) :
    Except String Database :=
  match db.workflows.insert wf with
  | none => .error "workflow insert failed: UNIQUE constraint failed: workflows.workflow_id"
  | some workflows => do
      let db ← insertJobs { db with workflows } nodes
      edges.foldlM (fun db e =>
        match db.dependencies.insert ⟨wf.workflowId, e.1, e.2⟩ with
        | none => .error ("dependency insert failed: UNIQUE constraint failed: " ++
            "job_dependencies.workflow_id, job_dependencies.parent_job_id, job_dependencies.child_job_id")
        | some dependencies => .ok { db with dependencies }) db

/-- `UPDATE workflows SET state, finished_at_ms`. -/
def updateWorkflow (db : Database) (wf : WorkflowRecord) : Database :=
  match db.workflows.lookup wf.workflowId with
  | none => db
  | some old =>
      { db with workflows := db.workflows.update { old with state := wf.state, finishedAtMs := wf.finishedAtMs } }

def getWorkflow (db : Database) (workflowId : WorkflowId) : Option WorkflowRecord :=
  db.workflows.lookup workflowId

def loadAllDependencies (db : Database) : List (JobId × JobId) :=
  db.dependencies.rows.map fun d => (d.parent, d.child)

theorem sorted_loadNonTerminalJobs (db : Database) : db.loadNonTerminalJobs.Pairwise recoveryOrder := by
  have htotal : Std.Total recoveryOrder := ⟨fun a b => by unfold recoveryOrder; omega⟩
  have htrans : IsTrans Job recoveryOrder := ⟨fun a b c => by unfold recoveryOrder; omega⟩
  exact List.pairwise_insertionSort recoveryOrder _

theorem sorted_newestFirst (jobs : List Job) : (jobs.insertionSort newestFirst).Pairwise newestFirst := by
  have htotal : Std.Total newestFirst := ⟨fun a b => by
    unfold newestFirst
    rcases lt_trichotomy a.createdAtMs b.createdAtMs with hlt | heq | hgt
    · exact .inr (.inl hlt)
    · exact (String.le_total b.jobId a.jobId).imp (fun hle => .inr ⟨heq, hle⟩) fun hle => .inr ⟨heq.symm, hle⟩
    · exact .inl (.inl hgt)⟩
  have htrans : IsTrans Job newestFirst := ⟨fun a b c => by
    unfold newestFirst
    rintro (hab | ⟨hab, hid⟩) (hbc | ⟨hbc, hid'⟩)
    · exact .inl (hbc.trans hab)
    · exact .inl (hbc ▸ hab)
    · exact .inl (hab ▸ hbc)
    · exact .inr ⟨hab.trans hbc, String.le_trans hid' hid⟩⟩
  exact List.pairwise_insertionSort newestFirst jobs

theorem writeJobRow_of_fresh {db : Database} {job : Job} (h : db.getJob job.jobId = none) :
    ∃ t, db.jobs.insert job.persisted = some t ∧ db.writeJobRow job true = .ok { db with jobs := t } := by
  obtain ⟨t, ht⟩ := Table.insert_of_fresh (t := db.jobs) (r := job.persisted) h
  refine ⟨t, ht, ?_⟩
  simp only [writeJobRow, if_true, ht]

theorem insertJobs_cons_eq_ok {db db' : Database} {job : Job} {jobs : List Job}
    (h : db.insertJobs (job :: jobs) = .ok db') :
    ∃ t, db.jobs.insert job.persisted = some t ∧ ({ db with jobs := t } : Database).insertJobs jobs = .ok db' := by
  rw [insertJobs, List.foldlM_cons] at h
  cases hins : db.jobs.insert job.persisted with
  | none =>
      simp only [writeJobRow, if_true, hins] at h
      cases h
  | some t =>
      simp only [writeJobRow, if_true, hins] at h
      exact ⟨t, rfl, h⟩

/-- Rows with new ids are inserted at the end, in order. -/
theorem insertJobs_ok {db : Database} {jobs : List Job}
    (h : (db.jobs.rows.map Job.jobId ++ jobs.map Job.jobId).Nodup) :
    ∃ t : Table Job.jobId, t.rows = db.jobs.rows ++ jobs.map Job.persisted ∧
      db.insertJobs jobs = .ok { db with jobs := t } := by
  induction jobs generalizing db with
  | nil => exact ⟨db.jobs, by simp, rfl⟩
  | cons job jobs ih =>
      have hnew : db.jobs.lookup job.jobId = none := by
        rw [Table.lookup_eq_none]
        intro hmem
        exact List.disjoint_of_nodup_append h hmem List.mem_cons_self
      obtain ⟨t₁, ht₁, hstep⟩ := writeJobRow_of_fresh hnew
      have hrows : t₁.rows = db.jobs.rows ++ [job.persisted] := (Table.insert_eq_some.mp ht₁).2
      have hnd : (({ db with jobs := t₁ } : Database).jobs.rows.map Job.jobId ++ jobs.map Job.jobId).Nodup := by
        simp only [hrows, List.map_append, List.append_assoc]
        exact h
      obtain ⟨t, ht, hok⟩ := ih hnd
      refine ⟨t, ?_, ?_⟩
      · rw [ht, hrows, List.append_assoc]
        rfl
      · rw [insertJobs, List.foldlM_cons, hstep]
        exact hok

theorem foldl_updateJob (db : Database) (jobs : List Job) :
    jobs.foldl updateJob db = { db with jobs := (jobs.map Job.persisted).foldl Table.update db.jobs } := by
  induction jobs generalizing db with
  | nil => rfl
  | cons job jobs ih => exact ih _

theorem foldl_appendAttempt (db : Database) (recs : List AttemptRecord) :
    recs.foldl appendAttempt db = { db with attempts := recs.foldl Table.upsert db.attempts } := by
  induction recs generalizing db with
  | nil => rfl
  | cons rec recs ih => exact ih _

end Database

end DistributedJobEngine
