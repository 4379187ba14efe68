import DistributedJobEngine.LibTransaction
import DistributedJobEngine.Store

/-! The writer connection of `JobStore`. The three functions that open a transaction on it, `insert_jobs`
in direct mode, `insert_workflow` and `commit_batch`, follow one pattern: `BEGIN IMMEDIATE`, the
statements, each with a rollback on its error path, and `COMMIT`. -/

namespace DistributedJobEngine

open LibTransaction

namespace Database

/-- The statement of `write_job_row_locked`; a statement that cannot be prepared has failed as well. -/
def jobRow (insert : Bool) (job : Job) (db : Database) : Option Database :=
  (db.writeJobRow job insert).toOption

def workflowRow (wf : WorkflowRecord) (db : Database) : Option Database :=
  (db.workflows.insert wf).map fun workflows => { db with workflows }

def dependencyRow (workflowId : WorkflowId) (e : JobId × JobId) (db : Database) : Option Database :=
  (db.dependencies.insert ⟨workflowId, e.1, e.2⟩).map fun dependencies => { db with dependencies }

def attemptRow (rec : AttemptRecord) (db : Database) : Option Database := some (db.appendAttempt rec)

end Database

abbrev WriterConnection := Connection Database

namespace WriterConnection

/-- `exec` gives up after 200 answers that the database is busy, `step_with_retry` after 201. -/
def inTransaction (c : WriterConnection) (statements : List (Database → Option Database)) :
    Bool × WriterConnection :=
  c.transact 200 201 statements

def insertJobs (c : WriterConnection) (jobs : List Job) : Bool × WriterConnection :=
  if jobs.isEmpty then (true, c) else inTransaction c (jobs.map (Database.jobRow true))

def insertWorkflow (c : WriterConnection) (wf : WorkflowRecord) (nodes : List Job)
    (edges : List (JobId × JobId)) : Bool × WriterConnection :=
  inTransaction c (Database.workflowRow wf ::
    (nodes.map (Database.jobRow true) ++ edges.map (Database.dependencyRow wf.workflowId)))

def commitBatch (c : WriterConnection) (b : Batch) : Bool × WriterConnection :=
  if b.inserts.isEmpty && b.updates.isEmpty && b.attempts.isEmpty then (true, c)
  else
    inTransaction c (b.inserts.map (fun v => Database.jobRow true v.job) ++
      (b.updates.map (fun v => Database.jobRow false v.job) ++ b.attempts.map Database.attemptRow))

end WriterConnection

/-- A call of one of the three functions. -/
inductive WriterCall where
  | insertJobs (jobs : List Job)
  | insertWorkflow (wf : WorkflowRecord) (nodes : List Job) (edges : List (JobId × JobId))
  | commitBatch (b : Batch)

namespace WriterCall

def statements : WriterCall → List (Database → Option Database)
  | insertJobs jobs => jobs.map (Database.jobRow true)
  | insertWorkflow wf nodes edges =>
      Database.workflowRow wf ::
        (nodes.map (Database.jobRow true) ++ edges.map (Database.dependencyRow wf.workflowId))
  | commitBatch b =>
      b.inserts.map (fun v => Database.jobRow true v.job) ++
        (b.updates.map (fun v => Database.jobRow false v.job) ++ b.attempts.map Database.attemptRow)

/-- What the call does to the tables when it succeeds. -/
def effect (db : Database) : WriterCall → Except String Database
  | insertJobs jobs => db.insertJobs jobs
  | insertWorkflow wf nodes edges => db.insertWorkflow wf nodes edges
  | commitBatch b => db.commitBatch b

end WriterCall

namespace WriterConnection

def call (c : WriterConnection) : WriterCall → Bool × WriterConnection
  | .insertJobs jobs => insertJobs c jobs
  | .insertWorkflow wf nodes edges => insertWorkflow c wf nodes edges
  | .commitBatch b => commitBatch c b

def runCalls (c : WriterConnection) (calls : List WriterCall) : WriterConnection :=
  calls.foldl (fun c k => (call c k).2) c

/-- The call gets as far as its `COMMIT`, and that reports an error. -/
def commitFails (c : WriterConnection) (k : WriterCall) : Bool :=
  !k.statements.isEmpty && c.commitRefused 200 201 k.statements

/-- The writer connection of a store just opened. -/
def opened (db : Database) (codes : ℕ → Code) : WriterConnection := { db, codes }

/-- A call without statements touches nothing; any other is one transaction of its statements. -/
theorem call_eq (c : WriterConnection) (k : WriterCall) :
    call c k = if k.statements.isEmpty then (true, c) else inTransaction c k.statements := by
  cases k with
  | insertJobs jobs => cases jobs <;> rfl
  | insertWorkflow wf nodes edges => rfl
  | commitBatch b =>
      obtain ⟨inserts, updates, attempts⟩ := b
      cases inserts <;> cases updates <;> cases attempts <;> rfl

end WriterConnection

namespace Database

theorem foldlM_jobRow (db : Database) (jobs : List Job) :
    (jobs.map (jobRow true)).foldlM (fun db statement => statement db) db =
      (db.insertJobs jobs).toOption := by
  induction jobs generalizing db with
  | nil => rfl
  | cons job jobs ih =>
      rw [List.map_cons, List.foldlM_cons, insertJobs, List.foldlM_cons]
      unfold jobRow
      cases hrow : db.writeJobRow job true with
      | error e => rfl
      | ok db' => exact ih db'

theorem foldlM_dependencyRow (db : Database) (workflowId : WorkflowId) (edges : List (JobId × JobId))
    (message : String) :
    (edges.map (dependencyRow workflowId)).foldlM (fun db statement => statement db) db =
      (edges.foldlM (fun (db : Database) (e : JobId × JobId) =>
        match db.dependencies.insert ⟨workflowId, e.1, e.2⟩ with
        | none => Except.error message
        | some dependencies => .ok { db with dependencies }) db).toOption := by
  induction edges generalizing db with
  | nil => rfl
  | cons e edges ih =>
      rw [List.map_cons, List.foldlM_cons, List.foldlM_cons]
      unfold dependencyRow
      cases hrow : db.dependencies.insert ⟨workflowId, e.1, e.2⟩ with
      | none => rfl
      | some dependencies => exact ih _

/-- Statements that cannot fail by themselves are applied one after the other. -/
theorem foldlM_some {α : Type} (f : Database → α → Database) (db : Database) (rows : List α) :
    (rows.map fun row db => some (f db row)).foldlM (fun db statement => statement db) db =
      some (rows.foldl f db) := by
  induction rows generalizing db with
  | nil => rfl
  | cons row rows ih => exact ih _

end Database

/-- The statements of a call, all applied, are the transaction of the store's model. -/
theorem WriterCall.foldlM_statements (db : Database) (k : WriterCall) :
    k.statements.foldlM (fun db statement => statement db) db = (k.effect db).toOption := by
  cases k with
  | insertJobs jobs => exact Database.foldlM_jobRow db jobs
  | insertWorkflow wf nodes edges =>
      simp only [statements, effect, Database.insertWorkflow, List.foldlM_cons, Database.workflowRow]
      cases db.workflows.insert wf with
      | none => rfl
      | some workflows =>
          simp only [Option.map_some, Option.bind_eq_bind, Option.bind_some, List.foldlM_append,
            Database.foldlM_jobRow]
          cases Database.insertJobs { db with workflows } nodes with
          | error e => rfl
          | ok db' => exact Database.foldlM_dependencyRow db' wf.workflowId edges _
  | commitBatch b =>
      have hinserts : b.inserts.map (fun v => Database.jobRow true v.job) =
          (b.inserts.map (·.job)).map (Database.jobRow true) := by rw [List.map_map]; rfl
      simp only [statements, effect, Database.commitBatch, List.foldlM_append, hinserts, Database.foldlM_jobRow]
      cases db.insertJobs (b.inserts.map (·.job)) with
      | error e => rfl
      | ok db' =>
          have hupdates : (b.updates.map fun v => Database.jobRow false v.job).foldlM
              (fun db statement => statement db) db' =
                some ((b.updates.map (·.job)).foldl Database.updateJob db') := by
            rw [List.foldl_map]
            exact Database.foldlM_some (fun db (v : VersionedJob) => db.updateJob v.job) db' b.updates
          simp only [Except.toOption, Option.bind_eq_bind, Option.bind_some, hupdates]
          exact Database.foldlM_some Database.appendAttempt _ b.attempts

namespace WriterConnection

variable {c : WriterConnection} {db : Database}

/-- **A call ends.** From outside a transaction it fails and changes nothing, or does to the tables what
the store's model says, or leaves its transaction open because the `COMMIT` failed. -/
theorem call_cases (hc : c.Outside db) (k : WriterCall) :
    (∃ c', call c k = (false, c') ∧ c'.Outside db ∧ commitFails c k = false) ∨
    (∃ c' db', call c k = (true, c') ∧ c'.Outside db' ∧ k.effect db = .ok db' ∧ commitFails c k = false) ∨
    ∃ c' tables, call c k = (false, c') ∧ c'.Inside db tables ∧ commitFails c k = true := by
  rw [call_eq, commitFails]
  have heffect {db' : Database} (h : k.statements.foldlM (fun db statement => statement db) db = some db') :
      k.effect db = .ok db' := by
    rw [k.foldlM_statements db] at h
    cases hk : k.effect db with
    | error e =>
        rw [hk] at h
        cases h
    | ok db'' =>
        rw [hk] at h
        cases h
        rfl
  cases hempty : k.statements.isEmpty with
  | true =>
      have hnil : k.statements = [] := List.isEmpty_iff.mp hempty
      refine .inr (.inl ⟨c, db, rfl, hc, heffect ?_, rfl⟩)
      rw [hnil]
      rfl
  | false =>
      rcases Connection.transact_cases 200 201 k.statements hc with
        ⟨c', hrun, hout, hfine⟩ | ⟨c', db', hrun, hout, hfold, hfine⟩ | ⟨c', tables, hrun, hin, hfails⟩
      · exact .inl ⟨c', hrun, hout, hfine⟩
      · exact .inr (.inl ⟨c', db', hrun, hout, heffect hfold, hfine⟩)
      · exact .inr (.inr ⟨c', tables, hrun, hin, hfails⟩)

/-- A call issued outside a transaction ends outside one exactly when its `COMMIT` does not fail. -/
theorem transaction_call (hc : c.transaction = none) (k : WriterCall) :
    (call c k).2.transaction = none ↔ commitFails c k = false := by
  rcases call_cases ⟨rfl, hc⟩ k with
    ⟨c', hrun, hout, hfine⟩ | ⟨c', db', hrun, hout, -, hfine⟩ | ⟨c', tables, hrun, hin, hfails⟩
  · simp [hrun, hfine, hout.transaction]
  · simp [hrun, hfine, hout.transaction]
  · simp [hrun, hfails, hin.transaction]

theorem runCalls_take_succ (c : WriterConnection) {calls : List WriterCall} {n : ℕ} {k : WriterCall}
    (h : calls[n]? = some k) : runCalls c (calls.take (n + 1)) = (call (runCalls c (calls.take n)) k).2 := by
  rw [List.take_add_one, h, runCalls, Option.toList_some, List.foldl_append]
  rfl

/-- **No transaction is left open**, on any sequence of calls of a store just opened and any answers of the
database, exactly as long as no `COMMIT` reports an error. -/
theorem outside_transaction_iff (db : Database) (codes : ℕ → Code) (calls : List WriterCall) :
    (∀ n, (runCalls (opened db codes) (calls.take n)).transaction = none) ↔
      ∀ n k, calls[n]? = some k → commitFails (runCalls (opened db codes) (calls.take n)) k = false := by
  constructor
  · intro h n k hk
    rw [← transaction_call (h n) k, ← runCalls_take_succ _ hk]
    exact h (n + 1)
  · intro h n
    induction n with
    | zero => rfl
    | succ n ih =>
        cases hk : calls[n]? with
        | none =>
            rw [List.take_add_one, hk, Option.toList_none, List.append_nil]
            exact ih
        | some k =>
            rw [runCalls_take_succ _ hk, transaction_call ih]
            exact h n k hk

/-- The `COMMIT` of a one-row `insert_jobs`, the third statement of the connection, is busy at each of its tries. -/
def busyCommit (n : ℕ) : Code := if 2 ≤ n ∧ n < 202 then .busy else .ok

/-- The `COMMIT` that stays busy leaves the transaction open, and the next call is refused although none of its own
statements meets an error. -/
theorem outside_transaction_busy_commit :
    (runCalls (opened {} busyCommit) [.insertJobs [{ jobId := "j_1" }]]).transaction.isSome = true ∧
      (call (runCalls (opened {} busyCommit) [.insertJobs [{ jobId := "j_1" }]])
        (.insertJobs [{ jobId := "j_2" }])).1 = false := by
  decide +kernel

end WriterConnection

end DistributedJobEngine
