import DistributedJobEngine.StoreRefinement
import DistributedJobEngine.StoreRow

/-! The answers of the group-commit store. What a call has to answer is said by the writes before it alone: the last
row written for each job and the last record of each attempt. The store answers so, whatever the flusher does, if
every row is read back as it was written. A row that is not is answered as it was written while it stands in the
cache, and as it is read back from then on, so that `group_commit` can be told from the direct store. -/

namespace DistributedJobEngine

open LibTable

namespace JobRow

variable {sql : Sqlite} {libc : Libc} {job : Job}

/-- What `read_job_row` makes of the row that `write_job_row_locked` wrote for a job. -/
def readBack (sql : Sqlite) (libc : Libc) (job : Job) : Job :=
  readJobRow libc (select (insertValues (bindings sql libc job)))

/-- The row of a job is read back as it was written. -/
def ReadsBack (sql : Sqlite) (libc : Libc) (job : Job) : Prop := readBack sql libc job = job.columns

theorem columns_readJobRow (libc : Libc) (cols : List SqlValue) :
    (readJobRow libc cols).columns = readJobRow libc cols := rfl

theorem persisted_eq_columns (h : job.payload.isNull = false) : job.persisted = job.columns := by
  simp only [Job.persisted, Job.columns, h, Bool.false_eq_true, if_false]

theorem readsBack_iff (h : StorableJob job) : ReadsBack sql libc job ↔ ∀ s ∈ texts libc job, Fits sql s := by
  rw [ReadsBack, readBack, select_insertValues rfl, ← persisted_eq_columns h.payload_ne, readJobRow_eq_iff h]

/-- A row that is read and written again is read as before. -/
theorem readBack_persisted (sql : Sqlite) (libc : Libc) (job : Job) :
    readBack sql libc job.persisted = readBack sql libc job := by
  have hread : readPayload libc (boundText sql (payloadText libc job.persisted)) =
      readPayload libc (boundText sql (payloadText libc job)) := by
    cases hnull : job.payload.isNull with
    | false => rw [persisted_eq_columns hnull]; rfl
    | true =>
        -- the texts of the payload, `{}` and `null`, are both read as the empty object
        have hpayload : job.payload = .null := by
          cases hjson : job.payload <;> simp_all [Json.isNull]
        have hobject : job.persisted.payload = .object [] := by rw [Job.persisted, hnull]; rfl
        have hempty : Storable (.object []) :=
          ⟨.object [] (List.forall_mem_nil _) List.nodup_nil, .object [] (List.forall_mem_nil _), Nat.zero_le 64⟩
        rw [payloadText, payloadText, hobject, hpayload, readPayload, readPayload,
          parseOrNull_of_fits hempty.plain hempty.integral hempty.height (fits_of_short (show 2 ≤ 30 by decide)),
          parseOrNull_of_fits storable_null.plain storable_null.integral storable_null.height
            (fits_of_short (show 4 ≤ 30 by decide))]
        rfl
  rw [readBack, readBack, select_insertValues rfl, select_insertValues rfl, readJobRow_bindings, readJobRow_bindings,
    hread]
  rfl

end JobRow

/-! ### What the calls have to answer -/

/-- The attempt a call records, if it records one. -/
def StoreCall.records : StoreCall → Option AttemptRecord
  | .appendAttempt rec => some rec
  | _ => none

namespace Database

/-- The row of `jobId` after `calls`: the last one written, or else what is read of the one that was there. -/
def lastRow (db : Database) (read : Job → Job) (calls : List StoreCall) (jobId : JobId) : Option Job :=
  ((Table.last Job.jobId (calls.filterMap StoreCall.writes) jobId).map Job.columns).or ((db.getJob jobId).map read)

/-- The record of an attempt after `calls`: the last one appended, or else the one that was there. -/
def lastRecord (db : Database) (calls : List StoreCall) (key : JobId × Int) : Option AttemptRecord :=
  (Table.last AttemptRecord.key (calls.filterMap StoreCall.records) key).or (db.attempts.lookup key)

end Database

/-- The answer to a query when `row` is the row of each job and `record` the record of each attempt. -/
def StoreQuery.Answered (row : JobId → Option Job) (record : JobId × Int → Option AttemptRecord) :
    StoreQuery → StoreAnswer → Prop
  | .listJobs state limit offset, .rows jobs => ∃ all : List Job,
      (all.Pairwise fun a b =>
        b.createdAtMs < a.createdAtMs ∨ a.createdAtMs = b.createdAtMs ∧ b.jobId < a.jobId) ∧
      (∀ job, job ∈ all ↔ row job.jobId = some job ∧ ∀ st, state = some st → job.state = st) ∧
      (limit < 0 → jobs = all.drop offset.toNat) ∧ (0 ≤ limit → jobs = (all.drop offset.toNat).take limit.toNat)
  | .countJobs state, .count n => ∃ ids : Finset JobId, ids.card = n ∧
      ∀ id, id ∈ ids ↔ ∃ job, row id = some job ∧ ∀ st, state = some st → job.state = st
  | .loadNonTerminalJobs, .rows jobs =>
      (jobs.Pairwise fun a b => b.priority < a.priority ∨ a.priority = b.priority ∧ a.seq ≤ b.seq) ∧
      (jobs.map Job.jobId).Nodup ∧ ∀ job, job ∈ jobs ↔ row job.jobId = some job ∧ job.state.isTerminal = false
  | .listAttempts jobId, .attempts recs =>
      (recs.Pairwise fun a b => a.attempt < b.attempt) ∧
      ∀ rec, rec ∈ recs ↔ rec.jobId = jobId ∧ record (jobId, rec.attempt) = some rec
  | _, _ => False

/-! ### The direct store -/

/-- What is read of a row has the columns by which the queries select and order. -/
structure Job.Shown (read : Job → Job) (r : Job) : Prop where
  jobId : (read r).jobId = r.jobId
  state : (read r).state = r.state
  createdAtMs : (read r).createdAtMs = r.createdAtMs
  priority : (read r).priority = r.priority
  seq : (read r).seq = r.seq

namespace Database

/-- Every row is shown as it stands in the table. -/
def Shows (db : Database) (read : Job → Job) : Prop := ∀ id r, db.getJob id = some r → r.Shown read

section Answers

variable {db : Database} {read : Job → Job}

/-- The rows with a column `P` are read as the rows of their jobs. -/
theorem mem_map_read (h : db.Shows read) {job : Job} {P : Job → Prop} (hP : ∀ r, r.Shown read → (P (read r) ↔ P r)) :
    (∃ r, (r ∈ db.jobs.rows ∧ P r) ∧ read r = job) ↔ (db.getJob job.jobId).map read = some job ∧ P job := by
  constructor
  · rintro ⟨r, ⟨hr, hp⟩, rfl⟩
    have hget : db.getJob r.jobId = some r := Table.lookup_eq_some.mpr ⟨hr, rfl⟩
    have hshown := h _ _ hget
    rw [hshown.jobId, hget]
    exact ⟨rfl, (hP r hshown).mpr hp⟩
  · rintro ⟨hrow, hp⟩
    obtain ⟨r, hget, rfl⟩ := Option.map_eq_some_iff.mp hrow
    exact ⟨r, ⟨(Table.lookup_eq_some.mp hget).1, (hP r (h _ _ hget)).mp hp⟩, rfl⟩

theorem inState_iff {state : Option JobState} {j : Job} :
    inState state j = true ↔ ∀ st, state = some st → j.state = st := by
  cases state <;> simp [inState]

theorem nodup_filter_jobId (db : Database) (p : Job → Bool) : ((db.jobs.rows.filter p).map Job.jobId).Nodup :=
  db.jobs.nodup.sublist (List.filter_sublist.map _)

theorem listJobs_answered (h : db.Shows read) (state : Option JobState) (limit offset : Int)
    (record : JobId × Int → Option AttemptRecord) :
    (StoreQuery.listJobs state limit offset).Answered (fun id => (db.getJob id).map read) record
      (db.answer read (.listJobs state limit offset)) := by
  let sorted := (db.jobs.rows.filter (inState state)).insertionSort newestFirst
  have hperm := List.perm_insertionSort newestFirst (db.jobs.rows.filter (inState state))
  have hmem : ∀ r, r ∈ sorted ↔ r ∈ db.jobs.rows ∧ inState state r = true := fun r => by
    rw [hperm.mem_iff, List.mem_filter]
  have hdistinct : sorted.Pairwise fun a b => a.jobId ≠ b.jobId :=
    List.pairwise_map.mp ((hperm.map Job.jobId).nodup_iff.mpr (db.nodup_filter_jobId _))
  have hshown : ∀ r ∈ sorted, r.Shown read := fun r hr =>
    h r.jobId r (Table.lookup_eq_some.mpr ⟨((hmem r).mp hr).1, rfl⟩)
  refine ⟨sorted.map read, ?_, fun job => ?_, fun hneg => ?_, fun hnonneg => ?_⟩
  · rw [List.pairwise_map]
    refine ((sorted_newestFirst _).and hdistinct).imp_of_mem fun {a b} ha hb hab => ?_
    rw [(hshown a ha).createdAtMs, (hshown b hb).createdAtMs, (hshown a ha).jobId, (hshown b hb).jobId]
    exact hab.1.imp_right fun hle => ⟨hle.1, String.not_le.mp fun hge => hab.2 (String.le_antisymm hge hle.2)⟩
  · rw [List.mem_map]
    simp only [hmem, inState_iff]
    exact mem_map_read h fun r hr => by rw [hr.state]
  · change (page limit offset sorted).map read = _
    rw [page, if_pos hneg, List.map_drop]
  · change (page limit offset sorted).map read = _
    rw [page, if_neg (not_lt.mpr hnonneg), List.map_take, List.map_drop]

theorem countJobs_answered (h : db.Shows read) (state : Option JobState)
    (record : JobId × Int → Option AttemptRecord) :
    (StoreQuery.countJobs state).Answered (fun id => (db.getJob id).map read) record
      (db.answer read (.countJobs state)) := by
  refine ⟨((db.jobs.rows.filter (inState state)).map Job.jobId).toFinset, ?_, fun id => ?_⟩
  · rw [List.toFinset_card_of_nodup (db.nodup_filter_jobId _), List.length_map]
    rfl
  · simp only [List.mem_toFinset, List.mem_map, List.mem_filter, inState_iff, Option.map_eq_some_iff]
    constructor
    · rintro ⟨r, ⟨hr, hstate⟩, rfl⟩
      have hget : db.getJob r.jobId = some r := Table.lookup_eq_some.mpr ⟨hr, rfl⟩
      exact ⟨read r, ⟨r, hget, rfl⟩, by rwa [(h _ _ hget).state]⟩
    · rintro ⟨_, ⟨r, hget, rfl⟩, hstate⟩
      obtain ⟨hr, hid⟩ := Table.lookup_eq_some.mp hget
      exact ⟨r, ⟨hr, by rwa [← (h _ _ hget).state]⟩, hid⟩

theorem loadNonTerminalJobs_answered (h : db.Shows read) (record : JobId × Int → Option AttemptRecord) :
    StoreQuery.loadNonTerminalJobs.Answered (fun id => (db.getJob id).map read) record
      (db.answer read .loadNonTerminalJobs) := by
  have hperm : db.loadNonTerminalJobs.Perm (db.jobs.rows.filter fun j => !j.state.isTerminal) :=
    List.perm_insertionSort _ _
  have hmem : ∀ r, r ∈ db.loadNonTerminalJobs ↔ r ∈ db.jobs.rows ∧ r.state.isTerminal = false := fun r => by
    rw [hperm.mem_iff, List.mem_filter, Bool.not_eq_true']
  have hshown : ∀ r ∈ db.loadNonTerminalJobs, r.Shown read := fun r hr =>
    h r.jobId r (Table.lookup_eq_some.mpr ⟨((hmem r).mp hr).1, rfl⟩)
  refine ⟨?_, ?_, fun job => ?_⟩
  · rw [List.pairwise_map]
    refine db.sorted_loadNonTerminalJobs.imp_of_mem fun {a b} ha hb hab => ?_
    rw [(hshown a ha).priority, (hshown b hb).priority, (hshown a ha).seq, (hshown b hb).seq]
    exact hab
  · have hids : (db.loadNonTerminalJobs.map read).map Job.jobId = db.loadNonTerminalJobs.map Job.jobId := by
      rw [List.map_map]
      exact List.map_congr_left fun r hr => (hshown r hr).jobId
    rw [hids, (hperm.map Job.jobId).nodup_iff]
    exact db.nodup_filter_jobId _
  · rw [List.mem_map]
    simp only [hmem]
    exact mem_map_read h fun r hr => by rw [hr.state]

theorem listAttempts_answered (row : JobId → Option Job) (jobId : JobId) :
    (StoreQuery.listAttempts jobId).Answered row db.attempts.lookup (db.answer read (.listAttempts jobId)) := by
  have hperm : (db.listAttempts jobId).Perm (db.attempts.rows.filter fun a => decide (a.jobId = jobId)) :=
    List.perm_insertionSort _ _
  have hmem : ∀ a, a ∈ db.listAttempts jobId ↔ a ∈ db.attempts.rows ∧ a.jobId = jobId := fun a => by
    rw [hperm.mem_iff, List.mem_filter, decide_eq_true_eq]
  have hdistinct : (db.listAttempts jobId).Pairwise fun a b => a.key ≠ b.key :=
    List.pairwise_map.mp ((hperm.map _).nodup_iff.mpr (db.attempts.nodup.sublist (List.filter_sublist.map _)))
  have hsorted : (db.listAttempts jobId).Pairwise fun a b => a.attempt ≤ b.attempt := by
    have htotal : Std.Total fun a b : AttemptRecord => a.attempt ≤ b.attempt := ⟨fun _ _ => le_total _ _⟩
    have htrans : IsTrans AttemptRecord fun a b => a.attempt ≤ b.attempt := ⟨fun _ _ _ => le_trans⟩
    exact List.pairwise_insertionSort _ _
  refine ⟨(hsorted.and hdistinct).imp_of_mem fun {a b} ha hb hab => ?_, fun rec => ?_⟩
  · refine lt_of_le_of_ne hab.1 fun heq => hab.2 ?_
    rw [AttemptRecord.key, AttemptRecord.key, heq, ((hmem a).mp ha).2, ((hmem b).mp hb).2]
  · rw [hmem, Table.lookup_eq_some]
    constructor
    · rintro ⟨hrec, rfl⟩
      exact ⟨rfl, hrec, rfl⟩
    · rintro ⟨rfl, hrec, -⟩
      exact ⟨hrec, rfl⟩

/-- **A query answers with the rows of the table.** -/
theorem answer_answered (h : db.Shows read) (q : StoreQuery) :
    q.Answered (fun id => (db.getJob id).map read) db.attempts.lookup (db.answer read q) := by
  cases q with
  | listJobs state limit offset => exact listJobs_answered h state limit offset _
  | listAttempts jobId => exact listAttempts_answered _ jobId
  | countJobs state => exact countJobs_answered h state _
  | loadNonTerminalJobs => exact loadNonTerminalJobs_answered h _

end Answers

section Calls

variable {db : Database} {read : Job → Job} {c : StoreCall}

theorem getJob_call_of_writes (h : db.Allows c) {job : Job} (hw : c.writes = some job) (id : JobId) :
    (db.call read c).2.getJob id = if job.jobId = id then some job.persisted else db.getJob id := by
  cases c with
  | insertJob job' =>
      cases hw
      obtain ⟨t, hins, hwrite⟩ := writeJobRow_of_fresh h
      rw [call, hwrite]
      exact Table.lookup_of_insert hins
  | updateJob job' =>
      cases hw
      obtain ⟨old, hold⟩ := Option.isSome_iff_exists.mp h
      change (db.jobs.update job.persisted).lookup id = _
      rw [Table.lookup_update]
      split_ifs with hid hid' hid'
      · subst hid'
        exact congrArg (Option.map fun _ => job.persisted) hold
      · exact absurd hid hid'
      · exact absurd hid' hid
      · rfl
  | appendAttempt _ | getJob _ | query _ => cases hw

theorem getJob_call_of_reads (hw : c.writes = none) (id : JobId) : (db.call read c).2.getJob id = db.getJob id := by
  cases c with
  | insertJob _ | updateJob _ => cases hw
  | appendAttempt _ | getJob _ | query _ => rfl

theorem lookup_attempts_call (key : JobId × Int) :
    (db.call read c).2.attempts.lookup key = db.lastRecord [c] key := by
  cases c with
  | appendAttempt rec =>
      change (db.attempts.upsert rec).lookup key = (Table.last AttemptRecord.key [rec] key).or _
      rw [Table.lookup_upsert, Table.last_singleton]
      split_ifs <;> rfl
  | insertJob job =>
      rw [call]
      cases hwrite : db.writeJobRow job true with
      | ok db' =>
          simp only [writeJobRow, if_true] at hwrite
          split at hwrite <;> cases hwrite
          rfl
      | error e => rfl
  | updateJob _ | getJob _ | query _ => rfl

theorem lastRow_cons (cs : List StoreCall) (id : JobId) : db.lastRow read (c :: cs) id =
    ((Table.last Job.jobId (cs.filterMap StoreCall.writes) id).map Job.columns).or (db.lastRow read [c] id) := by
  rw [lastRow, lastRow, ← List.singleton_append, List.filterMap_append, Table.last_append, Option.map_or,
    Option.or_assoc]

theorem lastRecord_cons (cs : List StoreCall) (key : JobId × Int) : db.lastRecord (c :: cs) key =
    (Table.last AttemptRecord.key (cs.filterMap StoreCall.records) key).or (db.lastRecord [c] key) := by
  rw [lastRecord, lastRecord, ← List.singleton_append, List.filterMap_append, Table.last_append, Option.or_assoc]

/-- A job whose row is read as it was written. -/
theorem shown_of_columns {job r : Job} (h : read r = job.columns) (hr : r.persisted = job.persisted) :
    r.Shown read := by
  have hid := congrArg Job.jobId hr
  have hstate := congrArg Job.state hr
  have hcreated := congrArg Job.createdAtMs hr
  have hpriority := congrArg Job.priority hr
  have hseq := congrArg Job.seq hr
  exact ⟨by rw [h]; exact hid.symm, by rw [h]; exact hstate.symm, by rw [h]; exact hcreated.symm,
    by rw [h]; exact hpriority.symm, by rw [h]; exact hseq.symm⟩

variable (hread : ∀ job : Job, read job.persisted = read job)

include hread

/-- One call: the row of each job is the one the call wrote, or what it was. -/
theorem rows_call (h : db.Allows c) (hc : ∀ job, c.writes = some job → read job = job.columns) (hdb : db.Shows read) :
    (∀ id, ((db.call read c).2.getJob id).map read = db.lastRow read [c] id) ∧ (db.call read c).2.Shows read := by
  cases hw : c.writes with
  | none =>
      have hnone : [c].filterMap StoreCall.writes = [] := by simp [hw]
      refine ⟨fun id => ?_, fun id r hr => hdb id r (by rwa [getJob_call_of_reads hw] at hr)⟩
      rw [getJob_call_of_reads hw, lastRow, hnone]
      rfl
  | some job =>
      have hkept : read job.persisted = job.columns := (hread job).trans (hc job hw)
      have hone : [c].filterMap StoreCall.writes = [job] := by simp [hw]
      refine ⟨fun id => ?_, fun id r hr => ?_⟩
      · rw [getJob_call_of_writes h hw, lastRow, hone, Table.last_singleton]
        split_ifs with hid
        · rw [Option.map_some, hkept]
          rfl
        · rfl
      · rw [getJob_call_of_writes h hw] at hr
        split_ifs at hr with hid
        · cases hr
          exact shown_of_columns hkept job.persisted_persisted
        · exact hdb id r hr

/-- **The direct store's rows are the last ones written.** -/
theorem rows_calls {cs : List StoreCall} (h : db.AllowsAll read cs)
    (hcs : ∀ c ∈ cs, ∀ job, c.writes = some job → read job = job.columns) (hdb : db.Shows read) :
    (∀ id, ((db.calls read cs).2.getJob id).map read = db.lastRow read cs id) ∧
      (∀ key, (db.calls read cs).2.attempts.lookup key = db.lastRecord cs key) ∧ (db.calls read cs).2.Shows read := by
  induction cs generalizing db with
  | nil => exact ⟨fun _ => rfl, fun _ => rfl, hdb⟩
  | cons c cs ih =>
      obtain ⟨hallow, hrest⟩ := h
      obtain ⟨hc, hcs⟩ := List.forall_mem_cons.mp hcs
      obtain ⟨hrow, hdb'⟩ := rows_call hread hallow hc hdb
      obtain ⟨hrows, hrecords, hshows⟩ := ih hrest hcs hdb'
      refine ⟨fun id => ?_, fun key => ?_, hshows⟩
      · rw [lastRow_cons, ← hrow id]
        exact hrows id
      · rw [lastRecord_cons, ← @lookup_attempts_call db read]
        exact hrecords key

end Calls

end Database

/-! ### The group-commit store -/

namespace JobStore

open JobRow

variable {sql : Sqlite} {libc : Libc}

theorem columns_lastRow (db : Database) (cs : List StoreCall) (id : JobId) :
    (db.lastRow (readBack sql libc) cs id).map Job.columns = db.lastRow (readBack sql libc) cs id := by
  have hread : Job.columns ∘ readBack sql libc = readBack sql libc := funext fun r => columns_readJobRow libc _
  have hcolumns : Job.columns ∘ Job.columns = Job.columns := rfl
  rw [Database.lastRow, Option.map_or, Option.map_map, Option.map_map, hread, hcolumns]

theorem call_getJob_row (s : JobStore) (read : Job → Job) (during late : ℕ) (id : JobId) :
    ∃ row s', s.call read during late (.getJob id) = some (.row row, s') := by
  simp only [JobStore.call]
  split
  · exact ⟨_, _, rfl⟩
  · exact ⟨_, _, rfl⟩

/-- **Group commit refines the direct store** on rows that are read back as they were written. Whatever the flusher's
placement, the calls that return give the direct store's answers on the persisted columns, `get_job` gives the last
row written, the queries answer for the last row of every job and the last record of every attempt, and the next call
returns once the flusher has run long enough. -/
theorem group_commit_refines (sql : Sqlite) (libc : Libc) (cfg : StoreConfig) (hbatch : 1 ≤ cfg.maxBatch)
    (db : Database) (hdb : ∀ r ∈ db.jobs.rows, ReadsBack sql libc r) (ps : List PlacedCall)
    (hallow : db.AllowsAll (readBack sql libc) (ps.map (·.call)))
    (hrows : ∀ p ∈ ps, ∀ job, p.call.writes = some job → ReadsBack sql libc job) {answers : List StoreAnswer}
    {s : JobStore} (hrun : JobStore.run { cfg := cfg, db := db } (readBack sql libc) ps = some (answers, s)) :
    answers.map StoreAnswer.columns =
        (db.calls (readBack sql libc) (ps.map (·.call))).1.map StoreAnswer.columns ∧
      (∀ id before during late, ∃ s' row,
        (s.flusherSteps before).call (readBack sql libc) during late (.getJob id) = some (.row row, s') ∧
          row.map Job.columns = db.lastRow (readBack sql libc) (ps.map (·.call)) id) ∧
      (∀ q before during late a s',
        (s.flusherSteps before).call (readBack sql libc) during late (.query q) = some (a, s') →
          q.Answered (db.lastRow (readBack sql libc) (ps.map (·.call))) (db.lastRecord (ps.map (·.call))) a) ∧
      ∀ before c, (db.calls (readBack sql libc) (ps.map (·.call))).2.Allows c → ∃ N, ∀ during, N ≤ during →
        ∀ late, ((s.flusherSteps before).call (readBack sql libc) during late c).isSome := by
  have hread := readBack_persisted sql libc
  have hshows : db.Shows (readBack sql libc) := fun id r hr =>
    Database.shown_of_columns (hdb r (Table.lookup_eq_some.mp hr).1) rfl
  obtain ⟨hans, hsim, hset, hkeep, hcfg⟩ := (sim_open cfg db).run hread ⟨rfl, rfl⟩
    (fun id v hv => by cases hv) hbatch hallow hrows hrun
  obtain ⟨hlast, hrecords, hshows'⟩ := Database.rows_calls hread hallow (fun c hc job hw => by
    obtain ⟨p, hp, rfl⟩ := List.mem_map.mp hc
    exact hrows p hp job hw) hshows
  have hbatch' : ∀ before, 1 ≤ (s.flusherSteps before).cfg.maxBatch := by
    intro before
    rw [flusherSteps_cfg, hcfg]
    exact hbatch
  have hsim' := fun before => hsim.flusherSteps (hbatch' 0) before
  refine ⟨hans, ?_, ?_, fun before c hc => (hsim' before).call_returns (hbatch' before) _ hc⟩
  · intro id before during late
    obtain ⟨row, s', hcall⟩ := (s.flusherSteps before).call_getJob_row (readBack sql libc) during late id
    obtain ⟨hrow, -⟩ := (hsim' before).call (hset.flusherSteps before) (hbatch' before) hread
      (hkeep.flusherSteps before) (c := .getJob id) trivial hcall
    refine ⟨s', row, hcall, (StoreAnswer.row.inj hrow).trans ?_⟩
    rw [hlast id, columns_lastRow]
  · intro q before during late a s' hcall
    obtain ⟨rfl, -⟩ := (hsim' before).query (hbatch' before) hcall
    have hanswered := Database.answer_answered hshows' q
    rwa [funext hlast, funext hrecords] at hanswered

theorem readsBack_small {job : Job} (h : StorableJob job) (htexts : ∀ s ∈ texts zeroLibc job, s.length < 100) :
    ReadsBack smallRows zeroLibc job :=
  (readsBack_iff h).mpr fun s hs => (htexts s hs).le.trans (by decide)

/-- The leased job before its claim, and after it with a stamp of the steady clock. -/
def waitingJob : Job := { leasedJob with state := .queued, attempt := 0, leaseToken := 0, leaseOwner := "" }

def claimedJob : Job := { leasedJob with startedAtSteady := 7 }

/-- A job of the same type that was submitted later. -/
def laterJob : Job := { waitingJob with jobId := "job-2", createdAtMs := 5 }

/-- Two jobs are inserted, and one is claimed while the flusher writes one row at a time. -/
def claimScript : List PlacedCall :=
  [⟨0, .insertJob waitingJob, 3, 0⟩, ⟨1, .insertJob laterJob, 6, 0⟩, ⟨0, .updateJob claimedJob, 0, 0⟩,
    ⟨1, .appendAttempt { jobId := "job-1", attempt := 1, status := "RUNNING" }, 0, 0⟩, ⟨1, .getJob "job-1", 2, 0⟩,
    ⟨0, .query (.listJobs none 10 0), 9, 1⟩]

theorem readsBack_claimScript :
    ∀ p ∈ claimScript, ∀ job, p.call.writes = some job → ReadsBack smallRows zeroLibc job := by
  have hleased := storable_leasedJob
  have hwaiting : StorableJob waitingJob := ⟨hleased.priority, inInt32_of_le (le_refl 0) zero_le_one,
    hleased.maxAttempts, hleased.pendingDeps, hleased.payload, rfl, hleased.result⟩
  have hclaimed : StorableJob claimedJob := ⟨hleased.priority, hleased.attempt, hleased.maxAttempts,
    hleased.pendingDeps, hleased.payload, rfl, hleased.result⟩
  have hlater : StorableJob laterJob := ⟨hwaiting.priority, hwaiting.attempt, hwaiting.maxAttempts,
    hwaiting.pendingDeps, hwaiting.payload, rfl, hwaiting.result⟩
  simp only [claimScript, List.forall_mem_cons, StoreCall.writes, Option.some.injEq, forall_eq', reduceCtorEq,
    false_implies, implies_true, List.not_mem_nil, and_true]
  exact ⟨readsBack_small hwaiting (by decide), readsBack_small hlater (by decide),
    readsBack_small hclaimed (by decide)⟩

/-- The claim is read, listed and found again, whether it has been written or not. -/
theorem group_commit_refines_claim : ∃ answers s,
    JobStore.run { cfg := { maxBatch := 1 } } (readBack smallRows zeroLibc) claimScript = some (answers, s) ∧
      answers.map StoreAnswer.columns =
        (Database.calls {} (readBack smallRows zeroLibc) (claimScript.map (·.call))).1.map StoreAnswer.columns ∧
      ∃ row s', s.call (readBack smallRows zeroLibc) 0 0 (.getJob "job-1") = some (.row row, s') ∧
        row.map Job.columns = some leasedJob := by
  have hsome : (JobStore.run { cfg := { maxBatch := 1 } } (readBack smallRows zeroLibc) claimScript).isSome := by
    decide +kernel
  obtain ⟨⟨answers, s⟩, hrun⟩ := Option.isSome_iff_exists.mp hsome
  have hallow : Database.AllowsAll {} (readBack smallRows zeroLibc) (claimScript.map (·.call)) :=
    ⟨rfl, rfl, rfl, rfl, trivial, trivial, trivial⟩
  obtain ⟨hanswers, hget, -⟩ := group_commit_refines smallRows zeroLibc { maxBatch := 1 } (by decide) {}
    (fun r hr => by cases hr) claimScript hallow readsBack_claimScript hrun
  obtain ⟨s', row, hcall, hrow⟩ := hget "job-1" 0 0 0
  exact ⟨answers, s, hrun, hanswers, row, s', hcall, hrow⟩

/-- A job that ended with a result nested one level deeper than the parser allows. -/
def deepJob : Job := { waitingJob with state := .succeeded, attempt := 1, result := Json.nested 65 }

def hasResult : StoreAnswer → Bool
  | .row (some job) => !job.result.isNull
  | _ => false

/-- The job ends and is asked for before the flusher has written it, and then again. -/
def deepScript : List PlacedCall :=
  [⟨0, .insertJob waitingJob, 3, 0⟩, ⟨0, .updateJob deepJob, 0, 0⟩, ⟨0, .getJob "job-1", 0, 0⟩,
    ⟨3, .getJob "job-1", 0, 0⟩]

/-- **A result that is nested too deep is there and gone.** The cache gives it back, the table does not, so that the
answers differ from those of the direct store. -/
theorem group_commit_differs : ∃ answers s,
    JobStore.run {} (readBack smallRows zeroLibc) deepScript = some (answers, s) ∧
      Database.AllowsAll {} (readBack smallRows zeroLibc) (deepScript.map (·.call)) ∧
      answers.map hasResult = [false, false, true, false] ∧
      (Database.calls {} (readBack smallRows zeroLibc) (deepScript.map (·.call))).1.map hasResult =
        [false, false, false, false] := by
  have hanswers : (JobStore.run {} (readBack smallRows zeroLibc) deepScript).map
      (fun x => x.1.map hasResult) = some [false, false, true, false] := by decide +kernel
  obtain ⟨⟨answers, s⟩, hrun, hviews⟩ := Option.map_eq_some_iff.mp hanswers
  exact ⟨answers, s, hrun, ⟨rfl, rfl, trivial, trivial, trivial⟩, hviews, by decide +kernel⟩

end JobStore

end DistributedJobEngine
