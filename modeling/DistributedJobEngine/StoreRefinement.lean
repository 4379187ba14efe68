import DistributedJobEngine.Store
import Mathlib.Tactic

/-! The group-commit store against the direct one. A script is a sequence of client calls with any number
of flusher steps before and inside each of them. A row of the table is answered as `read_job_row` reads it, a
row of the cache as it was given. When no transaction fails and every row is read as it was written, every
call that returns gives the answer it gives on the direct store, and every call returns once the flusher has
run long enough. -/

namespace DistributedJobEngine

open LibTable

/-- The calls that list or count over all rows; they flush first. -/
inductive StoreQuery where
  | listJobs (state : Option JobState) (limit offset : Int)
  | listAttempts (jobId : JobId)
  | countJobs (state : Option JobState)
  | loadNonTerminalJobs

inductive StoreCall where
  | insertJob (job : Job)
  | updateJob (job : Job)
  | appendAttempt (rec : AttemptRecord)
  | getJob (jobId : JobId)
  | query (q : StoreQuery)

inductive StoreAnswer where
  | wrote (ok : Bool)
  | row (job : Option Job)
  | rows (jobs : List Job)
  | attempts (recs : List AttemptRecord)
  | count (n : ℕ)

/-- The job as far as it has columns: the steady stamps are in memory only. -/
def Job.columns (j : Job) : Job :=
  { j with
    enqueuedAtSteady := 0, startedAtSteady := 0, startedAtSteadyUs := 0, finishedAtSteady := 0, readyAtSteady := 0 }

/-- An answer on the persisted columns. -/
def StoreAnswer.columns : StoreAnswer → StoreAnswer
  | .row job => .row (job.map Job.columns)
  | .rows jobs => .rows (jobs.map Job.columns)
  | a => a

/-- The row a call writes, if it writes one. -/
def StoreCall.writes : StoreCall → Option Job
  | .insertJob job => some job
  | .updateJob job => some job
  | _ => none

namespace Database

/-- `read` is what `read_job_row` makes of a row. -/
def answer (db : Database) (read : Job → Job) : StoreQuery → StoreAnswer
  | .listJobs state limit offset => .rows ((db.listJobs state limit offset).map read)
  | .listAttempts jobId => .attempts (db.listAttempts jobId)
  | .countJobs state => .count (db.countJobs state)
  | .loadNonTerminalJobs => .rows (db.loadNonTerminalJobs.map read)

/-- A call with `group_commit` off. -/
def call (db : Database) (read : Job → Job) : StoreCall → StoreAnswer × Database
  | .insertJob job =>
      match db.writeJobRow job true with
      | .ok db' => (.wrote true, db')
      | .error _ => (.wrote false, db)
  | .updateJob job => (.wrote true, db.updateJob job)
  | .appendAttempt rec => (.wrote true, db.appendAttempt rec)
  | .getJob jobId => (.row ((db.getJob jobId).map read), db)
  | .query q => (db.answer read q, db)

def calls (db : Database) (read : Job → Job) : List StoreCall → List StoreAnswer × Database
  | [] => ([], db)
  | c :: cs =>
      let rest := calls (db.call read c).2 read cs
      ((db.call read c).1 :: rest.1, rest.2)

/-- Inserts are for fresh ids, updates and attempts for ids whose insert has returned. -/
def Allows (db : Database) : StoreCall → Prop
  | .insertJob job => db.getJob job.jobId = none
  | .updateJob job => (db.getJob job.jobId).isSome
  | .appendAttempt rec => (db.getJob rec.jobId).isSome
  | _ => True

def AllowsAll (db : Database) (read : Job → Job) : List StoreCall → Prop
  | [] => True
  | c :: cs => db.Allows c ∧ AllowsAll (db.call read c).2 read cs

end Database

/-- A call with the flusher's steps before it and inside it. -/
structure PlacedCall where
  before : ℕ
  call : StoreCall
  /-- Steps while the call waits: for its commit, for the buffer, in `flush`, or between the cache and
  the database in `get_job`. -/
  during : ℕ
  /-- Steps between `flush` and the query. -/
  late : ℕ

namespace JobStore

/-- A call with `group_commit` on; `none` when it is still waiting after `during` flusher steps. -/
def call (s : JobStore) (read : Job → Job) (during late : ℕ) : StoreCall → Option (StoreAnswer × JobStore)
  | .insertJob job =>
      let queued := s.enqueueInserts [job]
      let s := queued.flusherSteps during
      if s.insertReturns queued.insertSeq then some (.wrote s.insertVerdict, s) else none
  | .updateJob job =>
      let s := if s.overHighWater then s.flusherSteps during else s
      some (.wrote true, s.bufferUpdate job)
  | .appendAttempt rec => some (.wrote true, s.appendAttempt rec)
  | .getJob jobId =>
      match s.cache.lookup jobId with
      | some v => some (.row (some v.job), s)
      | none => some (.row (((s.flusherSteps during).db.getJob jobId).map read), s.flusherSteps during)
  | .query q =>
      if (s.flusherSteps during).flushed then
        let s := (s.flusherSteps during).flusherSteps late
        some (s.db.answer read q, s)
      else none

def run (s : JobStore) (read : Job → Job) : List PlacedCall → Option (List StoreAnswer × JobStore)
  | [] => some ([], s)
  | p :: ps => do
      let (a, s) ← (s.flusherSteps p.before).call read p.during p.late p.call
      let (as, s) ← run s read ps
      return (a :: as, s)

end JobStore

namespace JobStore

/-- The writes the database has not seen, oldest first in each kind. -/
def uncommitted (s : JobStore) : Batch where
  inserts := s.flusher.uncommitted.inserts ++ s.pendingInserts
  updates := s.flusher.uncommitted.updates ++ s.pendingUpdates
  attempts := s.flusher.uncommitted.attempts ++ s.pendingAttempts

/-- The rows of `b` on top of `rows`. -/
def rowsAfter (rows : List Job) (b : Batch) : List Job :=
  Table.updateAll Job.jobId (rows ++ b.inserts.map (·.job.persisted)) (b.updates.map (·.job.persisted))

/-- The direct database `d` is the committed one with the uncommitted writes on top, and the cache holds
the newest of the uncommitted writes of each job. -/
structure Sim (s : JobStore) (d : Database) : Prop where
  jobs : d.jobs.rows = rowsAfter s.db.jobs.rows s.uncommitted
  attempts : d.attempts = s.uncommitted.attempts.foldl Table.upsert s.db.attempts
  workflows : d.workflows = s.db.workflows
  dependencies : d.dependencies = s.db.dependencies
  update_known : ∀ v ∈ s.flusher.flying.updates ++ s.pendingUpdates,
    v.job.jobId ∈ s.db.jobs.rows.map Job.jobId
  cache_row : ∀ id v, s.cache.lookup id = some v → d.jobs.lookup id = some v.job.persisted
  cached : ∀ v ∈ s.uncommitted.inserts ++ s.uncommitted.updates,
    ∃ newest, s.cache.lookup v.job.jobId = some newest ∧ v.version ≤ newest.version
  flying_older : ∀ v ∈ s.flusher.flying.inserts ++ s.flusher.flying.updates,
    ∀ w ∈ s.pendingInserts ++ s.pendingUpdates, v.job.jobId = w.job.jobId → v.version < w.version
  updates_sorted : s.pendingUpdates.Pairwise fun v w => v.version < w.version
  version_le : ∀ v ∈ (s.flusher.flying.inserts ++ s.flusher.flying.updates) ++
    (s.pendingInserts ++ s.pendingUpdates), v.version ≤ s.versionCounter
  inFlight_eq : s.inFlight = s.flusher.flying.size
  flying_pos : s.flusher = .waiting ∨ 0 < s.flusher.flying.size
  seq_sorted : (s.flusher.flying.inserts ++ s.pendingInserts).Pairwise fun v w => v.insertSeq < w.insertSeq
  seq_open : ∀ v ∈ s.flusher.flying.inserts ++ s.pendingInserts,
    s.committedInsertSeq < v.insertSeq ∧ v.insertSeq ≤ s.insertSeq
  committed_le : s.committedInsertSeq ≤ s.insertSeq
  seq_served : s.committedInsertSeq = s.insertSeq ∨
    ∃ v ∈ s.flusher.flying.inserts ++ s.pendingInserts, v.insertSeq = s.insertSeq
  no_error : s.lastFlushError = "" ∧ ∀ b e, s.flusher = .committed b e → e = none

/-- No insert is on its way: what every call but an insert in progress finds. -/
def Settled (s : JobStore) : Prop := s.flusher.flying.inserts = [] ∧ s.pendingInserts = []

theorem sim_open (cfg : StoreConfig) (db : Database) : Sim { cfg := cfg, db := db } db := by
  refine ⟨?_, rfl, rfl, rfl, ?_, ?_, ?_, ?_, ?_, ?_, rfl, Or.inl rfl, ?_, ?_, le_refl _, Or.inl rfl, rfl, ?_⟩ <;>
    simp [rowsAfter, uncommitted, FlusherPhase.uncommitted, FlusherPhase.flying, Table.updateAll]

theorem uncommitted_take {s : JobStore} (hw : s.flusher = .waiting) : s.take.uncommitted = s.uncommitted := by
  simp [uncommitted, take, hw, FlusherPhase.uncommitted, List.take_append_drop]

/-- Keys of the direct rows: those of the database, then those of the uncommitted inserts. -/
theorem Sim.keys {s : JobStore} {d : Database} (h : s.Sim d) :
    (s.db.jobs.rows.map Job.jobId ++ s.uncommitted.inserts.map (·.job.jobId)).Nodup := by
  have hnd := d.jobs.nodup
  rw [h.jobs, rowsAfter, Table.map_key_updateAll, List.map_append, List.map_map] at hnd
  exact hnd

/-- A queued insert is for a job that no queued update names. -/
theorem Sim.insert_ne_update {s : JobStore} {d : Database} (h : s.Sim d) {v w : VersionedJob}
    (hv : v ∈ s.uncommitted.inserts) (hw : w ∈ s.flusher.flying.updates ++ s.pendingUpdates) :
    v.job.jobId ≠ w.job.jobId := by
  intro hid
  have hdis := List.disjoint_of_nodup_append h.keys
  exact hdis (h.update_known w hw) (hid ▸ List.mem_map_of_mem hv)

theorem Sim.take {s : JobStore} {d : Database} (h : s.Sim d) (hbatch : 1 ≤ s.cfg.maxBatch)
    (hw : s.flusher = .waiting) (hpending : s.hasPendingLocked = true) : s.take.Sim d := by
  have hunc := uncommitted_take hw
  have hnofly : s.flusher.flying = {} := by rw [hw]; rfl
  have hunc_ins : s.uncommitted.inserts = s.pendingInserts := by simp [uncommitted, hw, FlusherPhase.uncommitted]
  have htake : s.take.flusher.flying.inserts ++ s.take.pendingInserts = s.pendingInserts :=
    List.take_append_drop _ _
  have htake' : s.take.flusher.flying.updates ++ s.take.pendingUpdates = s.pendingUpdates :=
    List.take_append_drop _ _
  have hins : ∀ v ∈ s.take.flusher.flying.inserts, v ∈ s.pendingInserts := fun v hv =>
    List.mem_of_mem_take hv
  have hups : ∀ v ∈ s.take.flusher.flying.updates, v ∈ s.pendingUpdates := fun v hv =>
    List.mem_of_mem_take hv
  have hins' : ∀ v ∈ s.take.pendingInserts, v ∈ s.pendingInserts := fun v hv => List.mem_of_mem_drop hv
  have hups' : ∀ v ∈ s.take.pendingUpdates, v ∈ s.pendingUpdates := fun v hv => List.mem_of_mem_drop hv
  have hcross : ∀ v ∈ s.pendingInserts, ∀ w ∈ s.pendingUpdates, v.job.jobId ≠ w.job.jobId := fun v hv w hw' =>
    h.insert_ne_update (hunc_ins ▸ hv) (List.mem_append_right _ hw')
  refine ⟨hunc ▸ h.jobs, hunc ▸ h.attempts, h.workflows, h.dependencies, ?_, h.cache_row, hunc ▸ h.cached, ?_,
    h.updates_sorted.drop, ?_, rfl, Or.inr ?_, ?_, ?_, h.committed_le, ?_, h.no_error.1,
    fun b e hc => by cases hc⟩
  · rw [htake']
    exact fun v hv => h.update_known v (List.mem_append_right _ hv)
  · intro v hv w hw' hid
    rcases List.mem_append.mp hv with hv | hv <;> rcases List.mem_append.mp hw' with hw' | hw'
    · have hnd := (List.nodup_append.mp h.keys).2.1
      rw [hunc_ins, ← htake, List.map_append] at hnd
      have hmem := List.disjoint_of_nodup_append hnd (List.mem_map_of_mem hv)
      exact absurd (hid ▸ List.mem_map_of_mem hw') hmem
    · exact absurd hid (hcross v (hins v hv) w (hups' w hw'))
    · exact absurd hid.symm (hcross w (hins' w hw') v (hups v hv))
    · have hsorted := h.updates_sorted
      rw [← htake', List.pairwise_append] at hsorted
      exact hsorted.2.2 v hv w hw'
  · intro v hv
    apply h.version_le v
    rw [hnofly]
    simp only [List.mem_append] at hv ⊢
    rcases hv with (hv | hv) | (hv | hv)
    · exact Or.inr (Or.inl (hins v hv))
    · exact Or.inr (Or.inr (hups v hv))
    · exact Or.inr (Or.inl (hins' v hv))
    · exact Or.inr (Or.inr (hups' v hv))
  · simp only [hasPendingLocked, Bool.or_eq_true, Bool.not_eq_true', List.isEmpty_eq_false_iff] at hpending
    change 0 < (s.pendingInserts.take s.cfg.maxBatch).length + (s.pendingUpdates.take s.cfg.maxBatch).length +
      (s.pendingAttempts.take s.cfg.maxBatch).length
    simp only [List.length_take]
    rcases hpending with (hp | hp) | hp <;> have := List.length_pos_iff.mpr hp <;> omega
  · rw [htake]
    have hsorted := h.seq_sorted
    rw [hnofly] at hsorted
    exact hsorted
  · rw [htake]
    exact fun v hv => h.seq_open v (List.mem_append_right _ hv)
  · have hserved := h.seq_served
    rw [hnofly] at hserved
    rw [htake]
    exact hserved

/-- A batch of fresh inserts commits. -/
theorem commitBatch_ok {db : Database} {b : Batch}
    (h : (db.jobs.rows.map Job.jobId ++ b.inserts.map (·.job.jobId)).Nodup) :
    ∃ db', db.commitBatch b = .ok db' ∧ db'.jobs.rows = rowsAfter db.jobs.rows b ∧
      db'.attempts = b.attempts.foldl Table.upsert db.attempts ∧ db'.workflows = db.workflows ∧
      db'.dependencies = db.dependencies := by
  have hnd : (db.jobs.rows.map Job.jobId ++ (b.inserts.map (·.job)).map Job.jobId).Nodup := by
    rw [List.map_map]
    exact h
  obtain ⟨t, ht, hok⟩ := Database.insertJobs_ok hnd
  refine ⟨{ db with
    jobs := ((b.updates.map (·.job)).map Job.persisted).foldl Table.update t
    attempts := b.attempts.foldl Table.upsert db.attempts }, ?_, ?_, rfl, rfl, rfl⟩
  · rw [Database.commitBatch, hok]
    change Except.ok (b.attempts.foldl Database.appendAttempt
      ((b.updates.map (·.job)).foldl Database.updateJob { db with jobs := t })) = _
    rw [Database.foldl_updateJob, Database.foldl_appendAttempt]
  · rw [Table.rows_foldl_update, ht, List.map_map, List.map_map]
    rfl

theorem Sim.commit {s : JobStore} {d : Database} (h : s.Sim d) {b : Batch} (hb : s.flusher = .taken b) :
    (s.commit none b).Sim d := by
  have hunc : s.uncommitted.inserts = b.inserts ++ s.pendingInserts := by
    simp [uncommitted, hb, FlusherPhase.uncommitted]
  have hunc' : s.uncommitted.updates = b.updates ++ s.pendingUpdates := by
    simp [uncommitted, hb, FlusherPhase.uncommitted]
  have hfly : s.flusher.flying = b := by rw [hb]; rfl
  have hnd := h.keys
  rw [hunc, List.map_append, ← List.append_assoc] at hnd
  obtain ⟨db', hok, hrows, hatt, hwf, hdeps⟩ := commitBatch_ok (List.nodup_append.mp hnd).1
  have hcommit : s.commit none b = { s with db := db', flusher := .committed b none } := by
    simp only [JobStore.commit, hok]
  have hkeys : ∀ id, id ∈ s.db.jobs.rows.map Job.jobId → id ∈ db'.jobs.rows.map Job.jobId := by
    intro id hid
    rw [hrows, rowsAfter, Table.map_key_updateAll, List.map_append]
    exact List.mem_append_left _ hid
  rw [hcommit]
  refine ⟨?_, ?_, h.workflows.trans hwf.symm, h.dependencies.trans hdeps.symm, ?_, h.cache_row, ?_,
    hfly ▸ h.flying_older, h.updates_sorted, hfly ▸ h.version_le, hfly ▸ h.inFlight_eq,
    Or.inr ?_, hfly ▸ h.seq_sorted, hfly ▸ h.seq_open, h.committed_le, hfly ▸ h.seq_served,
    h.no_error.1, ?_⟩
  · -- the pending inserts commute with the updates of the batch: those name other jobs
    have hother : ∀ r ∈ b.updates.map (·.job.persisted),
        r.jobId ∉ (s.pendingInserts.map (·.job.persisted)).map Job.jobId := by
      intro r hr hmem
      obtain ⟨w, hw, rfl⟩ := List.mem_map.mp hr
      rw [List.map_map] at hmem
      obtain ⟨v, hv, hid⟩ := List.mem_map.mp hmem
      refine h.insert_ne_update (v := v) (w := w) ?_ ?_ hid
      · rw [hunc]
        exact List.mem_append_right _ hv
      · rw [hfly]
        exact List.mem_append_left _ hw
    rw [h.jobs, rowsAfter, rowsAfter, hunc, hunc', hrows, rowsAfter]
    simp only [uncommitted, FlusherPhase.uncommitted, List.map_append, List.nil_append]
    rw [← List.append_assoc, Table.updateAll_updates_append, Table.updateAll_append,
      Table.updateAll_of_disjoint hother]
  · rw [h.attempts, hatt]
    simp only [uncommitted, hb, FlusherPhase.uncommitted, List.nil_append, List.foldl_append]
  · exact fun v hv => hkeys _ (h.update_known v (hfly ▸ hv))
  · intro v hv
    apply h.cached v
    rw [hunc, hunc']
    simp only [uncommitted, FlusherPhase.uncommitted, List.nil_append, List.mem_append] at hv ⊢
    exact hv.imp Or.inr Or.inr
  · rcases h.flying_pos with hw | hpos
    · rw [hb] at hw
      cases hw
    · exact hfly ▸ hpos
  · rintro _ _ ⟨⟩
    rfl

theorem retireRow_lookup {cache : AList (fun _ : JobId => VersionedJob)} {v w : VersionedJob} {id : JobId}
    (h : (retireRow cache v).lookup id = some w) : cache.lookup id = some w := by
  unfold retireRow at h
  split at h
  · split_ifs at h with hv
    · by_cases hid : id = v.job.jobId
      · rw [hid, AList.lookup_erase] at h
        cases h
      · rwa [AList.lookup_erase_ne hid] at h
    · exact h
  · exact h

theorem foldl_retireRow_lookup {vs : List VersionedJob} {cache : AList (fun _ : JobId => VersionedJob)}
    {w : VersionedJob} {id : JobId} (h : (vs.foldl retireRow cache).lookup id = some w) :
    cache.lookup id = some w := by
  induction vs generalizing cache with
  | nil => exact h
  | cons v vs ih => exact retireRow_lookup (ih h)

/-- An entry stays while no retired row has its version. -/
theorem foldl_retireRow_kept {vs : List VersionedJob} {cache : AList (fun _ : JobId => VersionedJob)}
    {w : VersionedJob} {id : JobId} (h : cache.lookup id = some w)
    (hne : ∀ v ∈ vs, v.job.jobId = id → v.version ≠ w.version) :
    (vs.foldl retireRow cache).lookup id = some w := by
  induction vs generalizing cache with
  | nil => exact h
  | cons v vs ih =>
      apply ih _ fun x hx => hne x (List.mem_cons_of_mem _ hx)
      unfold retireRow
      by_cases hid : v.job.jobId = id
      · have hnv : w.version ≠ v.version := fun hc => hne v List.mem_cons_self hid hc.symm
        rw [hid, h]
        simp only [if_neg hnv]
        exact h
      · split
        · split_ifs
          · rwa [AList.lookup_erase_ne (Ne.symm hid)]
          · exact h
        · exact h

theorem Sim.retire {s : JobStore} {d : Database} (h : s.Sim d) {b : Batch} {e : Option String}
    (hb : s.flusher = .committed b e) : (s.retire b e).Sim d := by
  have hfly : s.flusher.flying = b := by rw [hb]; rfl
  have he : e = none := h.no_error.2 b e hb
  have hunc : (s.retire b e).uncommitted = s.uncommitted := by
    simp [uncommitted, JobStore.retire, hb, FlusherPhase.uncommitted]
  have hunc_ins : s.uncommitted.inserts = s.pendingInserts := by
    simp [uncommitted, hb, FlusherPhase.uncommitted]
  have hunc_ups : s.uncommitted.updates = s.pendingUpdates := by
    simp [uncommitted, hb, FlusherPhase.uncommitted]
  have hseq := h.seq_open
  have hsorted := h.seq_sorted
  rw [hfly] at hseq hsorted
  refine ⟨hunc ▸ h.jobs, hunc ▸ h.attempts, h.workflows, h.dependencies, ?_, ?_, ?_, ?_, h.updates_sorted, ?_, rfl,
    Or.inl rfl, ?_, ?_, ?_, ?_, ?_, fun _ _ hc => by cases hc⟩
  · exact fun v hv => h.update_known v (List.mem_append_right _ hv)
  · intro id v hv
    exact h.cache_row id v (foldl_retireRow_lookup (foldl_retireRow_lookup hv))
  · rw [hunc]
    intro w hw
    obtain ⟨newest, hnewest, hle⟩ := h.cached w hw
    have hpend : w ∈ s.pendingInserts ++ s.pendingUpdates := by rwa [hunc_ins, hunc_ups] at hw
    have hne : ∀ v ∈ b.inserts ++ b.updates, v.job.jobId = w.job.jobId → v.version ≠ newest.version := by
      intro v hv hid
      have hlt := h.flying_older v (hfly ▸ hv) w hpend hid
      omega
    refine ⟨newest, ?_, hle⟩
    apply foldl_retireRow_kept (foldl_retireRow_kept hnewest _)
    · exact fun v hv => hne v (List.mem_append_right _ hv)
    · exact fun v hv => hne v (List.mem_append_left _ hv)
  · exact fun v hv => absurd hv List.not_mem_nil
  · exact fun v hv => h.version_le v (List.mem_append_right _ hv)
  · exact (List.pairwise_append.mp hsorted).2.1
  · intro v hv
    obtain ⟨hlt, hle⟩ := hseq v (List.mem_append_right _ hv)
    refine ⟨?_, hle⟩
    change (if s.committedInsertSeq < b.insertSeq then b.insertSeq else s.committedInsertSeq) < v.insertSeq
    split_ifs with hc
    · obtain ⟨x, hx, hxseq⟩ := b.insertSeq_mem hc
      rw [← hxseq]
      exact (List.pairwise_append.mp hsorted).2.2 x hx v hv
    · exact hlt
  · change (if s.committedInsertSeq < b.insertSeq then b.insertSeq else s.committedInsertSeq) ≤ s.insertSeq
    split_ifs with hc
    · obtain ⟨x, hx, hxseq⟩ := b.insertSeq_mem hc
      rw [← hxseq]
      exact (hseq x (List.mem_append_left _ hx)).2
    · exact h.committed_le
  · change (if s.committedInsertSeq < b.insertSeq then b.insertSeq else s.committedInsertSeq) = s.insertSeq ∨ _
    have hserved := h.seq_served
    rw [hfly] at hserved
    rcases hserved with heq | ⟨v, hv, hvseq⟩
    · refine Or.inl ?_
      split_ifs with hc
      · obtain ⟨x, hx, hxseq⟩ := b.insertSeq_mem hc
        have := (hseq x (List.mem_append_left _ hx)).2
        omega
      · exact heq
    · rcases List.mem_append.mp hv with hv | hv
      · have hle := b.le_insertSeq ((List.pairwise_append.mp hsorted).1.imp le_of_lt) hv
        have hlt := (hseq v (List.mem_append_left _ hv)).1
        obtain ⟨x, hx, hxseq⟩ := b.insertSeq_mem (hlt.trans_le hle)
        have := (hseq x (List.mem_append_left _ hx)).2
        refine Or.inl ?_
        rw [if_pos (hlt.trans_le hle)]
        omega
      · exact Or.inr ⟨v, hv, hvseq⟩
  · rw [he]
    exact h.no_error.1

/-- **A flusher step is invisible.** -/
theorem Sim.flusherStep {s : JobStore} {d : Database} (h : s.Sim d) (hbatch : 1 ≤ s.cfg.maxBatch) :
    (s.flusherStep none).Sim d := by
  unfold JobStore.flusherStep
  split
  · next hw =>
      split_ifs with hp
      · exact h.take hbatch hw hp
      · exact h
  · next b hb => exact h.commit hb
  · next b e hb => exact h.retire hb

@[simp] theorem flusherStep_cfg (s : JobStore) (fault : Option SqlError) : (s.flusherStep fault).cfg = s.cfg := by
  unfold flusherStep commit
  split
  · split_ifs <;> rfl
  · split
    · rfl
    · split <;> rfl
  · rfl

theorem flusherSteps_succ (s : JobStore) (n : ℕ) :
    s.flusherSteps (n + 1) = (s.flusherStep none).flusherSteps n := rfl

@[simp] theorem flusherSteps_cfg (s : JobStore) (n : ℕ) : (s.flusherSteps n).cfg = s.cfg := by
  induction n generalizing s with
  | zero => rfl
  | succ n ih => rw [flusherSteps_succ, ih, flusherStep_cfg]

theorem Sim.flusherSteps {s : JobStore} {d : Database} (h : s.Sim d) (hbatch : 1 ≤ s.cfg.maxBatch) (n : ℕ) :
    (s.flusherSteps n).Sim d := by
  induction n generalizing s with
  | zero => exact h
  | succ n ih => exact ih (h.flusherStep hbatch) (by rwa [flusherStep_cfg])

/-- The flusher brings no insert back. -/
theorem Settled.flusherSteps {s : JobStore} (h : s.Settled) (n : ℕ) : (s.flusherSteps n).Settled := by
  induction n generalizing s with
  | zero => exact h
  | succ n ih =>
      rw [flusherSteps_succ]
      apply ih
      obtain ⟨hfly, hpend⟩ := h
      unfold JobStore.flusherStep
      split
      · split_ifs
        · exact ⟨by simp [JobStore.take, FlusherPhase.flying, hpend], by simp [JobStore.take, hpend]⟩
        · exact ⟨hfly, hpend⟩
      · next b hb =>
          rw [hb] at hfly
          unfold JobStore.commit
          split
          · exact ⟨hfly, hpend⟩
          · split <;> exact ⟨hfly, hpend⟩
      · exact ⟨rfl, hpend⟩

/-- Once its sequence number is committed, no insert is on its way. -/
theorem Sim.settled {s : JobStore} {d : Database} (h : s.Sim d) (hret : s.insertReturns s.insertSeq = true) :
    s.Settled := by
  have hle : s.insertSeq ≤ s.committedInsertSeq := of_decide_eq_true hret
  have hnone : s.flusher.flying.inserts ++ s.pendingInserts = [] := by
    apply List.eq_nil_iff_forall_not_mem.mpr
    intro v hv
    have := h.seq_open v hv
    omega
  exact List.append_eq_nil_iff.mp hnone

theorem flusherSteps_insertSeq (s : JobStore) (n : ℕ) : (s.flusherSteps n).insertSeq = s.insertSeq := by
  induction n generalizing s with
  | zero => rfl
  | succ n ih =>
      rw [flusherSteps_succ, ih]
      unfold flusherStep commit
      split
      · split_ifs <;> rfl
      · split
        · rfl
        · split <;> rfl
      · rfl

/-- The known ids of a settled store are those of its database. -/
theorem Sim.known {s : JobStore} {d : Database} (h : s.Sim d) (hs : s.Settled) :
    d.jobs.rows.map Job.jobId = s.db.jobs.rows.map Job.jobId := by
  have hnone : s.uncommitted.inserts = [] := by
    have hunc : s.flusher.uncommitted.inserts = [] := by
      have hfly := hs.1
      revert hfly
      cases s.flusher <;> simp [FlusherPhase.uncommitted, FlusherPhase.flying]
    simp [uncommitted, hunc, hs.2]
  rw [h.jobs, rowsAfter, Table.map_key_updateAll, hnone, List.map_nil, List.append_nil]

theorem uncommitted_updates_sub (s : JobStore) {w : VersionedJob} (hw : w ∈ s.uncommitted.updates) :
    w ∈ s.flusher.flying.updates ++ s.pendingUpdates := by
  unfold uncommitted at hw
  rcases List.mem_append.mp hw with hw | hw
  · apply List.mem_append_left
    revert hw
    cases s.flusher <;> simp [FlusherPhase.uncommitted, FlusherPhase.flying]
  · exact List.mem_append_right _ hw

theorem uncommitted_inserts_sub (s : JobStore) {w : VersionedJob} (hw : w ∈ s.uncommitted.inserts) :
    w ∈ s.flusher.flying.inserts ++ s.pendingInserts := by
  unfold uncommitted at hw
  rcases List.mem_append.mp hw with hw | hw
  · apply List.mem_append_left
    revert hw
    cases s.flusher <;> simp [FlusherPhase.uncommitted, FlusherPhase.flying]
  · exact List.mem_append_right _ hw

/-- An uncommitted write is older than the version counter. -/
theorem Sim.uncommitted_version_le {s : JobStore} {d : Database} (h : s.Sim d) {v : VersionedJob}
    (hv : v ∈ s.uncommitted.inserts ++ s.uncommitted.updates) : v.version ≤ s.versionCounter := by
  apply h.version_le v
  have hmem : v ∈ s.flusher.flying.inserts ++ s.pendingInserts ∨
      v ∈ s.flusher.flying.updates ++ s.pendingUpdates :=
    (List.mem_append.mp hv).imp s.uncommitted_inserts_sub s.uncommitted_updates_sub
  simp only [List.mem_append] at hmem ⊢
  tauto

/-- The cache after a new version of `id` was put in. -/
theorem Sim.cached_insert {s : JobStore} {d : Database} (h : s.Sim d) {v w : VersionedJob}
    (hversion : v.version = s.versionCounter + 1)
    (hw : w ∈ s.uncommitted.inserts ++ s.uncommitted.updates ∨ w = v) :
    ∃ newest, (s.cache.insert v.job.jobId v).lookup w.job.jobId = some newest ∧
      w.version ≤ newest.version := by
  by_cases hid : w.job.jobId = v.job.jobId
  · rw [hid, AList.lookup_insert]
    refine ⟨v, rfl, ?_⟩
    rcases hw with hw | rfl
    · have := h.uncommitted_version_le hw
      omega
    · exact le_refl _
  · rw [AList.lookup_insert_ne hid]
    rcases hw with hw | rfl
    · exact h.cached w hw
    · exact absurd rfl hid

theorem Sim.insertJob {s : JobStore} {d : Database} (h : s.Sim d) (read : Job → Job) {job : Job}
    (hfresh : d.getJob job.jobId = none) :
    ∃ d', d.call read (.insertJob job) = (.wrote true, d') ∧ (s.enqueueInserts [job]).Sim d' := by
  have hnotmem : job.jobId ∉ d.jobs.rows.map Job.jobId := Table.lookup_eq_none.mp hfresh
  obtain ⟨t, hins, hwrite⟩ := Database.writeJobRow_of_fresh hfresh
  have ht : t.rows = d.jobs.rows ++ [job.persisted] := (Table.insert_eq_some.mp hins).2
  have hrow : ∀ id, t.lookup id = if job.jobId = id then some job.persisted else d.jobs.lookup id :=
    fun id => Table.lookup_of_insert hins
  have hknown : ∀ v ∈ s.flusher.flying.updates ++ s.pendingUpdates, v.job.jobId ≠ job.jobId := by
    intro v hv hid
    apply hnotmem
    rw [h.jobs, rowsAfter, Table.map_key_updateAll, List.map_append]
    exact List.mem_append_left _ (hid ▸ h.update_known v hv)
  let v : VersionedJob := { version := s.versionCounter + 1, insertSeq := s.insertSeq + 1, job }
  have hpend : (s.enqueueInserts [job]).pendingInserts = s.pendingInserts ++ [v] := rfl
  refine ⟨{ d with jobs := t }, by simp only [Database.call, hwrite], ?_⟩
  refine ⟨?_, h.attempts, h.workflows, h.dependencies, h.update_known, ?_, ?_, ?_, h.updates_sorted, ?_,
    h.inFlight_eq, h.flying_pos, ?_, ?_, Nat.le_succ_of_le h.committed_le,
    Or.inr ⟨v, by rw [hpend]; simp, rfl⟩, h.no_error⟩
  · have hother : ∀ r ∈ s.uncommitted.updates.map (·.job.persisted), r.jobId ∉ [job.persisted].map Job.jobId := by
      intro r hr hmem
      obtain ⟨w, hw, rfl⟩ := List.mem_map.mp hr
      have hsub : w ∈ s.flusher.flying.updates ++ s.pendingUpdates := s.uncommitted_updates_sub hw
      exact hknown w hsub (List.mem_singleton.mp hmem)
    have hunc : (s.enqueueInserts [job]).uncommitted.inserts = s.uncommitted.inserts ++ [v] :=
      (List.append_assoc _ _ _).symm
    rw [rowsAfter, hunc, List.map_append, ← List.append_assoc, Table.updateAll_append]
    change t.rows = rowsAfter s.db.jobs.rows s.uncommitted ++ Table.updateAll Job.jobId [job.persisted] _
    rw [← h.jobs, ht]
    exact congrArg (d.jobs.rows ++ ·) (Table.updateAll_of_disjoint hother).symm
  · intro id w hw
    change (s.cache.insert job.jobId v).lookup id = some w at hw
    by_cases hid : id = job.jobId
    · rw [hid, AList.lookup_insert, Option.some.injEq] at hw
      rw [hrow, if_pos hid.symm, ← hw]
    · rw [AList.lookup_insert_ne hid] at hw
      rw [hrow, if_neg (Ne.symm hid)]
      exact h.cache_row id w hw
  · intro w hw
    apply h.cached_insert (v := v) rfl
    simp only [uncommitted, hpend, List.mem_append, List.mem_singleton] at hw ⊢
    tauto
  · intro u hu w hw hid
    rw [hpend, List.mem_append, List.mem_append] at hw
    have hle := h.version_le u (List.mem_append_left _ hu)
    rcases hw with (hw | hw) | hw
    · exact h.flying_older u hu w (List.mem_append_left _ hw) hid
    · rw [List.mem_singleton.mp hw]
      exact Nat.lt_succ_of_le hle
    · exact h.flying_older u hu w (List.mem_append_right _ hw) hid
  · intro u hu
    rw [hpend] at hu
    simp only [List.mem_append, List.mem_singleton] at hu
    have hold : ∀ u, u ∈ (s.flusher.flying.inserts ++ s.flusher.flying.updates) ++
        (s.pendingInserts ++ s.pendingUpdates) → u.version ≤ s.versionCounter + 1 :=
      fun u hu => Nat.le_succ_of_le (h.version_le u hu)
    rcases hu with hu | (hu | rfl) | hu
    · exact hold u (List.mem_append_left _ (List.mem_append.mpr hu))
    · exact hold u (List.mem_append_right _ (List.mem_append_left _ hu))
    · exact le_refl _
    · exact hold u (List.mem_append_right _ (List.mem_append_right _ hu))
  · rw [hpend, ← List.append_assoc, List.pairwise_append]
    refine ⟨h.seq_sorted, List.pairwise_singleton _ _, ?_⟩
    intro u hu w hw
    rw [List.mem_singleton.mp hw]
    exact Nat.lt_succ_of_le (h.seq_open u hu).2
  · intro u hu
    rw [hpend, ← List.append_assoc, List.mem_append] at hu
    rcases hu with hu | hu
    · exact ⟨(h.seq_open u hu).1, Nat.le_succ_of_le (h.seq_open u hu).2⟩
    · rw [List.mem_singleton.mp hu]
      exact ⟨Nat.lt_succ_of_le h.committed_le, le_refl _⟩

theorem Sim.updateJob {s : JobStore} {d : Database} (h : s.Sim d) (hs : s.Settled) {job : Job}
    (hknown : (d.getJob job.jobId).isSome) : (s.bufferUpdate job).Sim (d.updateJob job) := by
  let v : VersionedJob := { version := s.versionCounter + 1, job }
  have hpend : (s.bufferUpdate job).pendingUpdates = s.pendingUpdates ++ [v] := rfl
  have hmem : job.jobId ∈ s.db.jobs.rows.map Job.jobId := by
    rw [← h.known hs]
    by_contra hc
    rw [Database.getJob, Table.lookup_eq_none.mpr hc] at hknown
    cases hknown
  refine ⟨?_, h.attempts, h.workflows, h.dependencies, ?_, ?_, ?_, ?_, ?_, ?_,
    h.inFlight_eq, h.flying_pos, h.seq_sorted, h.seq_open, h.committed_le, h.seq_served, h.no_error⟩
  · have hunc : (s.bufferUpdate job).uncommitted.updates = s.uncommitted.updates ++ [v] :=
      (List.append_assoc _ _ _).symm
    rw [rowsAfter, hunc, List.map_append, Table.updateAll_updates_append]
    change Table.updateRows d.jobs.rows job.persisted Job.jobId =
      Table.updateAll Job.jobId (rowsAfter s.db.jobs.rows s.uncommitted) [job.persisted]
    rw [← h.jobs]
    rfl
  · intro w hw
    rw [hpend, ← List.append_assoc, List.mem_append] at hw
    rcases hw with hw | hw
    · exact h.update_known w hw
    · rw [List.mem_singleton.mp hw]
      exact hmem
  · intro id w hw
    change (s.cache.insert job.jobId v).lookup id = some w at hw
    change (d.jobs.update job.persisted).lookup id = _
    rw [Table.lookup_update]
    by_cases hid : id = job.jobId
    · rw [hid, AList.lookup_insert, Option.some.injEq] at hw
      obtain ⟨old, hold⟩ := Option.isSome_iff_exists.mp hknown
      rw [Job.persisted_jobId, if_pos hid.symm, hid]
      change (d.getJob job.jobId).map _ = _
      rw [hold, ← hw]
      rfl
    · rw [AList.lookup_insert_ne hid] at hw
      rw [Job.persisted_jobId, if_neg (Ne.symm hid)]
      exact h.cache_row id w hw
  · intro w hw
    apply h.cached_insert (v := v) rfl
    simp only [uncommitted, hpend, List.mem_append, List.mem_singleton] at hw ⊢
    tauto
  · intro u hu w hw hid
    rw [hpend, ← List.append_assoc, List.mem_append] at hw
    rcases hw with hw | hw
    · exact h.flying_older u hu w hw hid
    · rw [List.mem_singleton.mp hw]
      exact Nat.lt_succ_of_le (h.version_le u (List.mem_append_left _ hu))
  · rw [hpend, List.pairwise_append]
    refine ⟨h.updates_sorted, List.pairwise_singleton _ _, ?_⟩
    intro u hu w hw
    rw [List.mem_singleton.mp hw]
    exact Nat.lt_succ_of_le (h.version_le u (List.mem_append_right _ (List.mem_append_right _ hu)))
  · intro u hu
    rw [hpend, ← List.append_assoc, ← List.append_assoc, List.mem_append] at hu
    rcases hu with hu | hu
    · exact Nat.le_succ_of_le (h.version_le u (by rwa [← List.append_assoc]))
    · rw [List.mem_singleton.mp hu]
      exact le_refl _

theorem Sim.appendAttempt {s : JobStore} {d : Database} (h : s.Sim d) (rec : AttemptRecord) :
    (s.appendAttempt rec).Sim (d.appendAttempt rec) := by
  refine ⟨h.jobs, ?_, h.workflows, h.dependencies, h.update_known, h.cache_row, h.cached, h.flying_older,
    h.updates_sorted, fun v hv => Nat.le_succ_of_le (h.version_le v hv), h.inFlight_eq, h.flying_pos,
    h.seq_sorted, h.seq_open, h.committed_le, h.seq_served, h.no_error⟩
  have hunc : (s.appendAttempt rec).uncommitted.attempts = s.uncommitted.attempts ++ [rec] :=
    (List.append_assoc _ _ _).symm
  rw [hunc, List.foldl_append]
  change d.attempts.upsert rec = _
  rw [h.attempts]
  rfl

theorem lookup_of_flusherStep {s : JobStore} {id : JobId} {v : VersionedJob}
    (h : (s.flusherStep none).cache.lookup id = some v) : s.cache.lookup id = some v := by
  revert h
  unfold flusherStep commit
  split
  · split_ifs <;> exact fun h => h
  · split
    · exact fun h => h
    · split <;> exact fun h => h
  · exact fun h => foldl_retireRow_lookup (foldl_retireRow_lookup h)

/-- The flusher puts nothing into the cache. -/
theorem lookup_of_flusherSteps {s : JobStore} {id : JobId} {v : VersionedJob} {n : ℕ}
    (h : (s.flusherSteps n).cache.lookup id = some v) : s.cache.lookup id = some v := by
  induction n generalizing s with
  | zero => exact h
  | succ n ih => exact lookup_of_flusherStep (ih h)

theorem flusherSteps_cache_none {s : JobStore} {id : JobId} (h : s.cache.lookup id = none) (n : ℕ) :
    (s.flusherSteps n).cache.lookup id = none := by
  cases hc : (s.flusherSteps n).cache.lookup id with
  | none => rfl
  | some w =>
      rw [lookup_of_flusherSteps hc] at h
      cases h

/-- A job without a cache entry has no uncommitted write. -/
theorem Sim.getJob_of_miss {s : JobStore} {d : Database} (h : s.Sim d) {id : JobId}
    (hmiss : s.cache.lookup id = none) : s.db.getJob id = d.getJob id := by
  have hne : ∀ v ∈ s.uncommitted.inserts ++ s.uncommitted.updates, v.job.jobId ≠ id := by
    rintro v hv rfl
    obtain ⟨newest, hnewest, -⟩ := h.cached v hv
    rw [hmiss] at hnewest
    cases hnewest
  apply Option.ext
  intro x
  rw [Database.getJob, Database.getJob, Table.lookup_eq_some, Table.lookup_eq_some, h.jobs, rowsAfter]
  apply and_congr_left
  rintro rfl
  have hups : ∀ r ∈ s.uncommitted.updates.map (·.job.persisted), r.jobId ≠ x.jobId := by
    intro r hr
    obtain ⟨v, hv, rfl⟩ := List.mem_map.mp hr
    exact hne v (List.mem_append_right _ hv)
  rw [Table.mem_updateAll_of_ne hups, List.mem_append]
  refine ⟨Or.inl, ?_⟩
  rintro (hx | hx)
  · exact hx
  · obtain ⟨v, hv, rfl⟩ := List.mem_map.mp hx
    exact absurd rfl (hne v (List.mem_append_left _ hv))

theorem flushed_iff {s : JobStore} : s.flushed = true ↔ s.hasPendingLocked = false ∧ s.inFlight = 0 := by
  simp [flushed]

theorem Sim.waiting_of_flushed {s : JobStore} {d : Database} (h : s.Sim d) (hf : s.flushed = true) :
    s.flusher = .waiting := by
  rcases h.flying_pos with hw | hpos
  · exact hw
  · have := h.inFlight_eq
    have := (flushed_iff.mp hf).2
    omega

theorem Sim.eq_of_flushed {s : JobStore} {d : Database} (h : s.Sim d) (hf : s.flushed = true) : s.db = d := by
  have hw := h.waiting_of_flushed hf
  have hp := (flushed_iff.mp hf).1
  simp only [hasPendingLocked, Bool.or_eq_false_iff, Bool.not_eq_false', List.isEmpty_iff] at hp
  obtain ⟨⟨hi, hu⟩, ha⟩ := hp
  have hunc : s.uncommitted = {} := by simp [uncommitted, hw, FlusherPhase.uncommitted, hi, hu, ha]
  have hjobs := h.jobs
  have hatt := h.attempts
  rw [hunc] at hjobs hatt
  simp only [rowsAfter, List.map_nil, List.append_nil, Table.updateAll, List.foldl_nil] at hjobs hatt
  rcases d with ⟨jobs, attempts, workflows, dependencies⟩
  rcases hdb : s.db with ⟨jobs', attempts', workflows', dependencies'⟩
  have hw := h.workflows
  have hd := h.dependencies
  simp only [hdb] at hjobs hatt hw hd
  rw [Table.ext hjobs, hatt, hw, hd]

theorem flusherSteps_of_flushed {s : JobStore} (hw : s.flusher = .waiting) (hp : s.hasPendingLocked = false)
    (n : ℕ) : s.flusherSteps n = s := by
  induction n with
  | zero => rfl
  | succ n ih =>
      have hstep : s.flusherStep none = s := by simp [flusherStep, hw, hp]
      rw [flusherSteps_succ, hstep, ih]

/-- Every row of the cache is one that the table would give back as it is. -/
def Keeping (s : JobStore) (read : Job → Job) : Prop :=
  ∀ id v, s.cache.lookup id = some v → read v.job = v.job.columns

section Answers

variable {s s' : JobStore} {d : Database} {read : Job → Job} {during late : ℕ} {a : StoreAnswer}

theorem Keeping.flusherSteps (h : s.Keeping read) (n : ℕ) : (s.flusherSteps n).Keeping read :=
  fun id v hv => h id v (lookup_of_flusherSteps hv)

theorem Keeping.insert (h : s.Keeping read) {v : VersionedJob} (hcache : s'.cache = s.cache.insert v.job.jobId v)
    (hv : read v.job = v.job.columns) : s'.Keeping read := by
  intro id w hw
  rw [hcache] at hw
  by_cases hid : id = v.job.jobId
  · rw [hid, AList.lookup_insert, Option.some.injEq] at hw
    rw [← hw]
    exact hv
  · rw [AList.lookup_insert_ne hid] at hw
    exact h id w hw

theorem Keeping.call (h : s.Keeping read) {c : StoreCall}
    (hc : ∀ job, c.writes = some job → read job = job.columns)
    (hcall : s.call read during late c = some (a, s')) : s'.Keeping read := by
  cases c with
  | insertJob job =>
      simp only [JobStore.call] at hcall
      split_ifs at hcall
      cases hcall
      have hqueued : (s.enqueueInserts [job]).Keeping read :=
        h.insert (v := ⟨s.versionCounter + 1, s.insertSeq + 1, job⟩) rfl (hc job rfl)
      exact hqueued.flusherSteps during
  | updateJob job =>
      cases hcall
      split_ifs
      · exact (h.flusherSteps during).insert (v := ⟨_, 0, job⟩) rfl (hc job rfl)
      · exact h.insert (v := ⟨_, 0, job⟩) rfl (hc job rfl)
  | appendAttempt rec =>
      cases hcall
      exact h
  | getJob id =>
      simp only [JobStore.call] at hcall
      split at hcall
      · cases hcall
        exact h
      · cases hcall
        exact h.flusherSteps during
  | query q =>
      simp only [JobStore.call] at hcall
      split_ifs at hcall
      cases hcall
      exact (h.flusherSteps during).flusherSteps late

/-- A query reads the direct database. -/
theorem Sim.query (h : s.Sim d) (hbatch : 1 ≤ s.cfg.maxBatch) {q : StoreQuery}
    (hcall : s.call read during late (.query q) = some (a, s')) :
    a = d.answer read q ∧ s' = s.flusherSteps during := by
  simp only [JobStore.call] at hcall
  split_ifs at hcall with hf
  simp only [Option.some.injEq, Prod.mk.injEq] at hcall
  obtain ⟨rfl, rfl⟩ := hcall
  have hsim := h.flusherSteps hbatch during
  have hidle := flusherSteps_of_flushed (hsim.waiting_of_flushed hf) (flushed_iff.mp hf).1 late
  rw [hidle, hsim.eq_of_flushed hf]
  exact ⟨rfl, rfl⟩

/-- **A call that returns gives the direct store's answer**, on the persisted columns. -/
theorem Sim.call (h : s.Sim d) (hs : s.Settled) (hbatch : 1 ≤ s.cfg.maxBatch)
    (hread : ∀ job : Job, read job.persisted = read job) (hkeep : s.Keeping read) {c : StoreCall} (hc : d.Allows c)
    (hcall : s.call read during late c = some (a, s')) :
    a.columns = (d.call read c).1.columns ∧ s'.Sim (d.call read c).2 ∧ s'.Settled ∧ s'.cfg = s.cfg := by
  cases c with
  | insertJob job =>
      obtain ⟨d', hd', hsim⟩ := h.insertJob read hc
      have hsim' := hsim.flusherSteps hbatch during
      simp only [JobStore.call] at hcall
      split_ifs at hcall with hret
      simp only [Option.some.injEq, Prod.mk.injEq] at hcall
      obtain ⟨rfl, rfl⟩ := hcall
      rw [← flusherSteps_insertSeq _ during] at hret
      rw [hd']
      refine ⟨?_, hsim', hsim'.settled hret, by rw [flusherSteps_cfg]; rfl⟩
      rw [insertVerdict, hsim'.no_error.1]
      rfl
  | updateJob job =>
      simp only [JobStore.call, Option.some.injEq, Prod.mk.injEq] at hcall
      obtain ⟨rfl, rfl⟩ := hcall
      split_ifs
      · exact ⟨rfl, (h.flusherSteps hbatch during).updateJob (hs.flusherSteps during) hc, hs.flusherSteps during,
          by rw [← flusherSteps_cfg s during]; rfl⟩
      · exact ⟨rfl, h.updateJob hs hc, hs, rfl⟩
  | appendAttempt rec =>
      simp only [JobStore.call, Option.some.injEq, Prod.mk.injEq] at hcall
      obtain ⟨rfl, rfl⟩ := hcall
      exact ⟨rfl, h.appendAttempt rec, hs, rfl⟩
  | getJob id =>
      simp only [JobStore.call] at hcall
      cases hlook : s.cache.lookup id with
      | some v =>
          rw [hlook] at hcall
          simp only [Option.some.injEq, Prod.mk.injEq] at hcall
          obtain ⟨rfl, rfl⟩ := hcall
          refine ⟨?_, h, hs, rfl⟩
          -- the table gives the row of the cache back
          have hrow : d.getJob id = some v.job.persisted := h.cache_row id v hlook
          rw [Database.call, hrow, Option.map_some, hread, hkeep id v hlook]
          rfl
      | none =>
          rw [hlook] at hcall
          simp only [Option.some.injEq, Prod.mk.injEq] at hcall
          obtain ⟨rfl, rfl⟩ := hcall
          have hsim := h.flusherSteps hbatch during
          refine ⟨?_, hsim, hs.flusherSteps during, flusherSteps_cfg s during⟩
          rw [hsim.getJob_of_miss (flusherSteps_cache_none hlook during)]
          rfl
  | query q =>
      obtain ⟨rfl, rfl⟩ := h.query hbatch hcall
      exact ⟨rfl, h.flusherSteps hbatch during, hs.flusherSteps during, flusherSteps_cfg s during⟩

end Answers

/-- The steps the flusher still needs, at most. -/
def workLeft (s : JobStore) : ℕ :=
  3 * s.buffered + match s.flusher with
    | .waiting => 0
    | .taken _ => 2
    | .committed _ _ => 1

theorem hasPendingLocked_eq_false {s : JobStore} : s.hasPendingLocked = false ↔ s.buffered = 0 := by
  simp only [hasPendingLocked, buffered, Bool.or_eq_false_iff, Bool.not_eq_false', List.isEmpty_iff,
    Nat.add_eq_zero_iff, List.length_eq_zero_iff]

theorem workLeft_eq_zero {s : JobStore} :
    s.workLeft = 0 ↔ s.flusher = .waiting ∧ s.hasPendingLocked = false := by
  rw [hasPendingLocked_eq_false, workLeft]
  cases s.flusher <;> simp

/-- Each flusher step makes progress until nothing is left. -/
theorem workLeft_flusherStep {s : JobStore} (hbatch : 1 ≤ s.cfg.maxBatch) (h : s.workLeft ≠ 0) :
    (s.flusherStep none).workLeft < s.workLeft := by
  unfold flusherStep
  cases hf : s.flusher with
  | waiting =>
      have hp : s.hasPendingLocked = true := by
        by_contra hc
        exact h (workLeft_eq_zero.mpr ⟨hf, by simpa using hc⟩)
      have hpos : s.buffered ≠ 0 := by
        intro hc
        rw [hasPendingLocked_eq_false.mpr hc] at hp
        cases hp
      simp only [hp, if_true]
      simp only [workLeft, buffered, take, hf, List.length_drop] at hpos ⊢
      omega
  | taken b =>
      simp only [commit]
      split <;> simp [workLeft, hf, buffered]
  | committed b e => simp [workLeft, hf, retire, buffered]

theorem workLeft_flusherSteps {s : JobStore} (hbatch : 1 ≤ s.cfg.maxBatch) {n : ℕ} (hn : s.workLeft ≤ n) :
    (s.flusherSteps n).workLeft = 0 := by
  induction n generalizing s with
  | zero => exact Nat.le_zero.mp hn
  | succ n ih =>
      by_cases h : s.workLeft = 0
      · obtain ⟨hw, hp⟩ := workLeft_eq_zero.mp h
        rw [flusherSteps_of_flushed hw hp]
        exact h
      · have hlt := workLeft_flusherStep hbatch h
        rw [flusherSteps_succ]
        exact ih (by rwa [flusherStep_cfg]) (by omega)

/-- **No call waits for ever**: it returns once the flusher has made `N` steps. -/
theorem Sim.call_returns {s : JobStore} {d : Database} (h : s.Sim d) (hbatch : 1 ≤ s.cfg.maxBatch)
    (read : Job → Job) {c : StoreCall} (hc : d.Allows c) :
    ∃ N, ∀ during, N ≤ during → ∀ late, (s.call read during late c).isSome := by
  cases c with
  | insertJob job =>
      obtain ⟨d', -, hsim⟩ := h.insertJob read hc
      refine ⟨(s.enqueueInserts [job]).workLeft, fun during hd late => ?_⟩
      have hsim' := hsim.flusherSteps hbatch during
      obtain ⟨hw, hp⟩ := workLeft_eq_zero.mp (workLeft_flusherSteps (s := s.enqueueInserts [job]) hbatch hd)
      have hret : ((s.enqueueInserts [job]).flusherSteps during).insertReturns
          (s.enqueueInserts [job]).insertSeq = true := by
        rw [← flusherSteps_insertSeq _ during]
        rcases hsim'.seq_served with heq | ⟨v, hv, -⟩
        · exact decide_eq_true heq.ge
        · rw [hw] at hv
          rw [hasPendingLocked_eq_false, buffered] at hp
          have hnil : ((s.enqueueInserts [job]).flusherSteps during).pendingInserts = [] :=
            List.eq_nil_of_length_eq_zero (by omega)
          rw [hnil] at hv
          exact absurd hv List.not_mem_nil
      simp only [JobStore.call, hret, if_true, Option.isSome_some]
  | updateJob job => exact ⟨0, fun _ _ _ => rfl⟩
  | appendAttempt rec => exact ⟨0, fun _ _ _ => rfl⟩
  | getJob id =>
      refine ⟨0, fun during _ late => ?_⟩
      simp only [JobStore.call]
      split <;> rfl
  | query q =>
      refine ⟨s.workLeft, fun during hd late => ?_⟩
      obtain ⟨hw, hp⟩ := workLeft_eq_zero.mp (workLeft_flusherSteps hbatch hd)
      have hsize := (h.flusherSteps hbatch during).inFlight_eq
      rw [hw] at hsize
      have hf : (s.flusherSteps during).flushed = true := flushed_iff.mpr ⟨hp, hsize⟩
      simp only [JobStore.call, hf, if_true, Option.isSome_some]

theorem Sim.run {read : Job → Job} (hread : ∀ job : Job, read job.persisted = read job) {ps : List PlacedCall} :
    ∀ {s s' : JobStore} {d : Database} {answers : List StoreAnswer}, s.Sim d → s.Settled → s.Keeping read →
      1 ≤ s.cfg.maxBatch → d.AllowsAll read (ps.map (·.call)) →
      (∀ p ∈ ps, ∀ job, p.call.writes = some job → read job = job.columns) → s.run read ps = some (answers, s') →
      answers.map StoreAnswer.columns = (d.calls read (ps.map (·.call))).1.map StoreAnswer.columns ∧
        s'.Sim (d.calls read (ps.map (·.call))).2 ∧ s'.Settled ∧ s'.Keeping read ∧ s'.cfg = s.cfg := by
  induction ps with
  | nil =>
      intro s s' d answers h hs hkeep _ _ _ hrun
      simp only [JobStore.run, Option.some.injEq, Prod.mk.injEq] at hrun
      obtain ⟨rfl, rfl⟩ := hrun
      exact ⟨rfl, h, hs, hkeep, rfl⟩
  | cons p ps ih =>
      intro s s' d answers h hs hkeep hbatch hallow hrows hrun
      simp only [JobStore.run, Option.bind_eq_bind, Option.bind_eq_some_iff, Prod.exists, Option.pure_def,
        Option.some.injEq, Prod.mk.injEq] at hrun
      obtain ⟨a, s₁, hcall, as, s₂, hrest, rfl, rfl⟩ := hrun
      obtain ⟨hc, hcs⟩ := hallow
      obtain ⟨hrow, hrows⟩ := List.forall_mem_cons.mp hrows
      have hbatch' : 1 ≤ (s.flusherSteps p.before).cfg.maxBatch := by rwa [flusherSteps_cfg]
      have hkeep' := hkeep.flusherSteps p.before
      obtain ⟨hans, hsim, hset, hcfg⟩ :=
        (h.flusherSteps hbatch p.before).call (hs.flusherSteps p.before) hbatch' hread hkeep' hc hcall
      have hcfg' : s₁.cfg = s.cfg := hcfg.trans (flusherSteps_cfg s p.before)
      obtain ⟨hans', hsim', hset', hkeep'', hcfg''⟩ :=
        ih hsim hset (hkeep'.call hrow hcall) (by rwa [hcfg']) hcs hrows hrest
      refine ⟨?_, hsim', hset', hkeep'', hcfg''.trans hcfg'⟩
      simp only [List.map_cons, Database.calls, hans, hans']

end JobStore

end DistributedJobEngine
