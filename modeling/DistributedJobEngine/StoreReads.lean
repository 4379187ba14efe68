import DistributedJobEngine.StoreDurability
import DistributedJobEngine.StoreRefinement

/-! What a failed batch may cost. A row that `update_job` has acknowledged is in the cache until its batch is retired,
whether the transaction succeeded or not; a record that `append_attempt` has accepted is in the buffer until its batch
is taken. Both survive every interleaving in which the transactions that hold them succeed. -/

namespace DistributedJobEngine

open LibTable

namespace Database

variable {db db' : Database} {id : JobId}

/-- The rows that are inserted are new. -/
theorem insertJobs_fresh {jobs : List Job} (h : db.insertJobs jobs = .ok db') (hid : (db.getJob id).isSome) :
    ∀ job ∈ jobs, job.jobId ≠ id := by
  induction jobs generalizing db with
  | nil => simp
  | cons job jobs ih =>
      obtain ⟨t, hins, h⟩ := insertJobs_cons_eq_ok h
      have hne : job.jobId ≠ id := by
        rintro rfl
        rw [getJob, show db.jobs.lookup job.jobId = none from (Table.insert_eq_some.mp hins).1] at hid
        cases hid
      refine List.forall_mem_cons.mpr ⟨hne, ih h ?_⟩
      rw [getJob, Table.lookup_of_insert hins, if_neg (show job.persisted.jobId ≠ id from hne)]
      exact hid

theorem last_eq_none {rows : List VersionedJob} (h : ∀ v ∈ rows, v.job.jobId ≠ id) :
    Table.last Job.jobId (rows.map (·.job)) id = none := by
  cases hlast : Table.last Job.jobId (rows.map (·.job)) id with
  | none => rfl
  | some job =>
      obtain ⟨hmem, hid⟩ := Table.mem_of_last hlast
      obtain ⟨v, hv, rfl⟩ := List.mem_map.mp hmem
      exact absurd hid (h v hv)

/-- A transaction that succeeds inserts no row of a job that has one, and leaves the last update of the job. -/
theorem getJob_commitBatch_of_known {b : Batch} (h : db.commitBatch b = .ok db') (hid : (db.getJob id).isSome) :
    (∀ v ∈ b.inserts, v.job.jobId ≠ id) ∧
      (db'.getJob id = db.getJob id ∨ ∃ v ∈ b.updates, v.job.jobId = id ∧ db'.getJob id = some v.job.persisted) ∧
        ∀ before v after, b.updates = before ++ v :: after → v.job.jobId = id → (∀ x ∈ after, x.job.jobId ≠ id) →
          db'.getJob id = some v.job.persisted := by
  have hfresh : ∀ v ∈ b.inserts, v.job.jobId ≠ id := by
    rw [commitBatch] at h
    cases hi : db.insertJobs (b.inserts.map (·.job)) with
    | error e =>
        rw [hi] at h
        cases h
    | ok db₁ => exact fun v hv => insertJobs_fresh hi hid v.job (List.mem_map_of_mem hv)
  obtain ⟨row, hget⟩ := Option.isSome_iff_exists.mp hid
  have hrow := getJob_commitBatch h id
  rw [last_eq_none hfresh, hget, Option.map_none, Option.none_or, Option.map_some] at hrow
  refine ⟨hfresh, ?_, fun before v after hb hv hafter => ?_⟩
  · cases hlast : Table.last Job.jobId (b.updates.map (·.job)) id with
    | none =>
        rw [hrow, hlast, hget]
        exact .inl rfl
    | some job =>
        obtain ⟨hmem, hjob⟩ := Table.mem_of_last hlast
        obtain ⟨v, hv, rfl⟩ := List.mem_map.mp hmem
        rw [hrow, hlast]
        exact .inr ⟨v, hv, hjob, rfl⟩
  · rw [hrow, hb, List.map_append, List.map_cons, Table.last_append, Table.last_cons, last_eq_none hafter, if_pos hv]
    rfl

end Database

namespace JobStore

/-- The rows that are in the flusher's batch or wait for it. -/
def queued (s : JobStore) : List VersionedJob :=
  (s.flusher.flying.inserts ++ s.pendingInserts) ++ (s.flusher.flying.updates ++ s.pendingUpdates)

/-- Updates are taken in the order of their versions. -/
structure Ordered (s : JobStore) : Prop where
  sorted : (s.flusher.flying.updates ++ s.pendingUpdates).Pairwise fun v w => v.version < w.version
  version_le : ∀ v ∈ s.queued, v.version ≤ s.versionCounter

/-- A row was queued at the end of its buffer, with the next version, and put into the cache. -/
structure Wrote (s s' : JobStore) (v : VersionedJob) : Prop where
  version : v.version = s.versionCounter + 1
  counter : s'.versionCounter = s.versionCounter + 1
  cache : s'.cache = s.cache.insert v.job.jobId v
  queued : ∀ x, x ∈ s'.queued ↔ x ∈ s.queued ∨ x = v
  updates : s'.pendingUpdates = s.pendingUpdates ∨ s'.pendingUpdates = s.pendingUpdates ++ [v]
  attempts : s'.pendingAttempts = s.pendingAttempts
  flusher : s'.flusher = s.flusher
  db : s'.db = s.db

/-- The rows and the cache are as they were. -/
structure Same (s s' : JobStore) : Prop where
  counter : s.versionCounter ≤ s'.versionCounter
  cache : s'.cache = s.cache
  inserts : s'.pendingInserts = s.pendingInserts
  updates : s'.pendingUpdates = s.pendingUpdates
  attempts : s.pendingAttempts ⊆ s'.pendingAttempts
  flying : s'.flusher.flying = s.flusher.flying

theorem bufferUpdate_wrote (s : JobStore) (job : Job) :
    s.Wrote (s.bufferUpdate job) { version := s.versionCounter + 1, job } := by
  refine ⟨rfl, rfl, rfl, fun x => ?_, .inr rfl, rfl, rfl, rfl⟩
  simp only [queued, bufferUpdate, List.mem_append, List.mem_singleton]
  tauto

theorem enqueueInsert_wrote (s : JobStore) (job : Job) :
    s.Wrote (s.enqueueInsert job) { version := s.versionCounter + 1, insertSeq := s.insertSeq, job } := by
  refine ⟨rfl, rfl, rfl, fun x => ?_, .inl rfl, rfl, rfl, rfl⟩
  simp only [queued, enqueueInsert, List.mem_append, List.mem_singleton]
  tauto

theorem Same.queued {s s' : JobStore} (h : s.Same s') : s'.queued = s.queued := by
  rw [JobStore.queued, JobStore.queued, h.inserts, h.updates, h.flying]

theorem Ordered.same {s s' : JobStore} (h : s.Ordered) (hs : s.Same s') : s'.Ordered := by
  refine ⟨by rw [hs.updates, hs.flying]; exact h.sorted, fun v hv => ?_⟩
  rw [hs.queued] at hv
  exact (h.version_le v hv).trans hs.counter

theorem Ordered.wrote {s s' : JobStore} {v : VersionedJob} (h : s.Ordered) (hw : s.Wrote s' v) : s'.Ordered := by
  refine ⟨?_, fun x hx => ?_⟩
  · rw [hw.flusher]
    rcases hw.updates with hu | hu
    · rw [hu]
      exact h.sorted
    · rw [hu, ← List.append_assoc, List.pairwise_append]
      refine ⟨h.sorted, List.pairwise_singleton _ _, fun x hx y hy => ?_⟩
      rw [List.mem_singleton.mp hy, hw.version]
      exact Nat.lt_succ_of_le (h.version_le x (List.mem_append_right _ hx))
  · rw [hw.counter]
    rcases (hw.queued x).mp hx with hx | rfl
    · exact (h.version_le x hx).trans (Nat.le_succ _)
    · exact hw.version.le

/-- What a step of the flusher does. -/
inductive Flushes (s : JobStore) : JobStore → Prop
  | idle : Flushes s s
  | take (hw : s.flusher = .waiting) : Flushes s s.take
  | committed (b : Batch) (db : Database) (hb : s.flusher = .taken b) (hok : s.db.commitBatch b = .ok db) :
      Flushes s { s with db := db, flusher := .committed b none }
  | rolledBack (b : Batch) (e : String) (hb : s.flusher = .taken b) :
      Flushes s { s with flusher := .committed b (some e) }
  | retire (b : Batch) (error : Option String) (hb : s.flusher = .committed b error) : Flushes s (s.retire b error)

theorem flusherStep_flushes (s : JobStore) (fault : Option SqlError) : s.Flushes (s.flusherStep fault) := by
  unfold flusherStep
  split
  · next hw =>
      split_ifs
      · exact .take hw
      · exact .idle
  · next b hb =>
      unfold commit
      split
      · exact .rolledBack b _ hb
      · split
        · next db hok => exact .committed b db hb hok
        · exact .rolledBack b _ hb
  · next b error hb => exact .retire b error hb

theorem Flushes.counter {s s' : JobStore} (h : s.Flushes s') : s'.versionCounter = s.versionCounter := by
  cases h <;> rfl

theorem updates_take {s : JobStore} (hw : s.flusher = .waiting) :
    s.take.flusher.flying.updates ++ s.take.pendingUpdates = s.flusher.flying.updates ++ s.pendingUpdates := by
  rw [hw]
  exact List.take_append_drop _ _

theorem queued_take {s : JobStore} (hw : s.flusher = .waiting) : s.take.queued = s.queued := by
  rw [queued, updates_take hw, queued]
  congr 1
  rw [hw]
  exact List.take_append_drop _ _

theorem queued_of_retire {s : JobStore} {b : Batch} {error : Option String} {v : VersionedJob}
    (h : v ∈ (s.retire b error).queued) : v ∈ s.queued := by
  simp only [queued, retire, FlusherPhase.flying, List.nil_append, List.mem_append] at h ⊢
  tauto

theorem Ordered.flushes {s s' : JobStore} (h : s.Ordered) (hf : s.Flushes s') : s'.Ordered := by
  cases hf with
  | idle => exact h
  | take hw => exact ⟨by rw [updates_take hw]; exact h.sorted, by rw [queued_take hw]; exact h.version_le⟩
  | committed b db hb hok => exact h.same ⟨le_rfl, rfl, rfl, rfl, List.Subset.refl _, by rw [hb]; rfl⟩
  | rolledBack b e hb => exact h.same ⟨le_rfl, rfl, rfl, rfl, List.Subset.refl _, by rw [hb]; rfl⟩
  | retire b error hb =>
      exact ⟨(List.pairwise_append.mp h.sorted).2.1, fun v hv => h.version_le v (queued_of_retire hv)⟩

/-! ### Since an update -/

/-- The database has a row of the job from `L`, and so will any transaction that writes one. -/
structure Landed (s : JobStore) (id : JobId) (n : ℕ) (L : List Job) : Prop where
  row : ∃ job ∈ L, s.db.getJob id = some job.persisted
  fresh : ∀ v ∈ s.flusher.flying.updates ++ s.pendingUpdates, v.job.jobId = id → n ≤ v.version

/-- The cache entry of the job is the newest of its rows. -/
structure Newest (s : JobStore) (id : JobId) (n : ℕ) (w : VersionedJob) : Prop where
  queued : w ∈ s.queued
  jobId : w.job.jobId = id
  since : n ≤ w.version
  last : ∀ v ∈ s.queued, v.job.jobId = id → v.version ≤ w.version
  only : ∀ v ∈ s.queued, v.version = w.version → v = w

/-- The state of the store since the row of `id` with version `n` was queued; `L` are the rows of `id` written since
then. -/
structure Since (s : JobStore) (id : JobId) (n : ℕ) (L : List Job) : Prop where
  ordered : s.Ordered
  reached : n ≤ s.versionCounter
  known : (s.db.getJob id).isSome
  listed : ∀ v ∈ s.queued, v.job.jobId = id → n ≤ v.version → v.job ∈ L
  entry : ∀ w, s.cache.lookup id = some w → s.Newest id n w
  inserts : ∀ b, s.flusher = .committed b none → ∀ v ∈ b.inserts, v.job.jobId = id → v.version < n
  updates : ∀ b, s.flusher = .committed b none → ∀ v ∈ b.updates, v.job.jobId = id → n ≤ v.version →
    (∀ u ∈ b.updates, u.job.jobId = id → u.version ≤ v.version) → s.db.getJob id = some v.job.persisted
  kept : s.cache.lookup id = none → s.Landed id n L

variable {s s' : JobStore} {id : JobId} {n : ℕ} {L L' : List Job} {v w : VersionedJob}

theorem Newest.of_queued (h : s.Newest id n w) (hq : ∀ x, x ∈ s'.queued ↔ x ∈ s.queued) : s'.Newest id n w :=
  ⟨(hq w).mpr h.queued, h.jobId, h.since, fun x hx => h.last x ((hq x).mp hx), fun x hx => h.only x ((hq x).mp hx)⟩

/-- An update of a job that the database knows. -/
theorem Ordered.since (h : s.Ordered) {job : Job} (hid : (s.db.getJob job.jobId).isSome) :
    (s.bufferUpdate job).Since job.jobId (s.versionCounter + 1) [job] := by
  have hw := s.bufferUpdate_wrote job
  have hold : ∀ x ∈ s.queued, x.version < s.versionCounter + 1 := fun x hx => Nat.lt_succ_of_le (h.version_le x hx)
  refine ⟨h.wrote hw, le_rfl, hid, fun x hx _ hn => ?_, fun w hl => ?_, fun b hb x hx _ => ?_,
    fun b hb x hx _ hn => ?_, fun hnone => ?_⟩
  · rcases (hw.queued x).mp hx with hx | rfl
    · exact absurd hn (not_le.mpr (hold x hx))
    · exact List.mem_singleton_self _
  · rw [hw.cache, AList.lookup_insert, Option.some.injEq] at hl
    subst hl
    refine ⟨(hw.queued _).mpr (.inr rfl), rfl, le_rfl, fun x hx _ => ?_, fun x hx heq => ?_⟩
    · rcases (hw.queued x).mp hx with hx | rfl
      · exact (hold x hx).le
      · exact le_rfl
    · rcases (hw.queued x).mp hx with hx | rfl
      · exact absurd heq (hold x hx).ne
      · rfl
  · refine hold x (List.mem_append_left _ (List.mem_append_left _ ?_))
    rw [show s.flusher = .committed b none from hb]
    exact hx
  · refine absurd hn (not_le.mpr (hold x (List.mem_append_right _ (List.mem_append_left _ ?_))))
    rw [show s.flusher = .committed b none from hb]
    exact hx
  · rw [hw.cache, AList.lookup_insert] at hnone
    cases hnone

theorem Landed.wrote (h : s.Landed id n L) (hn : n ≤ s.versionCounter) (hw : s.Wrote s' v) (hL : L ⊆ L') :
    s'.Landed id n L' := by
  obtain ⟨job, hjob, hrow⟩ := h.row
  refine ⟨⟨job, hL hjob, by rw [hw.db]; exact hrow⟩, fun x hx hid => ?_⟩
  rw [hw.flusher] at hx
  rcases hw.updates with hu | hu
  · rw [hu] at hx
    exact h.fresh x hx hid
  · rw [hu, ← List.append_assoc, List.mem_append, List.mem_singleton] at hx
    rcases hx with hx | rfl
    · exact h.fresh x hx hid
    · rw [hw.version]
      omega

/-- A row is written. -/
theorem Since.wrote (h : s.Since id n L) (hw : s.Wrote s' v) (hL : L ⊆ L') (hv : v.job.jobId = id → v.job ∈ L') :
    s'.Since id n L' := by
  have hn := h.reached
  have hold : ∀ x ∈ s.queued, x.version < v.version := fun x hx => by
    rw [hw.version]
    exact Nat.lt_succ_of_le (h.ordered.version_le x hx)
  refine ⟨h.ordered.wrote hw, by rw [hw.counter]; omega, by rw [hw.db]; exact h.known, fun x hx hid hx' => ?_,
    fun w hl => ?_, fun b hb => h.inserts b (hw.flusher ▸ hb), fun b hb => ?_, fun hnone => ?_⟩
  · rcases (hw.queued x).mp hx with hx | rfl
    · exact hL (h.listed x hx hid hx')
    · exact hv hid
  · rw [hw.cache] at hl
    by_cases hid : id = v.job.jobId
    · rw [hid, AList.lookup_insert, Option.some.injEq] at hl
      subst hl
      refine ⟨(hw.queued v).mpr (.inr rfl), hid.symm, by rw [hw.version]; omega, fun x hx _ => ?_, fun x hx heq => ?_⟩
      · rcases (hw.queued x).mp hx with hx | rfl
        · exact (hold x hx).le
        · exact le_rfl
      · rcases (hw.queued x).mp hx with hx | rfl
        · exact absurd heq (hold x hx).ne
        · rfl
    · rw [AList.lookup_insert_ne hid] at hl
      have hnew := h.entry w hl
      refine ⟨(hw.queued w).mpr (.inl hnew.queued), hnew.jobId, hnew.since, fun x hx hxid => ?_, fun x hx heq => ?_⟩
      · rcases (hw.queued x).mp hx with hx | rfl
        · exact hnew.last x hx hxid
        · exact absurd hxid.symm hid
      · rcases (hw.queued x).mp hx with hx | rfl
        · exact hnew.only x hx heq
        · exact absurd heq (hold w hnew.queued).ne'
  · rw [hw.db]
    exact h.updates b (hw.flusher ▸ hb)
  · rw [hw.cache] at hnone
    by_cases hid : id = v.job.jobId
    · rw [hid, AList.lookup_insert] at hnone
      cases hnone
    · rw [AList.lookup_insert_ne hid] at hnone
      exact (h.kept hnone).wrote hn hw hL

theorem mem_queued_of_update (hv : v ∈ s.flusher.flying.updates ++ s.pendingUpdates) : v ∈ s.queued :=
  List.mem_append_right _ hv

theorem Landed.flushes (h : s.Landed id n L) (hs : s.Since id n L) (hf : s.Flushes s') : s'.Landed id n L := by
  cases hf with
  | idle => exact h
  | take hw => exact ⟨h.row, by rw [updates_take hw]; exact h.fresh⟩
  | committed b db hb hok =>
      have hfly : s.flusher.flying = b := by rw [hb]; rfl
      have hfresh : ∀ v ∈ b.updates ++ s.pendingUpdates, v.job.jobId = id → n ≤ v.version := by
        rw [← hfly]
        exact h.fresh
      refine ⟨?_, hfresh⟩
      rcases (Database.getJob_commitBatch_of_known hok hs.known).2.1 with hsame | ⟨v, hv, hid, hrow⟩
      · obtain ⟨job, hjob, hrow⟩ := h.row
        exact ⟨job, hjob, hsame.trans hrow⟩
      · have hmem : v ∈ s.flusher.flying.updates ++ s.pendingUpdates := by
          rw [hfly]
          exact List.mem_append_left _ hv
        exact ⟨v.job, hs.listed v (mem_queued_of_update hmem) hid (h.fresh v hmem hid), hrow⟩
  | rolledBack b e hb =>
      have hfly : s.flusher.flying = b := by rw [hb]; rfl
      refine ⟨h.row, ?_⟩
      rw [show (FlusherPhase.committed b (some e)).flying = s.flusher.flying from hfly.symm]
      exact h.fresh
  | retire b error hb => exact ⟨h.row, fun v hv => h.fresh v (List.mem_append_right _ hv)⟩

/-- An entry that is still there has the version of no row that was retired. -/
theorem version_ne_of_foldl_retireRow {vs : List VersionedJob} {cache : AList (fun _ : JobId => VersionedJob)}
    (h : (vs.foldl retireRow cache).lookup id = some w) (hv : v ∈ vs) (hid : v.job.jobId = id) :
    v.version ≠ w.version := by
  induction vs generalizing cache with
  | nil => cases hv
  | cons x vs ih =>
      rw [List.foldl_cons] at h
      rcases List.mem_cons.mp hv with rfl | hv
      · intro heq
        have hthen : (retireRow cache v).lookup id = some w := foldl_retireRow_lookup h
        have hbefore := retireRow_lookup hthen
        rw [retireRow, hid, hbefore] at hthen
        simp only [heq, if_true, AList.lookup_erase] at hthen
        cases hthen
      · exact ih h hv

/-- The entry of the job goes with the batch that holds its newest row. -/
theorem Since.landed_of_retire {b : Batch} {error : Option String} (h : s.Since id n L)
    (hb : s.flusher = .committed b error) (hl : s.cache.lookup id = some w)
    (hok : (∃ v ∈ b.inserts ++ b.updates, v.job.jobId = id ∧ n ≤ v.version) → error = none)
    (hnone : (s.retire b error).cache.lookup id = none) : (s.retire b error).Landed id n L := by
  have hfly : s.flusher.flying = b := by rw [hb]; rfl
  have hnew := h.entry w hl
  have hmem : w ∈ b.inserts ++ b.updates := by
    by_contra hno
    have hne : ∀ v ∈ b.inserts ++ b.updates, v.job.jobId = id → v.version ≠ w.version := by
      intro v hv _ heq
      have hq : v ∈ s.queued := by
        simp only [queued, hfly, List.mem_append] at hv ⊢
        tauto
      exact hno (hnew.only v hq heq ▸ hv)
    have hkept : (s.retire b error).cache.lookup id = some w :=
      foldl_retireRow_kept (foldl_retireRow_kept hl fun v hv => hne v (List.mem_append_left _ hv))
        fun v hv => hne v (List.mem_append_right _ hv)
    rw [hkept] at hnone
    cases hnone
  obtain rfl := hok ⟨w, hmem, hnew.jobId, hnew.since⟩
  rcases List.mem_append.mp hmem with hw | hw
  · exact absurd (h.inserts b hb w hw hnew.jobId) (not_lt.mpr hnew.since)
  · have hup : ∀ u ∈ b.updates, u ∈ s.queued := fun u hu =>
      mem_queued_of_update (List.mem_append_left _ (hfly ▸ hu))
    refine ⟨⟨w.job, h.listed w hnew.queued hnew.jobId hnew.since, ?_⟩, fun v hv _ => ?_⟩
    · exact h.updates b hb w hw hnew.jobId hnew.since fun u hu => hnew.last u (hup u hu)
    · have hlt := (List.pairwise_append.mp h.ordered.sorted).2.2 w (hfly ▸ hw) v hv
      exact hnew.since.trans hlt.le

/-- A step of the flusher, when a batch that holds a row of the job since then is retired only after it was
committed. -/
theorem Since.flushes (h : s.Since id n L) (hf : s.Flushes s')
    (hok : ∀ b error, s.flusher = .committed b error →
      (∃ v ∈ b.inserts ++ b.updates, v.job.jobId = id ∧ n ≤ v.version) → error = none) : s'.Since id n L := by
  have hordered := h.ordered.flushes hf
  have hlanded := fun hnone => (h.kept hnone).flushes h hf
  cases hf with
  | idle => exact h
  | take hw =>
      have hq := queued_take hw
      exact ⟨hordered, h.reached, h.known, fun v hv => h.listed v (hq ▸ hv),
        fun w hl => (h.entry w hl).of_queued fun x => by rw [hq], fun b hb => (by cases hb),
          fun b hb => (by cases hb),
        hlanded⟩
  | committed b db hb hcommit =>
      have hfly : s.flusher.flying = b := by rw [hb]; rfl
      have hsame : s.Same { s with db := db, flusher := .committed b none } :=
        ⟨le_rfl, rfl, rfl, rfl, List.Subset.refl _, hfly.symm⟩
      obtain ⟨hins, hrow, hlast⟩ := Database.getJob_commitBatch_of_known hcommit h.known
      refine ⟨hordered, h.reached, ?_, fun v hv => h.listed v (hsame.queued ▸ hv),
        fun w hl => (h.entry w hl).of_queued fun x => by rw [hsame.queued], fun b' hb' v hv hid => ?_,
        fun b' hb' v hv hid hn hmax => ?_, hlanded⟩
      · rcases hrow with hsame | ⟨v, -, -, hnew⟩
        · exact hsame ▸ h.known
        · exact Option.isSome_iff_exists.mpr ⟨_, hnew⟩
      · obtain ⟨rfl, -⟩ := FlusherPhase.committed.inj hb'
        exact absurd hid (hins v hv)
      · obtain ⟨rfl, -⟩ := FlusherPhase.committed.inj hb'
        obtain ⟨before, after, hsplit⟩ := List.append_of_mem hv
        refine hlast before v after hsplit hid fun x hx hxid => ?_
        have hsorted := (List.pairwise_append.mp h.ordered.sorted).1
        rw [hfly, hsplit, List.pairwise_append, List.pairwise_cons] at hsorted
        have hle := hmax x (hsplit ▸ List.mem_append_right _ (List.mem_cons_of_mem _ hx)) hxid
        exact absurd (hsorted.2.1.1 x hx) (not_lt.mpr hle)
  | rolledBack b e hb =>
      have hfly : s.flusher.flying = b := by rw [hb]; rfl
      have hsame : s.Same { s with flusher := .committed b (some e) } :=
        ⟨le_rfl, rfl, rfl, rfl, List.Subset.refl _, hfly.symm⟩
      exact ⟨hordered, h.reached, h.known, fun v hv => h.listed v (hsame.queued ▸ hv),
        fun w hl => (h.entry w hl).of_queued fun x => by rw [hsame.queued], fun b hb => (by cases hb),
        fun b hb => (by cases hb), hlanded⟩
  | retire b error hb =>
      have hfly : s.flusher.flying = b := by rw [hb]; rfl
      refine ⟨hordered, h.reached, h.known, fun v hv => h.listed v (queued_of_retire hv), fun w hl => ?_,
        fun b hb => (by cases hb), fun b hb => (by cases hb), fun hnone => ?_⟩
      · have hl' := foldl_retireRow_lookup (foldl_retireRow_lookup hl)
        have hnew := h.entry w hl'
        refine ⟨?_, hnew.jobId, hnew.since, fun v hv => hnew.last v (queued_of_retire hv),
          fun v hv => hnew.only v (queued_of_retire hv)⟩
        have hq := hnew.queued
        simp only [queued, hfly, List.mem_append] at hq
        simp only [queued, JobStore.retire, FlusherPhase.flying, List.nil_append, List.mem_append]
        rcases hq with (hw | hw) | hw | hw
        · exact absurd rfl (version_ne_of_foldl_retireRow (foldl_retireRow_lookup hl) hw hnew.jobId)
        · exact .inl hw
        · exact absurd rfl (version_ne_of_foldl_retireRow hl hw hnew.jobId)
        · exact .inr hw
      · cases hl : s.cache.lookup id with
        | none => exact hlanded hl
        | some w =>
            exact h.landed_of_retire hb hl (hok b error hb) hnone

theorem Landed.mono (h : s.Landed id n L) (hL : L ⊆ L') : s.Landed id n L' := by
  obtain ⟨job, hjob, hrow⟩ := h.row
  exact ⟨⟨job, hL hjob, hrow⟩, h.fresh⟩

theorem Since.mono (h : s.Since id n L) (hL : L ⊆ L') : s.Since id n L' :=
  ⟨h.ordered, h.reached, h.known, fun v hv hid hn => hL (h.listed v hv hid hn), h.entry, h.inserts, h.updates,
    fun hnone => (h.kept hnone).mono hL⟩

theorem Landed.same (h : s.Landed id n L) (hs : s.Same s') (hdb : s'.db = s.db) : s'.Landed id n L := by
  refine ⟨by rw [hdb]; exact h.row, ?_⟩
  rw [hs.flying, hs.updates]
  exact h.fresh

theorem Since.same (h : s.Since id n L) (hs : s.Same s') (hf : s'.flusher = s.flusher) (hdb : s'.db = s.db) :
    s'.Since id n L := by
  refine ⟨h.ordered.same hs, h.reached.trans hs.counter, hdb ▸ h.known, fun v hv => h.listed v (hs.queued ▸ hv),
    fun w hl => ?_, fun b hb => h.inserts b (hf ▸ hb), fun b hb => ?_, fun hnone => ?_⟩
  · exact (h.entry w (hs.cache ▸ hl)).of_queued fun x => by rw [hs.queued]
  · rw [hdb]
    exact h.updates b (hf ▸ hb)
  · exact (h.kept (hs.cache ▸ hnone)).same hs hdb

end JobStore

/-! ### Runs -/

/-- The rows of a job that a call writes. -/
def StoreEvent.rowsOf (id : JobId) : StoreEvent → List Job
  | insertJobs jobs => jobs.filter fun job => decide (job.jobId = id)
  | updateJob job => if job.jobId = id then [job] else []
  | _ => []

/-- The transaction holds a row of the job with version `n` or a later one. -/
def Transaction.Writes (x : Transaction) (id : JobId) (n : ℕ) : Prop :=
  ∃ v ∈ x.batch.inserts ++ x.batch.updates, v.job.jobId = id ∧ n ≤ v.version

namespace StoreTrace

variable {t : StoreTrace} {id : JobId} {n : ℕ} {L : List Job} {rec : AttemptRecord}

/-- A store that has just been opened. -/
def opened (cfg : StoreConfig) (db : Database) : StoreTrace := { store := { cfg := cfg, db := db } }

/-- `get_job`: what the cache has, or else what the database has after the calls and the steps of the flusher that
come between. -/
def read (t : StoreTrace) (later : List StoreEvent) (id : JobId) : Option Job :=
  match t.store.cache.lookup id with
  | some v => some v.job
  | none => (t.run later).store.db.getJob id

/-- The record is buffered, in the batch that is being written, or in one that was committed. -/
def Keeps (t : StoreTrace) (rec : AttemptRecord) : Prop :=
  rec ∈ t.store.pendingAttempts ∨ rec ∈ t.store.flusher.uncommitted.attempts ∨
    ∃ x ∈ t.transactions, x.error = none ∧ rec ∈ x.batch.attempts

theorem transactions_step (t : StoreTrace) (e : StoreEvent) : t.transactions ⊆ (t.step e).transactions := by
  cases e with
  | insertJobs jobs =>
      obtain ⟨rows, hq, -⟩ := enqueueInserts_spec t.store jobs
      simp only [step]
      split_ifs
      · exact List.Subset.refl _
      · simp only [transactions, current, hq.flusher]
        exact List.Subset.refl _
  | updateJob job => exact List.Subset.refl _
  | appendAttempt rec => exact List.Subset.refl _
  | flusher fault => exact List.subset_append_left _ _

theorem transactions_run (t : StoreTrace) (events : List StoreEvent) :
    t.transactions ⊆ (t.run events).transactions := by
  induction events generalizing t with
  | nil => exact List.Subset.refl _
  | cons e events ih => exact List.Subset.trans (t.transactions_step e) (ih (t.step e))

theorem mem_transactions {b : Batch} {error : Option String} (h : t.store.flusher = .committed b error) :
    ⟨b, error⟩ ∈ t.transactions := by
  simp [transactions, current, h]

/-- The rows of a call are queued one by one. -/
theorem foldl_enqueueInsert_rule {P : JobStore → Prop} {jobs : List Job}
    (hwrote : ∀ s s' v, P s → s.Wrote s' v → v.job ∈ jobs → P s') {s : JobStore} (h : P s) :
    P (jobs.foldl JobStore.enqueueInsert s) := by
  induction jobs generalizing s with
  | nil => exact h
  | cons job jobs ih =>
      refine ih (fun s s' v hs hw hv => hwrote s s' v hs hw (List.mem_cons_of_mem _ hv)) ?_
      exact hwrote s _ _ h (s.enqueueInsert_wrote job) List.mem_cons_self

/-- What a step does to the store: it changes no row, writes rows of its call one by one, or moves the flusher. -/
theorem step_rule {P : JobStore → Prop} {e : StoreEvent}
    (hsame : ∀ s s', P s → s.Same s' → s'.flusher = s.flusher → s'.db = s.db → P s')
    (hwrote : ∀ s s' v, P s → s.Wrote s' v → v.job ∈ e.rowsOf v.job.jobId → P s')
    (hflush : ∀ fault, e = .flusher fault → P (t.store.flusherStep fault)) (h : P t.store) : P (t.step e).store := by
  cases e with
  | insertJobs jobs =>
      simp only [step]
      split_ifs
      · exact h
      · refine foldl_enqueueInsert_rule (fun s s' v hs hw hv => hwrote s s' v hs hw ?_)
          (hsame t.store _ h ⟨le_rfl, rfl, rfl, rfl, List.Subset.refl _, rfl⟩ rfl rfl)
        exact List.mem_filter.mpr ⟨hv, decide_eq_true rfl⟩
  | updateJob job =>
      refine hwrote t.store _ _ h (t.store.bufferUpdate_wrote job) ?_
      simp [StoreEvent.rowsOf]
  | appendAttempt rec => 
      exact hsame t.store _ h ⟨Nat.le_succ _, rfl, rfl, rfl, List.subset_append_left _ _, rfl⟩ rfl rfl
  | flusher fault => exact hflush fault rfl

theorem ordered_step (h : t.store.Ordered) (e : StoreEvent) : (t.step e).store.Ordered :=
  step_rule (fun _ _ h hs _ _ => h.same hs) (fun _ _ _ h hw _ => h.wrote hw)
    (fun fault _ => h.flushes (t.store.flusherStep_flushes fault)) h

theorem ordered_run (h : t.store.Ordered) (events : List StoreEvent) : (t.run events).store.Ordered := by
  induction events generalizing t with
  | nil => exact h
  | cons e events ih => exact ih (ordered_step h e)

/-- No transaction that holds the row with version `n`, or a later row of the job, has failed. -/
def Spared (t : StoreTrace) (id : JobId) (n : ℕ) : Prop := ∀ x ∈ t.transactions, x.Writes id n → x.error = none

theorem since_step (h : t.store.Since id n L) {e : StoreEvent} (hok : (t.step e).Spared id n) :
    (t.step e).store.Since id n (L ++ e.rowsOf id) := by
  have hmono := h.mono (List.subset_append_left L (e.rowsOf id))
  refine step_rule (P := fun s => s.Since id n (L ++ e.rowsOf id)) (fun _ _ h hs hf hdb => h.same hs hf hdb)
    (fun _ _ v h hw hrow => h.wrote hw (List.Subset.refl _) fun hid => ?_) 
    (fun fault _ => hmono.flushes (t.store.flusherStep_flushes fault) ?_) hmono
  · exact List.mem_append_right _ (hid ▸ hrow)
  · intro b error hb hwrites
    exact hok ⟨b, error⟩ (t.transactions_step e (mem_transactions hb)) hwrites

theorem landed_step (h : t.store.Since id n L) (hlanded : t.store.Landed id n L) {e : StoreEvent} :
    (t.step e).store.Landed id n (L ++ e.rowsOf id) := by
  have hL := List.subset_append_left L (e.rowsOf id)
  have hn := h.reached
  refine (step_rule (t := t) (P := fun s => s.Landed id n (L ++ e.rowsOf id) ∧ n ≤ s.versionCounter)
    (fun _ _ h hs _ hdb => ⟨h.1.same hs hdb, h.2.trans hs.counter⟩)
    (fun _ _ v h hw _ => ⟨h.1.wrote h.2 hw (List.Subset.refl _), ?_⟩)
    (fun fault _ => ⟨(hlanded.mono hL).flushes (h.mono hL) (t.store.flusherStep_flushes fault), ?_⟩)
    ⟨hlanded.mono hL, hn⟩).1
  · rw [hw.counter]
    exact h.2.trans (Nat.le_succ _)
  · rw [(t.store.flusherStep_flushes fault).counter]
    exact hn

theorem spared_of_run {events : List StoreEvent} (h : (t.run events).Spared id n) : t.Spared id n :=
  fun x hx => h x (t.transactions_run events hx)

theorem since_run (h : t.store.Since id n L) {events : List StoreEvent} (hok : (t.run events).Spared id n) :
    (t.run events).store.Since id n (L ++ events.flatMap (StoreEvent.rowsOf id)) := by
  induction events generalizing t L with
  | nil => rwa [List.flatMap_nil, List.append_nil]
  | cons e events ih =>
      rw [List.flatMap_cons, ← List.append_assoc]
      exact ih (since_step h (spared_of_run hok)) hok

theorem landed_run (h : t.store.Since id n L) (hlanded : t.store.Landed id n L) {events : List StoreEvent}
    (hok : (t.run events).Spared id n) :
    (t.run events).store.Landed id n (L ++ events.flatMap (StoreEvent.rowsOf id)) := by
  induction events generalizing t L with
  | nil => rwa [List.flatMap_nil, List.append_nil]
  | cons e events ih =>
      rw [List.flatMap_cons, ← List.append_assoc]
      exact ih (since_step h (spared_of_run hok)) (landed_step h hlanded) hok

/-- What is read since the update is its row or a later one. -/
theorem read_since (h : t.store.Since id n L) {later : List StoreEvent} (hok : (t.run later).Spared id n) :
    ∃ row ∈ L ++ later.flatMap (StoreEvent.rowsOf id), (t.read later id).map Job.persisted = some row.persisted := by
  unfold read
  cases hl : t.store.cache.lookup id with
  | some w =>
      have hnew := h.entry w hl
      exact ⟨w.job, List.mem_append_left _ (h.listed w hnew.queued hnew.jobId hnew.since), rfl⟩
  | none =>
      obtain ⟨row, hmem, hrow⟩ := (landed_run h (h.kept hl) hok).row
      refine ⟨row, hmem, ?_⟩
      rw [hrow, Option.map_some, Job.persisted_persisted]

/-! ### Records -/

/-- A step of the flusher moves a buffered record on to a transaction, which must not fail. -/
theorem keeps_flush {s' : JobStore} (hf : t.store.Flushes s')
    (h : rec ∈ t.store.pendingAttempts ∨ rec ∈ t.store.flusher.uncommitted.attempts)
    (hok : ∀ x ∈ ({ t with store := s', finished := t.transactions } : StoreTrace).transactions,
      rec ∈ x.batch.attempts → x.error = none) :
    ({ t with store := s', finished := t.transactions } : StoreTrace).Keeps rec := by
  have hdone : ∀ {b : Batch} {error : Option String}, s'.flusher = .committed b error → rec ∈ b.attempts →
      ({ t with store := s', finished := t.transactions } : StoreTrace).Keeps rec := by
    intro b error hb hrec
    have hmem := mem_transactions (t := { t with store := s', finished := t.transactions }) hb
    exact .inr (.inr ⟨_, hmem, hok _ hmem hrec, hrec⟩)
  cases hf with
  | idle => exact or_assoc.mp (.inl h)
  | take hw =>
      rcases h with h | h
      · rw [← List.take_append_drop t.store.cfg.maxBatch t.store.pendingAttempts, List.mem_append] at h
        exact h.elim (fun hrec => .inr (.inl hrec)) .inl
      · rw [hw] at h
        cases h
  | committed b db hb _ =>
      rcases h with h | h
      · exact .inl h
      · rw [hb] at h
        exact hdone rfl h
  | rolledBack b e hb =>
      rcases h with h | h
      · exact .inl h
      · rw [hb] at h
        exact hdone rfl h
  | retire b error hb =>
      rcases h with h | h
      · exact .inl h
      · rw [hb] at h
        cases h

theorem keeps_step (h : t.Keeps rec) {e : StoreEvent}
    (hok : ∀ x ∈ (t.step e).transactions, rec ∈ x.batch.attempts → x.error = none) : (t.step e).Keeps rec := by
  have hdone : (∃ x ∈ t.transactions, x.error = none ∧ rec ∈ x.batch.attempts) → (t.step e).Keeps rec := by
    rintro ⟨x, hx, hrec⟩
    exact .inr (.inr ⟨x, t.transactions_step e hx, hrec⟩)
  by_cases hflush : ∃ fault, e = .flusher fault
  · obtain ⟨fault, rfl⟩ := hflush
    rcases or_assoc.mpr h with hbuf | h
    · exact keeps_flush (t.store.flusherStep_flushes fault) hbuf hok
    · exact hdone h
  · rcases or_assoc.mpr h with hbuf | h
    · have hstep := step_rule (t := t) (e := e)
        (P := fun s => rec ∈ s.pendingAttempts ∨ rec ∈ s.flusher.uncommitted.attempts)
        (fun _ _ h hs hf _ => h.imp (fun hrec => hs.attempts hrec) fun hrec => hf ▸ hrec)
        (fun _ _ _ h hw _ => h.imp (fun hrec => hw.attempts ▸ hrec) fun hrec => hw.flusher ▸ hrec)
        (fun fault he => absurd ⟨fault, he⟩ hflush) hbuf
      exact or_assoc.mp (.inl hstep)
    · exact hdone h

theorem keeps_run (h : t.Keeps rec) {events : List StoreEvent}
    (hok : ∀ x ∈ (t.run events).transactions, rec ∈ x.batch.attempts → x.error = none) :
    (t.run events).Keeps rec := by
  induction events generalizing t with
  | nil => exact h
  | cons e events ih => exact ih (keeps_step h fun x hx => hok x ((t.step e).transactions_run events hx)) hok

/-- **No acknowledged write is lost** to a batch that does not hold it. After `update_job` on a job whose insert is
committed, `get_job` gives its row or a later one as long as the transactions that hold these rows succeed; a record
that `append_attempt` has taken is buffered or committed as long as the transaction that holds it succeeds. -/
theorem acknowledged_kept (cfg : StoreConfig) (db : Database) (before after later : List StoreEvent) :
    (∀ job, (((opened cfg db).run before).store.db.getJob job.jobId).isSome →
      ((opened cfg db).run (before ++ .updateJob job :: (after ++ later))).Spared job.jobId
        (((opened cfg db).run before).store.versionCounter + 1) →
      ∃ row ∈ job :: (after ++ later).flatMap (StoreEvent.rowsOf job.jobId),
        (((opened cfg db).run (before ++ .updateJob job :: after)).read later job.jobId).map
          Job.persisted = some row.persisted) ∧
    ∀ rec, (∀ x ∈ ((opened cfg db).run (before ++ .appendAttempt rec :: after)).transactions,
        rec ∈ x.batch.attempts → x.error = none) →
      ((opened cfg db).run (before ++ .appendAttempt rec :: after)).Keeps rec := by
  have hordered : ((opened cfg db).run before).store.Ordered :=
    ordered_run ⟨List.Pairwise.nil, fun v hv => by cases hv⟩ before
  have hrun : ∀ e events, (opened cfg db).run (before ++ e :: events) =
      (((opened cfg db).run before).step e).run events := fun e events => by
    rw [run, List.foldl_append, List.foldl_cons]
    rfl
  refine ⟨fun job hid hok => ?_, fun rec hok => ?_⟩
  · rw [hrun] at hok ⊢
    have hmid := (hordered.since hid)
    have hok' : (((((opened cfg db).run before).step (.updateJob job)).run after).run later).Spared
        job.jobId (((opened cfg db).run before).store.versionCounter + 1) := by
      rw [run, run, ← List.foldl_append]
      exact hok
    have hsince := since_run (t := ((opened cfg db).run before).step (.updateJob job)) hmid
      (spared_of_run hok')
    obtain ⟨row, hmem, hread⟩ := read_since hsince hok'
    rw [List.append_assoc, ← List.flatMap_append] at hmem
    exact ⟨row, hmem, hread⟩
  · rw [hrun] at hok ⊢
    exact keeps_run (.inl (List.mem_append_right _ (List.mem_singleton_self rec))) hok

/-- A row is inserted and committed. -/
def insertedRow : List StoreEvent :=
  [.insertJobs [{ jobId := "a" }], .flusher none, .flusher none, .flusher none]

/-- A batch is taken, its transaction ends and it is retired. -/
def batchWith (fault : Option SqlError) : List StoreEvent := [.flusher none, .flusher fault, .flusher none]

def startedRow : Job := { jobId := "a", state := .running }

def firstAttempt : AttemptRecord := { jobId := "a", attempt := 1 }

/-- An update and a record whose transactions succeed. -/
theorem acknowledged_kept_batch :
    (((opened {} {}).run (insertedRow ++ .updateJob startedRow :: batchWith none)).read [] "a").map Job.persisted =
        some startedRow.persisted ∧
      ((opened {} {}).run (insertedRow ++ .appendAttempt firstAttempt :: batchWith none)).Keeps firstAttempt := by
  obtain ⟨hrow, hrec⟩ := acknowledged_kept {} {} insertedRow (batchWith none) []
  have hupdates : ∀ x ∈
    ((opened {} {}).run (insertedRow ++ .updateJob startedRow :: (batchWith none ++ []))).transactions,
      x.error = none := by
    decide +kernel
  have hattempts : ∀ x ∈
    ((opened {} {}).run (insertedRow ++ .appendAttempt firstAttempt :: batchWith none)).transactions,
      x.error = none := by
    decide +kernel
  refine ⟨?_, hrec firstAttempt fun x hx _ => hattempts x hx⟩
  obtain ⟨row, hmem, hread⟩ := hrow startedRow (by decide +kernel) fun x hx _ => hupdates x hx
  have hmem' : row ∈ [startedRow] := hmem
  rw [List.mem_singleton.mp hmem'] at hread
  exact hread

/-- A transaction that fails takes the acknowledged row and the record with it: `get_job` gives the row of before. -/
theorem acknowledged_lost : ∃ fault,
    (((opened {} {}).run
      (insertedRow ++ .updateJob startedRow :: .appendAttempt firstAttempt :: batchWith fault)).read []
        "a").map (·.state) = some .queued ∧
      ¬ ((opened {} {}).run
        (insertedRow ++ .updateJob startedRow :: .appendAttempt firstAttempt :: batchWith fault)).Keeps
          firstAttempt := by
  refine ⟨some diskError, by decide +kernel, ?_⟩
  rintro (h | h | ⟨x, hx, herror, hrec⟩)
  · cases h
  · cases h
  · have hall : ∀ x ∈ ((opened {} {}).run (insertedRow ++ .updateJob startedRow :: .appendAttempt firstAttempt ::
        batchWith (some diskError))).transactions, x.error = none → x.batch.attempts = [] := by
      decide +kernel
    rw [hall x hx herror] at hrec
    cases hrec

end StoreTrace

end DistributedJobEngine
