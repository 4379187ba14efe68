import DistributedJobEngine.Store
import Mathlib.Tactic

/-! When `insert_jobs` may be believed. Any number of threads insert while the flusher runs and its
transactions fail or succeed; for every call that returns, all its rows were in one transaction and its
verdict is the outcome of that transaction exactly when the call fitted into one batch and no foreign
transaction had failed. -/

namespace DistributedJobEngine

open LibTable

/-- A transaction the flusher ran, with the error that made it roll back. -/
structure Transaction where
  batch : Batch
  error : Option String

/-- What the transaction makes of the database `db`: it is committed, or leaves no trace. -/
def Transaction.Turns (x : Transaction) (db db' : Database) : Prop :=
  x.error = none ∧ db.commitBatch x.batch = .ok db' ∨ x.error ≠ none ∧ db' = db

/-- A call of `insert_jobs`: the rows it queued and how many inserts were queued ahead of them. -/
structure InsertCall where
  seq : ℕ
  rows : List VersionedJob
  ahead : ℕ

inductive StoreEvent where
  | insertJobs (jobs : List Job)
  | updateJob (job : Job)
  | appendAttempt (rec : AttemptRecord)
  | flusher (fault : Option SqlError)

/-- A store with the calls made to it and the transactions whose outcome the flusher has published. -/
structure StoreTrace where
  store : JobStore
  calls : List InsertCall := []
  finished : List Transaction := []

namespace StoreTrace

/-- The transaction that has ended but is not published yet. -/
def current (t : StoreTrace) : List Transaction :=
  match t.store.flusher with
  | .committed b error => [⟨b, error⟩]
  | _ => []

def transactions (t : StoreTrace) : List Transaction := t.finished ++ t.current

/-- A call without jobs returns `true` before it touches the store. -/
def step (t : StoreTrace) : StoreEvent → StoreTrace
  | .insertJobs jobs =>
      if jobs = [] then { t with calls := t.calls ++ [⟨0, [], 0⟩] }
      else
        let s := t.store.enqueueInserts jobs
        let ahead := t.store.pendingInserts.length
        { t with store := s, calls := t.calls ++ [⟨s.insertSeq, s.pendingInserts.drop ahead, ahead⟩] }
  | .updateJob job => { t with store := t.store.bufferUpdate job }
  | .appendAttempt rec => { t with store := t.store.appendAttempt rec }
  | .flusher fault => { t with store := t.store.flusherStep fault, finished := t.transactions }

def run (t : StoreTrace) (events : List StoreEvent) : StoreTrace := events.foldl step t

def Committed (t : StoreTrace) (v : VersionedJob) : Prop :=
  ∃ x ∈ t.transactions, x.error = none ∧ v ∈ x.batch.inserts

/-- The call can return. -/
def Returns (t : StoreTrace) (c : InsertCall) : Prop := c.rows = [] ∨ t.store.insertReturns c.seq = true

/-- What it then returns. -/
def verdict (t : StoreTrace) (c : InsertCall) : Bool := c.rows.isEmpty || t.store.insertVerdict

/-- `true` means that every row is committed, `false` that none is, and a transaction holds all rows of
the call or none. -/
def Durable (t : StoreTrace) (c : InsertCall) : Prop :=
  (t.verdict c = true → ∀ v ∈ c.rows, t.Committed v) ∧
  (t.verdict c = false → ∀ v ∈ c.rows, ¬ t.Committed v) ∧
  ∀ x ∈ t.transactions, ∀ v ∈ c.rows, ∀ w ∈ c.rows, v ∈ x.batch.inserts → w ∈ x.batch.inserts

/-- The rows of the call do not straddle the end of a batch. -/
def FitsBatch (t : StoreTrace) (c : InsertCall) : Prop :=
  c.ahead % t.store.cfg.maxBatch + c.rows.length ≤ t.store.cfg.maxBatch

/-- The published transaction holds a row of the call. -/
def Holds (x : Transaction) (c : InsertCall) : Prop := ∃ v ∈ c.rows, v ∈ x.batch.inserts

/-- No transaction has failed yet, or the one of the call has. -/
def OwnFailure (t : StoreTrace) (c : InsertCall) : Prop :=
  (∀ x ∈ t.finished, x.error = none) ∨ ∃ x ∈ t.finished, x.error ≠ none ∧ Holds x c

/-- Versions grow in arrival order, and the shared error is set by the published failures. -/
structure Consistent (t : StoreTrace) : Prop where
  sorted : t.store.pendingInserts.Pairwise fun v w => v.version < w.version
  version_le : ∀ v, v ∈ t.store.pendingInserts ∨ v ∈ t.store.flusher.flying.inserts ∨
    (∃ x ∈ t.finished, v ∈ x.batch.inserts) → v.version ≤ t.store.versionCounter
  seq_le : ∀ v ∈ t.store.flusher.flying.inserts ++ t.store.pendingInserts, v.insertSeq ≤ t.store.insertSeq
  committed_le : t.store.committedInsertSeq ≤ t.store.insertSeq
  error_iff : t.store.lastFlushError = "" ↔ ∀ x ∈ t.finished, x.error = none
  error_ne : ∀ b e, t.store.flusher = .committed b (some e) → e ≠ ""

/-- How far a call has come. The batch boundary in front of its rows is fixed when it is queued, because
a batch is only short when it takes everything. -/
inductive Stage (t : StoreTrace) (c : InsertCall) : Prop where
  | waiting (ahead behind : List VersionedJob) (hpending : t.store.pendingInserts = ahead ++ (c.rows ++ behind))
      (hahead : ahead.length % t.store.cfg.maxBatch = c.ahead % t.store.cfg.maxBatch)
      (holder : ∀ v ∈ ahead, v.insertSeq < c.seq) (hfly : ∀ v ∈ t.store.flusher.flying.inserts, v.insertSeq < c.seq)
      (hcommitted : t.store.committedInsertSeq < c.seq)
      (hout : ∀ v ∈ c.rows, v ∉ t.store.flusher.flying.inserts) (hfin : ∀ x ∈ t.finished, ¬ Holds x c)
  | flying (hfits : t.FitsBatch c) (hrows : ∀ v ∈ c.rows, v ∈ t.store.flusher.flying.inserts)
      (hcommitted : t.store.committedInsertSeq < c.seq) (hfin : ∀ x ∈ t.finished, ¬ Holds x c)
      (hnewer : ∀ v ∈ c.rows, ∀ w ∈ t.store.pendingInserts, v.version < w.version)
  | finished (x : Transaction) (hfits : t.FitsBatch c) (hx : x ∈ t.finished)
      (hrows : ∀ v ∈ c.rows, v ∈ x.batch.inserts) (honly : ∀ y ∈ t.finished, Holds y c → y = x)
      (hout : ∀ v ∈ c.rows, v ∉ t.store.flusher.flying.inserts)
      (hnewer : ∀ v ∈ c.rows, ∀ w ∈ t.store.pendingInserts, v.version < w.version)
  | split (b : Batch) (v w : VersionedJob) (hfits : ¬ t.FitsBatch c) (hv : v ∈ c.rows) (hvb : v ∈ b.inserts)
      (hw : w ∈ c.rows) (hwb : w ∉ b.inserts)
      (hwhere : (t.store.flusher.flying = b ∧ t.store.committedInsertSeq < c.seq) ∨
        ∃ x ∈ t.finished, x.batch = b)

theorem consistent_open (cfg : StoreConfig) (db : Database) :
    Consistent { store := { cfg := cfg, db := db } } :=
  ⟨List.Pairwise.nil, by simp [FlusherPhase.flying], by simp [FlusherPhase.flying], le_refl _, by simp, by simp⟩

theorem insertJobs_error_ne {db : Database} {jobs : List Job} {e : String} (h : db.insertJobs jobs = .error e) :
    e ≠ "" := by
  induction jobs generalizing db with
  | nil => cases h
  | cons job jobs ih =>
      rw [Database.insertJobs, List.foldlM_cons] at h
      cases hw : db.writeJobRow job true with
      | ok db' =>
          rw [hw] at h
          exact ih h
      | error e' =>
          rw [hw] at h
          cases h
          simp only [Database.writeJobRow, if_true] at hw
          split at hw
          · cases hw
          · cases hw
            decide

theorem commitBatch_error_ne {db : Database} {b : Batch} {e : String} (h : db.commitBatch b = .error e) :
    e ≠ "" := by
  rw [Database.commitBatch] at h
  cases hi : db.insertJobs (b.inserts.map (·.job)) with
  | ok db' =>
      rw [hi] at h
      cases h
  | error e' =>
      rw [hi] at h
      cases h
      exact insertJobs_error_ne hi

/-- What a commit leaves of a store, whatever its outcome. -/
theorem commit_frame (s : JobStore) (fault : Option SqlError) (b : Batch) :
    ∃ error db, s.commit fault b = { s with db, flusher := .committed b error } ∧
      Transaction.Turns ⟨b, error⟩ s.db db ∧ error ≠ some "" := by
  unfold JobStore.commit
  split
  · next e =>
      exact ⟨some e.message, s.db, rfl, .inr ⟨Option.some_ne_none _, rfl⟩, fun h => e.nonempty (Option.some.inj h)⟩
  · split
    · next db hok => exact ⟨none, db, rfl, .inl ⟨rfl, hok⟩, by simp⟩
    · next e h =>
        exact ⟨some e, s.db, rfl, .inr ⟨Option.some_ne_none _, rfl⟩,
          fun hc => commitBatch_error_ne h (Option.some.inj hc)⟩

/-- What queuing inserts does to a store: fresh versions at the end of the buffer. -/
structure Enqueued (s s' : JobStore) (rows : List VersionedJob) : Prop where
  pending : s'.pendingInserts = s.pendingInserts ++ rows
  sorted : rows.Pairwise fun v w => v.version < w.version
  fresh : ∀ v ∈ rows, s.versionCounter < v.version ∧ v.version ≤ s'.versionCounter
  version_le : s.versionCounter ≤ s'.versionCounter
  flusher : s'.flusher = s.flusher
  committed : s'.committedInsertSeq = s.committedInsertSeq
  error : s'.lastFlushError = s.lastFlushError
  cfg : s'.cfg = s.cfg
  db : s'.db = s.db

theorem foldl_enqueueInsert (jobs : List Job) :
    ∀ s : JobStore, ∃ rows, Enqueued s (jobs.foldl JobStore.enqueueInsert s) rows ∧ rows.length = jobs.length ∧
      (∀ v ∈ rows, v.insertSeq = s.insertSeq) ∧
      (jobs.foldl JobStore.enqueueInsert s).insertSeq = s.insertSeq := by
  induction jobs with
  | nil =>
      intro s
      exact ⟨[], ⟨by simp, List.Pairwise.nil, by simp, le_refl _, rfl, rfl, rfl, rfl, rfl⟩, rfl, by simp, rfl⟩
  | cons job jobs ih =>
      intro s
      obtain ⟨rows, h, hlen, hseq, hins⟩ := ih (s.enqueueInsert job)
      let v : VersionedJob := { version := s.versionCounter + 1, insertSeq := s.insertSeq, job }
      have hfresh : ∀ w ∈ rows, s.versionCounter + 1 < w.version := fun w hw => (h.fresh w hw).1
      have hle : s.versionCounter + 1 ≤ ((job :: jobs).foldl JobStore.enqueueInsert s).versionCounter :=
        h.version_le
      refine ⟨v :: rows, ⟨?_, ?_, ?_, Nat.le_of_succ_le hle, h.flusher, h.committed, h.error, h.cfg, h.db⟩,
        ?_, ?_, hins⟩
      · rw [List.foldl_cons, h.pending]
        change s.pendingInserts ++ [v] ++ rows = _
        rw [List.append_assoc]
        rfl
      · rw [List.pairwise_cons]
        exact ⟨hfresh, h.sorted⟩
      · intro w hw
        rcases List.mem_cons.mp hw with rfl | hw
        · exact ⟨Nat.lt_succ_self _, hle⟩
        · exact ⟨Nat.lt_of_succ_lt (hfresh w hw), (h.fresh w hw).2⟩
      · rw [List.length_cons, List.length_cons, hlen]
      · intro w hw
        rcases List.mem_cons.mp hw with rfl | hw
        · rfl
        · exact hseq w hw

theorem enqueueInserts_spec (s : JobStore) (jobs : List Job) :
    ∃ rows, Enqueued s (s.enqueueInserts jobs) rows ∧ rows.length = jobs.length ∧
      (∀ v ∈ rows, v.insertSeq = s.insertSeq + 1) ∧ (s.enqueueInserts jobs).insertSeq = s.insertSeq + 1 := by
  obtain ⟨rows, h, hrest⟩ := foldl_enqueueInsert jobs { s with insertSeq := s.insertSeq + 1 }
  exact ⟨rows, ⟨h.pending, h.sorted, h.fresh, h.version_le, h.flusher, h.committed, h.error, h.cfg, h.db⟩,
    hrest⟩

/-- A store that only got newer rows, or none, and the same transactions. -/
theorem Consistent.enqueued {t : StoreTrace} (h : t.Consistent) {s' : JobStore} {rows : List VersionedJob}
    (hq : Enqueued t.store s' rows) (hseq : ∀ v ∈ rows, v.insertSeq ≤ s'.insertSeq)
    (hins : t.store.insertSeq ≤ s'.insertSeq) (calls : List InsertCall) :
    Consistent { t with store := s', calls := calls } := by
  refine ⟨?_, ?_, ?_, ?_, ?_, ?_⟩
  · simp only [hq.pending, List.pairwise_append]
    refine ⟨h.sorted, hq.sorted, ?_⟩
    intro v hv w hw
    exact (h.version_le v (Or.inl hv)).trans_lt (hq.fresh w hw).1
  · simp only [hq.pending, hq.flusher, List.mem_append]
    rintro v ((hv | hv) | hv)
    · exact (h.version_le v (Or.inl hv)).trans hq.version_le
    · exact (hq.fresh v hv).2
    · exact (h.version_le v (Or.inr hv)).trans hq.version_le
  · simp only [hq.pending, hq.flusher]
    intro v hv
    rw [← List.append_assoc, List.mem_append] at hv
    rcases hv with hv | hv
    · exact (h.seq_le v hv).trans hins
    · exact hseq v hv
  · simp only [hq.committed]
    exact h.committed_le.trans hins
  · simp only [hq.error]
    exact h.error_iff
  · simp only [hq.flusher]
    exact h.error_ne

theorem Stage.enqueued {t : StoreTrace} (h : t.Consistent) {c : InsertCall} (hc : t.Stage c) {s' : JobStore}
    {rows : List VersionedJob} (hq : Enqueued t.store s' rows) (calls : List InsertCall) :
    Stage { t with store := s', calls := calls } c := by
  have hfits : FitsBatch { t with store := s', calls := calls } c ↔ t.FitsBatch c := by
    simp only [FitsBatch, hq.cfg]
  have hnewer : ∀ v : VersionedJob, v.version ≤ t.store.versionCounter →
      (∀ w ∈ t.store.pendingInserts, v.version < w.version) → ∀ w ∈ s'.pendingInserts, v.version < w.version := by
    intro v hle hold w hw
    rw [hq.pending, List.mem_append] at hw
    rcases hw with hw | hw
    · exact hold w hw
    · exact hle.trans_lt (hq.fresh w hw).1
  cases hc with
  | waiting ahead behind hpending hahead holder hfly hcommitted hout hfin =>
      refine .waiting ahead (behind ++ rows) ?_ (by simpa only [hq.cfg] using hahead) holder
        (by simpa only [hq.flusher] using hfly) (by simpa only [hq.committed] using hcommitted)
        (by simpa only [hq.flusher] using hout) hfin
      rw [hq.pending, hpending]
      simp only [List.append_assoc]
  | flying hf hrows hcommitted hfin hnew =>
      refine .flying (hfits.mpr hf) (by simpa only [hq.flusher] using hrows)
        (by simpa only [hq.committed] using hcommitted) hfin ?_
      exact fun v hv => hnewer v (h.version_le v (Or.inr (Or.inl (hrows v hv)))) (hnew v hv)
  | finished x hf hx hrows honly hout hnew =>
      refine .finished x (hfits.mpr hf) hx hrows honly (by simpa only [hq.flusher] using hout) ?_
      exact fun v hv => hnewer v (h.version_le v (Or.inr (Or.inr ⟨x, hx, hrows v hv⟩))) (hnew v hv)
  | split b v w hf hv hvb hw hwb hwhere =>
      exact .split b v w (fun hc => hf (hfits.mp hc)) hv hvb hw hwb
        (by simpa only [hq.flusher, hq.committed] using hwhere)

/-- The three things a flusher step can do. -/
inductive FlusherMove (t t' : StoreTrace) : Prop where
  | idle (h : t' = t)
  | take (hw : t.store.flusher = .waiting) (h : t' = { t with store := t.store.take })
  | commit (b : Batch) (error : Option String) (db : Database) (hb : t.store.flusher = .taken b)
      (herror : error ≠ some "") (hdb : Transaction.Turns ⟨b, error⟩ t.store.db db)
      (h : t' = { t with store := { t.store with db, flusher := .committed b error } })
  | retire (b : Batch) (error : Option String) (hb : t.store.flusher = .committed b error)
      (h : t' = { t with store := t.store.retire b error, finished := t.finished ++ [⟨b, error⟩] })

theorem step_flusher (t : StoreTrace) (fault : Option SqlError) : FlusherMove t (t.step (.flusher fault)) := by
  unfold step transactions current JobStore.flusherStep
  cases hf : t.store.flusher with
  | waiting =>
      by_cases hp : t.store.hasPendingLocked = true
      · refine .take hf ?_
        simp only [hp, if_true, List.append_nil]
      · refine .idle ?_
        simp only [hp, if_false, List.append_nil, Bool.false_eq_true]
  | taken b =>
      obtain ⟨error, db, hcommit, hdb, herror⟩ := commit_frame t.store fault b
      refine .commit b error db hf herror hdb ?_
      simp only [hcommit, List.append_nil]
  | committed b error => exact .retire b error hf rfl

theorem flying_waiting {t : StoreTrace} (hw : t.store.flusher = .waiting) : t.store.flusher.flying.inserts = [] := by
  rw [hw]
  rfl

theorem Consistent.flusherMove {t t' : StoreTrace} (h : t.Consistent) (hm : FlusherMove t t') : t'.Consistent := by
  cases hm with
  | idle heq => exact heq ▸ h
  | take hw heq =>
      subst heq
      refine ⟨h.sorted.drop, ?_, ?_, h.committed_le, h.error_iff, fun b e hc => by cases hc⟩
      · rintro v (hv | hv | hv)
        · exact h.version_le v (Or.inl (List.mem_of_mem_drop hv))
        · exact h.version_le v (Or.inl (List.mem_of_mem_take hv))
        · exact h.version_le v (Or.inr (Or.inr hv))
      · intro v hv
        apply h.seq_le v (List.mem_append_right _ _)
        rcases List.mem_append.mp hv with hv | hv
        · exact List.mem_of_mem_take hv
        · exact List.mem_of_mem_drop hv
  | commit b error db hb herror _ heq =>
      subst heq
      have hfly : t.store.flusher.flying = b := by rw [hb]; rfl
      refine ⟨h.sorted, hfly ▸ h.version_le, hfly ▸ h.seq_le, h.committed_le, h.error_iff, ?_⟩
      rintro _ e ⟨⟩ rfl
      exact herror rfl
  | retire b error hb heq =>
      subst heq
      have hfly : t.store.flusher.flying = b := by rw [hb]; rfl
      refine ⟨h.sorted, ?_, ?_, ?_, ?_, fun b e hc => by cases hc⟩
      · rintro v (hv | hv | ⟨x, hx, hv⟩)
        · exact h.version_le v (Or.inl hv)
        · exact absurd hv List.not_mem_nil
        · rcases List.mem_append.mp hx with hx | hx
          · exact h.version_le v (Or.inr (Or.inr ⟨x, hx, hv⟩))
          · rw [List.mem_singleton.mp hx] at hv
            exact h.version_le v (Or.inr (Or.inl (hfly ▸ hv)))
      · exact fun v hv => h.seq_le v (List.mem_append_right _ hv)
      · change (if t.store.committedInsertSeq < b.insertSeq then b.insertSeq else _) ≤ t.store.insertSeq
        split_ifs with hc
        · obtain ⟨v, hv, hseq⟩ := b.insertSeq_mem hc
          exact hseq ▸ h.seq_le v (List.mem_append_left _ (hfly ▸ hv))
        · exact h.committed_le
      · change error.getD t.store.lastFlushError = "" ↔ _
        simp only [List.mem_append, List.mem_singleton, or_imp, forall_and, forall_eq]
        cases error with
        | none => simpa using h.error_iff
        | some e =>
            have hne : e ≠ "" := h.error_ne b e hb
            simp [hne]

/-- A take that reaches the rows of a waiting call either takes all of them or cuts through them. -/
theorem take_rows {m : ℕ} {ahead rows : List VersionedJob} (behind : List VersionedJob)
    (hlt : ahead.length < m) (hrows : rows ≠ []) :
    (ahead.length + rows.length ≤ m → (∀ v ∈ rows, v ∈ (ahead ++ (rows ++ behind)).take m) ∧
      ∀ w ∈ (ahead ++ (rows ++ behind)).drop m, w ∈ behind) ∧
    (¬ ahead.length + rows.length ≤ m → (∃ v ∈ rows, v ∈ (ahead ++ (rows ++ behind)).take m) ∧
      ∃ w ∈ rows, w ∈ (ahead ++ (rows ++ behind)).drop m) := by
  have hahead : ahead.take m = ahead := List.take_of_length_le hlt.le
  have hahead' : ahead.drop m = [] := List.drop_eq_nil_of_le hlt.le
  rw [List.take_append, List.drop_append, List.take_append, List.drop_append, hahead, hahead', List.nil_append]
  constructor
  · intro hle
    rw [List.take_of_length_le (by omega : rows.length ≤ m - ahead.length),
      List.drop_eq_nil_of_le (by omega : rows.length ≤ m - ahead.length)]
    refine ⟨fun v hv => by simp [hv], fun w hw => ?_⟩
    exact List.mem_of_mem_drop hw
  · intro hnle
    obtain ⟨v, tl, rfl⟩ := List.exists_cons_of_ne_nil hrows
    refine ⟨⟨v, List.mem_cons_self, ?_⟩, ?_⟩
    · obtain ⟨k, hk⟩ : ∃ k, m - ahead.length = k + 1 := ⟨m - ahead.length - 1, by omega⟩
      rw [hk, List.take_succ_cons]
      simp
    · have hlen : ((v :: tl).drop (m - ahead.length)).length ≠ 0 := by
        rw [List.length_drop]
        omega
      obtain ⟨w, hw⟩ := List.exists_mem_of_length_pos (Nat.pos_of_ne_zero hlen)
      exact ⟨w, List.mem_of_mem_drop hw, List.mem_append_left _ hw⟩

theorem Stage.take {t : StoreTrace} (h : t.Consistent) {c : InsertCall} (hrows : c.rows ≠ [])
    (hc : t.Stage c) (hw : t.store.flusher = .waiting) :
    Stage { t with store := t.store.take } c := by
  have hnofly := flying_waiting hw
  have hcut : ∀ v ∈ t.store.pendingInserts.take t.store.cfg.maxBatch,
      ∀ w ∈ t.store.pendingInserts.drop t.store.cfg.maxBatch, v.version < w.version := by
    have hsorted := h.sorted
    rw [← List.take_append_drop t.store.cfg.maxBatch t.store.pendingInserts, List.pairwise_append] at hsorted
    exact hsorted.2.2
  cases hc with
  | waiting ahead behind hpending hahead holder _ hcommitted _ hfin =>
      by_cases hlt : ahead.length < t.store.cfg.maxBatch
      · -- the batch reaches the rows of the call
        obtain ⟨hall, hpart⟩ := take_rows behind hlt hrows
        rw [← hpending] at hall hpart
        rw [Nat.mod_eq_of_lt hlt] at hahead
        by_cases hfits : t.FitsBatch c
        · obtain ⟨htake, -⟩ := hall (by rw [hahead]; exact hfits)
          refine .flying hfits htake hcommitted hfin ?_
          intro v hv w hw'
          exact hcut v (htake v hv) w hw'
        · obtain ⟨⟨v, hv, hvb⟩, w, hw', hwd⟩ := hpart (by rw [hahead]; exact hfits)
          refine .split _ v w hfits hv hvb hw' ?_ (Or.inl ⟨rfl, hcommitted⟩)
          exact fun hwt => lt_irrefl _ (hcut w hwt w hwd)
      · have hle : t.store.cfg.maxBatch ≤ ahead.length := not_lt.mp hlt
        have htake : t.store.pendingInserts.take t.store.cfg.maxBatch = ahead.take t.store.cfg.maxBatch := by
          rw [hpending, List.take_append_of_le_length hle]
        have hdrop : t.store.pendingInserts.drop t.store.cfg.maxBatch =
            ahead.drop t.store.cfg.maxBatch ++ (c.rows ++ behind) := by
          rw [hpending, List.drop_append_of_le_length hle]
        refine .waiting (ahead.drop t.store.cfg.maxBatch) behind hdrop ?_ ?_ ?_ hcommitted ?_ hfin
        · rw [List.length_drop]
          exact (Nat.mod_eq_sub_mod hle).symm.trans hahead
        · exact fun v hv => holder v (List.mem_of_mem_drop hv)
        · intro v hv
          change v ∈ t.store.pendingInserts.take t.store.cfg.maxBatch at hv
          rw [htake] at hv
          exact holder v (List.mem_of_mem_take hv)
        · intro v hv hmem
          have hvd : v ∈ t.store.pendingInserts.drop t.store.cfg.maxBatch := by
            rw [hdrop]
            exact List.mem_append_right _ (List.mem_append_left _ hv)
          exact lt_irrefl _ (hcut v hmem v hvd)
  | flying hfits hin hcommitted hfin hnew =>
      obtain ⟨v, hv⟩ := List.exists_mem_of_ne_nil _ hrows
      have hmem := hin v hv
      rw [hnofly] at hmem
      exact absurd hmem List.not_mem_nil
  | finished x hfits hx hin honly _ hnew =>
      refine .finished x hfits hx hin honly ?_ fun v hv w hw' => hnew v hv w (List.mem_of_mem_drop hw')
      exact fun v hv hmem => lt_irrefl _ (hnew v hv v (List.mem_of_mem_take hmem))
  | split b v w hfits hv hvb hw' hwb hwhere =>
      refine .split b v w hfits hv hvb hw' hwb (Or.inr ?_)
      rcases hwhere with ⟨rfl, -⟩ | hfin
      · rw [hnofly] at hvb
        exact absurd hvb List.not_mem_nil
      · exact hfin

theorem Stage.retire {t : StoreTrace} {c : InsertCall} (hc : t.Stage c)
    {b : Batch} {error : Option String} (hb : t.store.flusher = .committed b error) :
    Stage { t with store := t.store.retire b error, finished := t.finished ++ [⟨b, error⟩] } c := by
  have hfly : t.store.flusher.flying = b := by rw [hb]; rfl
  have hmem : ∀ {P : Transaction → Prop}, (∀ x ∈ t.finished, P x) → P ⟨b, error⟩ →
      ∀ x ∈ t.finished ++ [⟨b, error⟩], P x := by
    intro P hold hnew x hx
    rcases List.mem_append.mp hx with hx | hx
    · exact hold x hx
    · exact List.mem_singleton.mp hx ▸ hnew
  cases hc with
  | waiting ahead behind hpending hahead holder hflying hcommitted hout hfin =>
      rw [hfly] at hflying hout
      refine .waiting ahead behind hpending hahead holder (fun v hv => absurd hv List.not_mem_nil) ?_
        (fun v _ hv => absurd hv List.not_mem_nil) (hmem hfin fun ⟨v, hv, hvb⟩ => hout v hv hvb)
      change (if t.store.committedInsertSeq < b.insertSeq then b.insertSeq else _) < c.seq
      split_ifs with hlt
      · obtain ⟨v, hv, hseq⟩ := b.insertSeq_mem hlt
        exact hseq ▸ hflying v hv
      · exact hcommitted
  | flying hfits hin _ hfin hnew =>
      rw [hfly] at hin
      refine .finished ⟨b, error⟩ hfits (by simp) hin ?_ (fun v _ hv => absurd hv List.not_mem_nil) hnew
      exact hmem (fun x hx hholds => absurd hholds (hfin x hx)) fun _ => rfl
  | finished x hfits hx hin honly hout hnew =>
      rw [hfly] at hout
      refine .finished x hfits (List.mem_append_left _ hx) hin ?_ (fun v _ hv => absurd hv List.not_mem_nil) hnew
      exact hmem honly fun ⟨v, hv, hvb⟩ => absurd hvb (hout v hv)
  | split b' v w hfits hv hvb hw hwb hwhere =>
      refine .split b' v w hfits hv hvb hw hwb (Or.inr ?_)
      rcases hwhere with ⟨hb', -⟩ | ⟨x, hx, hxb⟩
      · exact ⟨⟨b, error⟩, by simp, hfly.symm.trans hb'⟩
      · exact ⟨x, List.mem_append_left _ hx, hxb⟩

theorem Stage.flusherMove {t t' : StoreTrace} (h : t.Consistent) {c : InsertCall} (hrows : c.rows ≠ [])
    (hc : t.Stage c) (hm : FlusherMove t t') : t'.Stage c := by
  cases hm with
  | idle heq => exact heq ▸ hc
  | take hw heq => exact heq ▸ hc.take h hrows hw
  | commit b error db hb _ _ heq =>
      subst heq
      have hfly : t.store.flusher.flying = b := by rw [hb]; rfl
      cases hc with
      | waiting ahead behind hpending hahead holder hflying hcommitted hout hfin =>
          exact .waiting ahead behind hpending hahead holder (hfly ▸ hflying) hcommitted (hfly ▸ hout) hfin
      | flying hfits hin hcommitted hfin hnew => exact .flying hfits (hfly ▸ hin) hcommitted hfin hnew
      | finished x hfits hx hin honly hout hnew => exact .finished x hfits hx hin honly (hfly ▸ hout) hnew
      | split b' v w hfits hv hvb hw hwb hwhere =>
          exact .split b' v w hfits hv hvb hw hwb (hwhere.imp_left fun hl => ⟨hfly ▸ hl.1, hl.2⟩)
  | retire b error hb heq => exact heq ▸ hc.retire hb

/-- What holds in every run. -/
structure Tracked (t : StoreTrace) (cfg : StoreConfig) : Prop where
  cfg_eq : t.store.cfg = cfg
  consistent : t.Consistent
  stage : ∀ c ∈ t.calls, c.rows ≠ [] → t.Stage c

theorem Tracked.enqueued {t : StoreTrace} {cfg : StoreConfig} (h : t.Tracked cfg) {s' : JobStore}
    (hq : Enqueued t.store s' []) (hins : t.store.insertSeq ≤ s'.insertSeq) :
    Tracked { t with store := s' } cfg :=
  ⟨hq.cfg.trans h.cfg_eq, h.consistent.enqueued hq (by simp) hins t.calls,
    fun c hc hne => (h.stage c hc hne).enqueued h.consistent hq t.calls⟩

theorem Tracked.step {t : StoreTrace} {cfg : StoreConfig} (h : t.Tracked cfg) (e : StoreEvent) :
    (t.step e).Tracked cfg := by
  cases e with
  | insertJobs jobs =>
      by_cases hjobs : jobs = []
      · simp only [StoreTrace.step, hjobs, if_true]
        refine ⟨h.cfg_eq, ⟨h.consistent.1, h.consistent.2, h.consistent.3, h.consistent.4, h.consistent.5,
          h.consistent.6⟩, ?_⟩
        intro c hc hne
        rcases List.mem_append.mp hc with hc | hc
        · have hq : Enqueued t.store t.store [] := ⟨by simp, List.Pairwise.nil, by simp, le_refl _, rfl, rfl,
            rfl, rfl, rfl⟩
          exact (h.stage c hc hne).enqueued h.consistent hq _
        · rw [List.mem_singleton.mp hc] at hne
          exact absurd rfl hne
      · obtain ⟨rows, hq, hlen, hseq, hins⟩ := enqueueInserts_spec t.store jobs
        simp only [StoreTrace.step, hjobs, if_false]
        refine ⟨hq.cfg.trans h.cfg_eq, h.consistent.enqueued hq (fun v hv => ?_) ?_ _, ?_⟩
        · rw [hseq v hv, hins]
        · rw [hins]
          exact Nat.le_succ _
        · intro c hc hne
          rcases List.mem_append.mp hc with hc | hc
          · exact (h.stage c hc hne).enqueued h.consistent hq _
          · obtain rfl := List.mem_singleton.mp hc
            have hdrop : (t.store.enqueueInserts jobs).pendingInserts.drop t.store.pendingInserts.length = rows := by
              rw [hq.pending, List.drop_left]
            have hfresh : ∀ v ∈ rows, ∀ w, w.version ≤ t.store.versionCounter → v ≠ w := by
              rintro v hv w hle rfl
              exact absurd hle (not_le.mpr (hq.fresh v hv).1)
            refine .waiting t.store.pendingInserts [] ?_ (by simp only [hq.cfg]) ?_ ?_ ?_ ?_ ?_
            · simp only [hdrop, List.append_nil]
              exact hq.pending
            · intro v hv
              rw [hins]
              exact Nat.lt_succ_of_le (h.consistent.seq_le v (List.mem_append_right _ hv))
            · intro v hv
              simp only [hq.flusher] at hv
              rw [hins]
              exact Nat.lt_succ_of_le (h.consistent.seq_le v (List.mem_append_left _ hv))
            · simp only [hq.committed, hins]
              exact Nat.lt_succ_of_le h.consistent.committed_le
            · simp only [hdrop, hq.flusher]
              exact fun v hv hmem => hfresh v hv v (h.consistent.version_le v (Or.inr (Or.inl hmem))) rfl
            · rintro x hx ⟨v, hv, hvx⟩
              simp only [hdrop] at hv
              exact hfresh v hv v (h.consistent.version_le v (Or.inr (Or.inr ⟨x, hx, hvx⟩))) rfl
  | updateJob job =>
      have hq : Enqueued t.store (t.store.bufferUpdate job) [] :=
        ⟨by simp [JobStore.bufferUpdate], List.Pairwise.nil, by simp, Nat.le_succ _, rfl, rfl, rfl, rfl, rfl⟩
      exact h.enqueued hq (le_refl _)
  | appendAttempt rec =>
      have hq : Enqueued t.store (t.store.appendAttempt rec) [] :=
        ⟨by simp [JobStore.appendAttempt], List.Pairwise.nil, by simp, Nat.le_succ _, rfl, rfl, rfl, rfl, rfl⟩
      exact h.enqueued hq (le_refl _)
  | flusher fault =>
      have hm := step_flusher t fault
      have hcalls : (t.step (.flusher fault)).calls = t.calls := rfl
      have hcfg : (t.step (.flusher fault)).store.cfg = t.store.cfg := by
        cases hm with
        | idle heq => rw [heq]
        | take _ heq => rw [heq]; rfl
        | commit _ _ _ _ _ _ heq => rw [heq]
        | retire _ _ _ heq => rw [heq]; rfl
      refine ⟨hcfg.trans h.cfg_eq, h.consistent.flusherMove hm, ?_⟩
      intro c hc hne
      exact (h.stage c hc hne).flusherMove h.consistent hne hm

theorem Tracked.run {cfg : StoreConfig} (events : List StoreEvent) :
    ∀ {t : StoreTrace}, t.Tracked cfg → (t.run events).Tracked cfg := by
  induction events with
  | nil => exact fun h => h
  | cons e events ih => exact fun h => ih (h.step e)

theorem tracked_open (cfg : StoreConfig) (db : Database) : Tracked { store := { cfg := cfg, db := db } } cfg :=
  ⟨rfl, consistent_open cfg db, fun _ hc => absurd hc List.not_mem_nil⟩

/-- The verdict on a call whose rows went through one transaction. -/
theorem durable_of_finished {t : StoreTrace} (h : t.Consistent) {c : InsertCall} (hrows : c.rows ≠ [])
    {x : Transaction} (hx : x ∈ t.finished) (hin : ∀ v ∈ c.rows, v ∈ x.batch.inserts)
    (honly : ∀ y ∈ t.finished, Holds y c → y = x) (hout : ∀ v ∈ c.rows, v ∉ t.store.flusher.flying.inserts) :
    t.Durable c ↔ t.OwnFailure c := by
  have honly' : ∀ y ∈ t.transactions, Holds y c → y = x := by
    rintro y hy ⟨v, hv, hvy⟩
    rcases List.mem_append.mp hy with hy | hy
    · exact honly y hy ⟨v, hv, hvy⟩
    · have hvo := hout v hv
      unfold current at hy
      cases hf : t.store.flusher with
      | waiting => rw [hf] at hy; cases hy
      | taken b => rw [hf] at hy; cases hy
      | committed b error =>
          rw [hf] at hy hvo
          rw [List.mem_singleton.mp hy] at hvy
          exact absurd hvy hvo
  have hx' : x ∈ t.transactions := List.mem_append_left _ hx
  have hcommitted : ∀ v ∈ c.rows, (t.Committed v ↔ x.error = none) := by
    intro v hv
    constructor
    · rintro ⟨y, hy, hok, hvy⟩
      exact honly' y hy ⟨v, hv, hvy⟩ ▸ hok
    · exact fun hok => ⟨x, hx', hok, hin v hv⟩
  have hverdict : t.verdict c = true ↔ ∀ y ∈ t.finished, y.error = none := by
    unfold verdict JobStore.insertVerdict
    simp only [List.isEmpty_eq_false_iff.mpr hrows, Bool.false_or, decide_eq_true_eq]
    exact h.error_iff
  have hverdict' : t.verdict c = false ↔ ¬ ∀ y ∈ t.finished, y.error = none := by
    rw [← hverdict]
    simp
  obtain ⟨v₀, hv₀⟩ := List.exists_mem_of_ne_nil _ hrows
  unfold Durable OwnFailure
  rw [hverdict, hverdict']
  constructor
  · rintro ⟨-, hfalse, -⟩
    by_cases hall : ∀ y ∈ t.finished, y.error = none
    · exact Or.inl hall
    · refine Or.inr ⟨x, hx, fun hok => ?_, v₀, hv₀, hin v₀ hv₀⟩
      exact hfalse hall v₀ hv₀ ((hcommitted v₀ hv₀).mpr hok)
  · intro hown
    refine ⟨fun hall v hv => (hcommitted v hv).mpr (hall x hx), ?_, ?_⟩
    · intro hnall v hv hcom
      rcases hown with hall | ⟨y, hy, hfail, hholds⟩
      · exact hnall hall
      · exact hfail (honly y hy hholds ▸ (hcommitted v hv).mp hcom)
    · intro y hy v hv w hw hvy
      rw [honly' y hy ⟨v, hv, hvy⟩]
      exact hin w hw

/-- **Durable before acknowledged, and when.** For every call that returns, whatever the other inserters
did and whichever transactions failed. -/
theorem insert_durable_iff (cfg : StoreConfig) (db : Database) (events : List StoreEvent) (c : InsertCall)
    (hc : c ∈ (run { store := { cfg := cfg, db := db } } events).calls)
    (hret : (run { store := { cfg := cfg, db := db } } events).Returns c) :
    (run { store := { cfg := cfg, db := db } } events).Durable c ↔
      c.rows = [] ∨ ((run { store := { cfg := cfg, db := db } } events).FitsBatch c ∧
        (run { store := { cfg := cfg, db := db } } events).OwnFailure c) := by
  have htracked := (tracked_open cfg db).run events
  generalize run { store := { cfg := cfg, db := db } } events = t at *
  by_cases hrows : c.rows = []
  · refine ⟨fun _ => Or.inl hrows, fun _ => ⟨?_, ?_, ?_⟩⟩ <;> simp [hrows]
  have hle : c.seq ≤ t.store.committedInsertSeq := by
    rcases hret with hnil | hret
    · exact absurd hnil hrows
    · exact of_decide_eq_true hret
  simp only [hrows, false_or]
  cases htracked.stage c hc hrows with
  | waiting ahead behind _ _ _ _ hcommitted _ _ => exact absurd hle (not_le.mpr hcommitted)
  | flying _ _ hcommitted _ _ => exact absurd hle (not_le.mpr hcommitted)
  | finished x hfits hx hin honly hout _ =>
      rw [durable_of_finished htracked.consistent hrows hx hin honly hout]
      exact ⟨fun hown => ⟨hfits, hown⟩, And.right⟩
  | split b v w hfits hv hvb hw hwb hwhere =>
      refine ⟨fun hd => ?_, fun hcond => absurd hcond.1 hfits⟩
      rcases hwhere with ⟨-, hcommitted⟩ | ⟨x, hx, rfl⟩
      · exact absurd hle (not_le.mpr hcommitted)
      · exact absurd (hd.2.2 x (List.mem_append_left _ hx) v hv w hw hvb) hwb

def diskError : SqlError := ⟨"disk I/O error", by decide⟩

/-- Two callers with two rows each. The second one queues while the batch of the first is in flight, which fails. -/
def twoCallers : List StoreEvent :=
  [.insertJobs [{ jobId := "a" }, { jobId := "b" }], .flusher none, .insertJobs [{ jobId := "c" }, { jobId := "d" }],
    .flusher (some diskError), .flusher none, .flusher none, .flusher none, .flusher none]

def firstCall : InsertCall := ⟨1, [⟨1, 1, { jobId := "a" }⟩, ⟨2, 1, { jobId := "b" }⟩], 0⟩

def secondCall : InsertCall := ⟨2, [⟨3, 2, { jobId := "c" }⟩, ⟨4, 2, { jobId := "d" }⟩], 0⟩

/-- The first caller is told the truth, the second one of the failure of the first. -/
theorem insert_durable_iff_twoCallers :
    let t := run { store := { cfg := { maxBatch := 2 }, db := {} } } twoCallers
    t.calls = [firstCall, secondCall] ∧ t.Returns firstCall ∧ t.Returns secondCall ∧ t.Durable firstCall ∧
      ¬ t.Durable secondCall := by
  intro t
  have hcalls : t.calls = [firstCall, secondCall] := rfl
  have hfinished : t.finished =
      [⟨{ inserts := firstCall.rows }, some "disk I/O error"⟩, ⟨{ inserts := secondCall.rows }, none⟩] := rfl
  have hfirst := insert_durable_iff { maxBatch := 2 } {} twoCallers firstCall (by rw [hcalls]; simp) (.inr rfl)
  have hsecond := insert_durable_iff { maxBatch := 2 } {} twoCallers secondCall (by rw [hcalls]; simp) (.inr rfl)
  refine ⟨hcalls, .inr rfl, .inr rfl, hfirst.mpr (.inr ⟨le_refl 2, .inr ?_⟩), fun hdurable => ?_⟩
  · rw [hfinished]
    exact ⟨_, List.mem_cons_self, Option.some_ne_none _, _, List.mem_cons_self, List.mem_cons_self⟩
  · -- the second call has no failure of its own
    rcases hsecond.mp hdurable with hnil | ⟨-, hown⟩
    · cases hnil
    · rw [OwnFailure, hfinished] at hown
      simp [Holds, firstCall, secondCall] at hown

/-- Two ways to be misled. A call of two rows with batches of one returns `true` after its first row. A
call made after an unrelated transaction failed returns `false` although its row is committed. -/
theorem insert_verdict_misleads :
    (let t := run { store := { cfg := { maxBatch := 1 }, db := {} } }
        [.insertJobs [{ jobId := "a" }, { jobId := "b" }], .flusher none, .flusher none, .flusher none]
      ∃ c ∈ t.calls, t.Returns c ∧ t.verdict c = true ∧ ∃ v ∈ c.rows, ¬ t.Committed v) ∧
    (let t := run { store := { cfg := {}, db := {} } }
        [.insertJobs [{ jobId := "a" }], .flusher none, .flusher (some ⟨"disk I/O error", by decide⟩), .flusher none,
          .insertJobs [{ jobId := "b" }], .flusher none, .flusher none, .flusher none]
      ∃ c ∈ t.calls, t.Returns c ∧ t.verdict c = false ∧ ∃ v ∈ c.rows, t.Committed v) := by
  constructor
  · refine ⟨_, List.mem_singleton.mpr rfl, Or.inr rfl, rfl,
      { version := 2, insertSeq := 1, job := { jobId := "b" } }, ?_, ?_⟩
    · exact List.mem_cons_of_mem _ List.mem_cons_self
    · rintro ⟨x, hx, -, hv⟩
      rw [List.mem_singleton.mp (show x ∈ [_] from hx)] at hv
      have hversion := congrArg VersionedJob.version (List.mem_singleton.mp hv)
      exact absurd hversion (by decide)
  · refine ⟨_, List.mem_cons_of_mem _ List.mem_cons_self, Or.inr rfl, rfl, _, List.mem_cons_self, ?_⟩
    exact ⟨_, List.mem_cons_of_mem _ List.mem_cons_self, rfl, List.mem_cons_self⟩

end StoreTrace

/-! ### What is in the database -/

namespace Database

variable {db db' : Database}

theorem getJob_insertJobs {jobs : List Job} (h : db.insertJobs jobs = .ok db') (id : JobId) :
    db'.getJob id = ((Table.last Job.jobId jobs id).map Job.persisted).or (db.getJob id) := by
  induction jobs generalizing db with
  | nil =>
      cases h
      rfl
  | cons job jobs ih =>
      obtain ⟨t, hins, h⟩ := insertJobs_cons_eq_ok h
      have hrow : ({ db with jobs := t } : Database).getJob id =
          if job.jobId = id then some job.persisted else db.getJob id := Table.lookup_of_insert hins
      rw [ih h, hrow, Table.last_cons, Option.map_or, Option.or_assoc]
      split_ifs <;> rfl

/-- An update changes the row that is there and adds none. -/
theorem getJob_foldl_updateJob (jobs : List Job) (db : Database) (id : JobId) :
    (jobs.foldl updateJob db).getJob id =
      (db.getJob id).map fun r => ((Table.last Job.jobId jobs id).map Job.persisted).getD r := by
  induction jobs generalizing db with
  | nil => exact Option.map_id'.symm
  | cons job jobs ih =>
      have hrow : (db.updateJob job).getJob id =
          if job.jobId = id then (db.getJob id).map fun _ => job.persisted else db.getJob id := Table.lookup_update
      rw [List.foldl_cons, ih, hrow, Table.last_cons]
      split_ifs
      · rw [Option.map_map]
        congr 1
        funext r
        cases Table.last Job.jobId jobs id <;> rfl
      · rw [Option.or_none]

/-- A batch that commits: first its inserts, then its updates. -/
theorem getJob_commitBatch {b : Batch} (h : db.commitBatch b = .ok db') (id : JobId) :
    db'.getJob id =
      (((Table.last Job.jobId (b.inserts.map (·.job)) id).map Job.persisted).or (db.getJob id)).map fun r =>
        ((Table.last Job.jobId (b.updates.map (·.job)) id).map Job.persisted).getD r := by
  rw [commitBatch] at h
  cases hins : db.insertJobs (b.inserts.map (·.job)) with
  | error e =>
      rw [hins] at h
      cases h
  | ok db₁ =>
      rw [hins] at h
      cases h
      rw [foldl_appendAttempt, ← getJob_insertJobs hins, ← getJob_foldl_updateJob]
      rfl

end Database

/-- The rows that it wrote, in order. -/
def Transaction.written (x : Transaction) : List Job :=
  if x.error = none then x.batch.inserts.map (·.job) ++ x.batch.updates.map (·.job) else []

namespace StoreTrace

def written (t : StoreTrace) : List Job := t.transactions.flatMap Transaction.written

end StoreTrace

end DistributedJobEngine
