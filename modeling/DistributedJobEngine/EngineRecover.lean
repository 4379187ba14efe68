import DistributedJobEngine.EngineColumns

/-! Recovery after a restart: `recover` rebuilds the maps of workflows and puts the jobs that have not ended back
on the queue. It runs on a fresh engine before any other call, so it is one function. -/

namespace DistributedJobEngine

open LibTable

/-- The row is one that recovery puts on the queue. -/
def Job.recovers (job : Job) : Bool := decide (job.state = .running) || job.state.isWaiting

namespace JobEngine

variable {e e' : JobEngine}

/-- `m[w] += 1`. -/
def bump (m : AList fun _ : WorkflowId => Int) (w : WorkflowId) : AList fun _ : WorkflowId => Int :=
  m.insert w ((m.lookup w).getD 0 + 1)

/-- The inner loop over the nodes of `w`: one more that remains, or one more that failed. -/
def countNodes (w : WorkflowId) (jobs : List Job)
    (acc : (AList fun _ : WorkflowId => Int) × AList fun _ : WorkflowId => Int) :
    (AList fun _ : WorkflowId => Int) × AList fun _ : WorkflowId => Int :=
  jobs.foldl (fun acc job =>
    if job.state.isTerminal = false then (bump acc.1 w, acc.2)
    else if job.state ≠ .succeeded then (acc.1, bump acc.2 w)
    else acc) acc

/-- The workflows that still have a node to run. -/
def openWorkflows (pending : List Job) : List WorkflowId :=
  ((pending.map (·.workflowId)).filter fun w => decide (w ≠ "")).dedup

/-- The completion counters `remaining` and `failures`. -/
def recoverCounters (e : JobEngine) (pending : List Job) :
    (AList fun _ : WorkflowId => Int) × AList fun _ : WorkflowId => Int :=
  (openWorkflows pending).foldl (fun acc w => countNodes w (e.db.listWorkflowJobs w) acc) (∅, ∅)

/-- The row of a job that was interrupted mid-execution. -/
def recoveredRow (e : JobEngine) (job : Job) : Job :=
  { job with
    state := .queued
    leaseToken := 0
    leaseOwner := ""
    leaseExpiresMs := 0
    readyAtWallMs := e.wallMs
    error := "recovered after coordinator restart" }

/-- One turn of the loop over the jobs that have not ended. -/
def recoverJob (e : JobEngine) (job : Job) : JobEngine :=
  let e := { e with outstanding := e.outstanding + 1 }
  if job.state = .running then
    let row := e.recoveredRow job
    (e.persist row).enqueue row
  else if job.state.isWaiting then e.enqueue job
  else e

/-- The maps of the workflows, under `wf_mutex_`. -/
def recoverGraph (e : JobEngine) (pending : List Job) : JobEngine :=
  let counters := e.recoverCounters pending
  { e with
    children := e.db.loadAllDependencies.foldl (fun ch d => ch.insert d.1 ((ch.lookup d.1).getD [] ++ [d.2]))
      e.children
    pendingDeps := pending.foldl (fun pd j => pd.insert j.jobId j.pendingDeps) e.pendingDeps
    wfNodes := pending.foldl (fun nodes j =>
      if j.workflowId = "" then nodes
      else nodes.insert j.workflowId (insert j.jobId ((nodes.lookup j.workflowId).getD ∅))) e.wfNodes
    wfRemaining := counters.1 ∪ e.wfRemaining
    wfFailures := counters.2 ∪ e.wfFailures }

def recover (e : JobEngine) : ℕ × JobEngine :=
  let pending := e.db.loadNonTerminalJobs
  let e := pending.foldl recoverJob (e.recoverGraph pending)
  (pending.length, { e with seqCounter := pending.foldl (fun m j => max m j.seq) 0 + 1 })

/-! ### The loop over the jobs -/

/-- What the loop does: the rows `jobs` get slots, and those that recover go to the queue as far as it takes them.
Besides that only rows, log and journal change. -/
structure Recovered (e e' : JobEngine) (jobs : List Job) : Prop where
  shape : ∃ q log n rows journal, e' = { e with
    queue := q
    log := log
    world := { e.world with pos := n }
    db := { e.db with jobs := rows }
    journal := journal
    outstanding := e.outstanding + jobs.length }
  kept : e.queue.Kept e'.queue
  live : e.queue.live ⊆ e'.queue.live ∧ e'.queue.live ⊆ e.queue.live ∪
    ((jobs.filter Job.recovers).map (·.jobId)).toFinset
  room : e.queue.closed = false → e.queue.live.card + (jobs.filter Job.recovers).length ≤ e.queue.capacity →
    e'.queue.live = e.queue.live ∪ ((jobs.filter Job.recovers).map (·.jobId)).toFinset
  bounded : e.queue.live.card ≤ e.queue.capacity → e'.queue.live.card ≤ e'.queue.capacity
  entries : ∀ j a, e'.queue.toMap.entries.lookup j = some a →
    e.queue.toMap.entries.lookup j = some a ∨ ∃ job ∈ jobs, job.jobId = j ∧ a.priority = job.priority

theorem queue_enqueue (job : Job) :
    (e.enqueue job).queue = (e.queue.push e.tick.nowMs job.jobId job.priority (e.readySteady job)).2 := by
  unfold enqueue
  dsimp only
  split_ifs <;> rfl

/-- An entry that is there after `enqueue` was there before or is that of the job. -/
theorem entry_enqueue (hq : e.queue.Consistent) {job : Job} {j : JobId} {a : MapEntry}
    (h : (e.enqueue job).queue.toMap.entries.lookup j = some a) :
    e.queue.toMap.entries.lookup j = some a ∨
      job.jobId = j ∧ a = ⟨job.priority, e.queue.nextSeq, e.readySteady job⟩ := by
  rw [queue_enqueue, (hq.toMap_push _ _ _ _).2, MapQueue.push] at h
  split_ifs at h
  · exact .inl h
  · exact .inl h
  · by_cases hj : j = job.jobId
    · subst hj
      rw [Finmap.lookup_insert, Option.some.injEq] at h
      exact .inr ⟨rfl, h.symm⟩
    · rw [Finmap.lookup_insert_of_ne _ hj] at h
      exact .inl h

theorem card_live_enqueue (hq : e.queue.Consistent) (job : Job) (h : e.queue.live.card ≤ e.queue.capacity) :
    (e.enqueue job).queue.live.card ≤ (e.enqueue job).queue.capacity := by
  have hkept := (enqueue_queued hq job).kept
  rw [hkept.capacity, hkept.consistent.card_live]
  rw [hq.card_live] at h
  have hsize := (hkept.consistent.card_toMap).symm
  change (e.enqueue job).queue.liveCountLocked = _ at hsize
  rw [hsize, queue_enqueue, (hq.toMap_push _ _ _ _).2, MapQueue.push]
  have hcard : e.queue.toMap.entries.keys.card = e.queue.liveCountLocked := hq.card_toMap
  split_ifs with hclosed hfull
  · exact hcard.trans_le h
  · exact hcard.trans_le h
  · change ¬ e.queue.capacity ≤ _ at hfull
    have hkeys : (e.queue.toMap.entries.insert job.jobId ⟨job.priority, e.queue.toMap.nextSeq,
      e.readySteady job⟩).keys =
        insert job.jobId e.queue.toMap.entries.keys := by
      ext j
      rw [Finset.mem_insert, Finmap.mem_keys, Finmap.mem_keys, Finmap.mem_insert]
    change Finset.card (Finmap.keys (e.queue.toMap.entries.insert _ _)) ≤ _
    rw [hkeys]
    exact (Finset.card_insert_le _ _).trans (by omega)

theorem Recovered.refl (hq : e.queue.Consistent) : e.Recovered e [] where
  shape := ⟨e.queue, e.log, e.world.pos, e.db.jobs, e.journal, rfl⟩
  kept := ⟨hq, rfl, rfl⟩
  live := ⟨subset_rfl, by simp⟩
  room _ _ := by simp
  bounded h := h
  entries _ _ h := .inl h

theorem Recovered.trans {e₁ e₂ : JobEngine} {jobs₁ jobs₂ : List Job} (h₁ : e.Recovered e₁ jobs₁)
    (h₂ : e₁.Recovered e₂ jobs₂) : e.Recovered e₂ (jobs₁ ++ jobs₂) where
  shape := by
    obtain ⟨q₁, log₁, n₁, rows₁, journal₁, rfl⟩ := h₁.shape
    obtain ⟨q₂, log₂, n₂, rows₂, journal₂, rfl⟩ := h₂.shape
    refine ⟨q₂, log₂, n₂, rows₂, journal₂, ?_⟩
    rw [List.length_append, ← add_assoc]
  kept := ⟨h₂.kept.consistent, h₂.kept.capacity.trans h₁.kept.capacity, h₂.kept.closed.trans h₁.kept.closed⟩
  live := by
    refine ⟨h₁.live.1.trans h₂.live.1, h₂.live.2.trans ?_⟩
    rw [List.filter_append, List.map_append, List.toFinset_append, ← Finset.union_assoc]
    exact Finset.union_subset_union_left h₁.live.2
  room hopen hroom := by
    rw [List.filter_append, List.length_append] at hroom
    have hlive₁ := h₁.room hopen (by omega)
    have hle : e₁.queue.live.card ≤ e.queue.live.card + (jobs₁.filter Job.recovers).length := by
      rw [hlive₁]
      refine (Finset.card_union_le _ _).trans (Nat.add_le_add_left ?_ _)
      exact (List.toFinset_card_le _).trans_eq (List.length_map _)
    rw [h₂.room (h₁.kept.closed.trans hopen) (by rw [h₁.kept.capacity]; omega), hlive₁, List.filter_append,
      List.map_append, List.toFinset_append, Finset.union_assoc]
  bounded h := h₂.bounded (h₁.bounded h)
  entries j a h := by
    rcases h₂.entries j a h with h | ⟨job, hmem, hjob⟩
    · exact (h₁.entries j a h).imp_right fun ⟨job, hmem, hjob⟩ => ⟨job, List.mem_append_left _ hmem, hjob⟩
    · exact .inr ⟨job, List.mem_append_right _ hmem, hjob⟩

/-- Besides the rows, a persisted row changes the log, the journal and the position of the streams. -/
theorem persist_shape (job : Job) : ∃ log n rows journal, e.persist job = { e with
    log := log
    world := { e.world with pos := n }
    db := { e.db with jobs := rows }
    journal := journal } := by
  unfold persist updateJob
  by_cases hfault : e.world.fault e.world.pos = true
  · rw [if_pos hfault]
    exact ⟨_, _, e.db.jobs, e.journal, rfl⟩
  · rw [if_neg hfault]
    exact ⟨e.log, _, _, _, rfl⟩

/-- A job that recovers is put on the queue after its row was written, if it was. -/
theorem Recovered.of_enqueue {e₁ : JobEngine} {job row : Job} (hq : e.queue.Consistent) (hjob : job.recovers = true)
    (hid : row.jobId = job.jobId) (hpri : row.priority = job.priority)
    (hshape : ∃ log n rows journal, e₁ = { e with
      outstanding := e.outstanding + 1
      log := log
      world := { e.world with pos := n }
      db := { e.db with jobs := rows }
      journal := journal }) : e.Recovered (e₁.enqueue row) [job] := by
  have hqueue : e₁.queue = e.queue := by
    obtain ⟨log, n, rows, journal, rfl⟩ := hshape
    rfl
  have hq₁ : e₁.queue.Consistent := hqueue ▸ hq
  have hfilter : [job].filter Job.recovers = [job] := by simp [hjob]
  have hqueued := enqueue_queued hq₁ row
  refine ⟨?_, hqueue ▸ hqueued.kept, ?_, ?_, ?_, fun j a h => ?_⟩
  · obtain ⟨log, n, rows, journal, he₁⟩ := hshape
    obtain ⟨q', log', n', hshape'⟩ := hqueued.shape
    refine ⟨q', log', n', rows, journal, ?_⟩
    rw [hshape', he₁]
    rfl
  · rw [hfilter, List.map_singleton, ← hid, ← hqueue]
    exact hqueued.live
  · rw [hfilter, List.map_singleton, ← hid, ← hqueue]
    exact fun hopen hroom => (hqueued.room hopen hroom).1
  · rw [← hqueue]
    exact card_live_enqueue hq₁ row
  · rw [← hqueue]
    refine (entry_enqueue hq₁ h).imp_right fun ⟨hj, ha⟩ => ⟨job, List.mem_singleton_self _, ?_, ?_⟩
    · rw [← hid, hj]
    · rw [ha, hpri]

theorem recoverJob_recovered (hq : e.queue.Consistent) (job : Job) : e.Recovered (e.recoverJob job) [job] := by
  unfold recoverJob
  dsimp only
  split_ifs with hrun hwait
  · refine .of_enqueue hq (by simp [Job.recovers, hrun]) rfl rfl ?_
    obtain ⟨log, n, rows, journal, hshape⟩ := persist_shape (e := { e with outstanding := e.outstanding + 1 })
      (JobEngine.recoveredRow { e with outstanding := e.outstanding + 1 } job)
    exact ⟨log, n, rows, journal, hshape⟩
  · exact .of_enqueue hq (by simp [Job.recovers, hwait]) rfl rfl ⟨e.log, e.world.pos, e.db.jobs, e.journal, rfl⟩
  · have hfilter : [job].filter Job.recovers = [] := by simp [Job.recovers, hrun, hwait]
    refine ⟨⟨e.queue, e.log, e.world.pos, e.db.jobs, e.journal, rfl⟩, ⟨hq, rfl, rfl⟩, ?_, ?_, fun h => h,
      fun _ _ h => .inl h⟩
    · rw [hfilter]
      exact ⟨subset_rfl, by simp⟩
    · rw [hfilter]
      simp

theorem foldl_recoverJob_recovered (hq : e.queue.Consistent) (jobs : List Job) :
    e.Recovered (jobs.foldl recoverJob e) jobs := by
  induction jobs generalizing e with
  | nil => exact .refl hq
  | cons job jobs ih =>
      have h := recoverJob_recovered hq job
      exact h.trans (ih h.kept.consistent)

/-! ### The rows -/

theorem rows_recoverJob (job : Job) :
    (e.recoverJob job).db.jobs = e.db.jobs ∧ (e.recoverJob job).journal = e.journal ∨
    job.state = .running ∧ (e.recoverJob job).db.jobs = e.db.jobs.update (e.recoveredRow job).persisted ∧
      (e.recoverJob job).journal = e.journal ++ [.update (e.recoveredRow job)] := by
  unfold recoverJob
  dsimp only
  split_ifs with hrun hwait
  · rw [(enqueue_rows _).1, (persist_eq_updateJob _).1, (enqueue_rows _).2, (persist_eq_updateJob _).2]
    unfold updateJob
    split_ifs
    · exact .inl ⟨rfl, rfl⟩
    · exact .inr ⟨hrun, rfl, rfl⟩
  · rw [(enqueue_rows _).1, (enqueue_rows _).2]
    exact .inl ⟨rfl, rfl⟩
  · exact .inl ⟨rfl, rfl⟩

/-- The loop leaves the rows of other jobs alone. -/
theorem getJob_foldl_recoverJob {j : JobId} {jobs : List Job} (h : ∀ job ∈ jobs, job.jobId ≠ j) :
    (jobs.foldl recoverJob e).db.getJob j = e.db.getJob j := by
  induction jobs generalizing e with
  | nil => rfl
  | cons job jobs ih =>
      rw [List.foldl_cons, ih fun job' hmem => h job' (List.mem_cons_of_mem _ hmem)]
      rcases rows_recoverJob (e := e) job with ⟨hsame, -⟩ | ⟨-, hwrote, -⟩
      · rw [Database.getJob, hsame]
        rfl
      · rw [Database.getJob, hwrote, Table.lookup_update, if_neg]
        · rfl
        · exact h job List.mem_cons_self

theorem mem_loadNonTerminalJobs {db : Database} {job : Job} :
    job ∈ db.loadNonTerminalJobs ↔ job ∈ db.jobs.rows ∧ job.state.isTerminal = false := by
  rw [Database.loadNonTerminalJobs, List.mem_insertionSort, List.mem_filter]
  simp

theorem perm_loadNonTerminalJobs (db : Database) :
    db.loadNonTerminalJobs.Perm (db.jobs.rows.filter fun j => !j.state.isTerminal) :=
  List.perm_insertionSort _ _

/-- The rows that recovery puts on the queue are all those that were queued, scheduled, retrying or running. -/
theorem perm_recovers (db : Database) :
    (db.loadNonTerminalJobs.filter Job.recovers).Perm (db.jobs.rows.filter Job.recovers) := by
  refine ((perm_loadNonTerminalJobs db).filter _).trans (List.Perm.of_eq ?_)
  rw [List.filter_filter]
  refine List.filter_congr fun job _ => ?_
  unfold Job.recovers
  cases job.state <;> rfl

/-- A fresh engine over the store content `db`, which the row writes of `journal` made. -/
def restart (cfg : EngineConfig) (types : List String) (world : World) (db : Database) (journal : List RowWrite) :
    JobEngine :=
  { cfg, types, world, db, journal }

section Restarted

variable (cfg : EngineConfig) (types : List String) (world : World) (db : Database) (journal : List RowWrite)

theorem recover_recovered : ((restart cfg types world db journal).recoverGraph db.loadNonTerminalJobs).Recovered
    (db.loadNonTerminalJobs.foldl recoverJob ((restart cfg types world db journal).recoverGraph
      db.loadNonTerminalJobs))
    db.loadNonTerminalJobs :=
  foldl_recoverJob_recovered (PriorityJobQueue.consistent_empty _) _

theorem nodup_recovers : ((db.loadNonTerminalJobs.filter Job.recovers).map (·.jobId)).Nodup := by
  rw [((perm_recovers db).map _).nodup_iff]
  exact db.jobs.nodup.sublist (List.filter_sublist.map _)

theorem consistent_recover : (restart cfg types world db journal).recover.2.queue.Consistent :=
  (recover_recovered cfg types world db journal).kept.consistent

theorem card_live_recover :
    (restart cfg types world db journal).recover.2.queue.live.card ≤ cfg.maxOutstandingJobs := by
  have h := recover_recovered cfg types world db journal
  have hbound := h.bounded (Nat.zero_le _)
  rw [h.kept.capacity] at hbound
  exact hbound

/-- With room for all of them, exactly the rows that recover are on the queue. -/
theorem live_recover (hroom : (db.jobs.rows.filter Job.recovers).length ≤ cfg.maxOutstandingJobs) :
    (restart cfg types world db journal).recover.2.queue.live =
      ((db.loadNonTerminalJobs.filter Job.recovers).map (·.jobId)).toFinset := by
  have h := recover_recovered cfg types world db journal
  rw [← (perm_recovers db).length_eq] at hroom
  exact (h.room rfl (by rw [← Nat.zero_add (List.length _)] at hroom; exact hroom)).trans (Finset.empty_union _)

theorem entry_recover {entry : QueueEntry} {j : JobId}
    (hentry : entry ∈ (restart cfg types world db journal).recover.2.queue.liveEntries j) :
    ∃ job ∈ db.loadNonTerminalJobs, job.jobId = j ∧ entry.priority = job.priority := by
  have h := recover_recovered cfg types world db journal
  obtain ⟨hlive, rfl⟩ := PriorityJobQueue.mem_liveEntries.mp hentry
  rcases h.entries _ _ ((consistent_recover cfg types world db journal).lookup_item hlive) with hold | hjob
  · obtain ⟨x, hx, -⟩ := ((PriorityJobQueue.consistent_empty cfg.maxOutstandingJobs).lookup_toMap _ _).mp hold
    have hnone := (PriorityJobQueue.consistent_empty cfg.maxOutstandingJobs).mem_live_iff.mpr ⟨x, hx, rfl⟩
    cases hnone
  · exact hjob

theorem outstanding_recover :
    (restart cfg types world db journal).recover.2.outstanding = db.loadNonTerminalJobs.length := by
  obtain ⟨q, log, n, rows, journal, hshape⟩ := (recover_recovered cfg types world db journal).shape
  exact (congrArg JobEngine.outstanding hshape).trans (Nat.zero_add _)

theorem getJob_recover_of_terminal {job : Job} (hjob : job ∈ db.jobs.rows) (hend : job.state.isTerminal = true) :
    (restart cfg types world db journal).recover.2.db.getJob job.jobId = some job := by
  refine (getJob_foldl_recoverJob fun job' hjob' hid => ?_).trans (Table.lookup_eq_some.mpr ⟨hjob, rfl⟩)
  obtain ⟨hrow, hopen⟩ := mem_loadNonTerminalJobs.mp hjob'
  rw [List.inj_on_of_nodup_map db.jobs.nodup hrow hjob hid, hend] at hopen
  cases hopen

/-- **Recovery requeues what fits.** Every job that was queued, scheduled, retrying or running has its entry exactly
if there are no more of them than the configuration admits; the rest holds of every store. -/
theorem recover_requeues :
    ((∀ job ∈ db.jobs.rows, job.recovers = true →
        ∃ entry, (restart cfg types world db journal).recover.2.queue.liveEntries job.jobId = [entry] ∧
          entry.priority = job.priority) ↔
      (db.jobs.rows.filter Job.recovers).length ≤ cfg.maxOutstandingJobs) ∧
    (∀ job ∈ db.jobs.rows, job.state.isTerminal = true →
      (restart cfg types world db journal).recover.2.db.getJob job.jobId = some job) ∧
    (restart cfg types world db journal).recover.2.outstanding =
      (db.jobs.rows.filter fun job => !job.state.isTerminal).length := by
  have hcons := consistent_recover cfg types world db journal
  refine ⟨⟨fun hall => ?_, fun hroom job hjob hrec => ?_⟩,
    fun job => getJob_recover_of_terminal cfg types world db journal, ?_⟩
  · -- distinct jobs have distinct entries, and the queue takes no more than its capacity
    have hsub : ((db.loadNonTerminalJobs.filter Job.recovers).map (·.jobId)).toFinset ⊆
        (restart cfg types world db journal).recover.2.queue.live := by
      intro j hj
      obtain ⟨job, hjob, rfl⟩ := List.mem_map.mp (List.mem_toFinset.mp hj)
      obtain ⟨hrow, hrec⟩ := List.mem_filter.mp ((perm_recovers db).mem_iff.mp hjob)
      obtain ⟨entry, hentry, -⟩ := hall job hrow hrec
      have hin := PriorityJobQueue.mem_liveEntries.mp (hentry.symm ▸ List.mem_singleton_self entry)
      exact hcons.mem_live_iff.mpr ⟨entry, hin⟩
    have hcard := Finset.card_le_card hsub
    rw [List.toFinset_card_of_nodup (nodup_recovers db), List.length_map, (perm_recovers db).length_eq] at hcard
    exact hcard.trans (card_live_recover cfg types world db journal)
  · have hin : job.jobId ∈ (restart cfg types world db journal).recover.2.queue.live := by
      rw [live_recover cfg types world db journal hroom, List.mem_toFinset]
      exact List.mem_map.mpr ⟨job, (perm_recovers db).mem_iff.mpr (List.mem_filter.mpr ⟨hjob, hrec⟩), rfl⟩
    have hlen := hcons.length_liveEntries job.jobId
    rw [if_pos hin, List.length_eq_one_iff] at hlen
    obtain ⟨entry, hentry⟩ := hlen
    refine ⟨entry, hentry, ?_⟩
    obtain ⟨job', hjob', hid, hpri⟩ := entry_recover cfg types world db journal
      (hentry.symm ▸ List.mem_singleton_self entry)
    rw [List.inj_on_of_nodup_map db.jobs.nodup (mem_loadNonTerminalJobs.mp hjob').1 hjob hid] at hpri
    exact hpri
  · rw [outstanding_recover, (perm_loadNonTerminalJobs db).length_eq]

/-- Two queued jobs, which were admitted under a larger bound than the one of the new process. -/
def crowdedStore : Database :=
  { jobs := ⟨[{ jobId := "a", state := .queued }, { jobId := "b", state := .queued }], by decide⟩ }

theorem recover_requeues_crowded :
    ¬ ∀ job ∈ crowdedStore.jobs.rows, job.recovers = true →
      ∃ entry, (restart { maxOutstandingJobs := 1 } [] {} crowdedStore []).recover.2.queue.liveEntries
        job.jobId = [entry] ∧
        entry.priority = job.priority := by
  intro h
  have hnone : (restart { maxOutstandingJobs := 1 } [] {} crowdedStore []).recover.2.queue.liveEntries "b" = [] := by
    decide
  obtain ⟨entry, hentry, -⟩ := h { jobId := "b", state := .queued } (List.mem_cons_of_mem _ List.mem_cons_self) rfl
  rw [hnone] at hentry
  cases hentry

end Restarted

end JobEngine

end DistributedJobEngine
