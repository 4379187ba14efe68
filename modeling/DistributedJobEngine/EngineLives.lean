import DistributedJobEngine.EngineHistory
import DistributedJobEngine.EnginePlaces

/-! Runs with restarts. Between two operations the process may stop or crash; the store then holds the effect of
some first part of the row writes, and a fresh engine recovers from it. What the row writes satisfy after each of
them carries over a restart, and recovery builds the rest of the invariant anew. -/

namespace DistributedJobEngine

open LibPool LibTable

/-- The row that is written again. -/
def RowWrite.updated : RowWrite → Option Job
  | .update row => some row
  | _ => none

/-- The job and the state of a row that is written again. -/
def RowWrite.updates : RowWrite → Option (JobId × JobState)
  | .update row => some (row.jobId, row.state)
  | _ => none

/-- The write at a position of a journal, known by some columns of its row. -/
theorem exists_updated {α : Type} {view : Job → α} {x : α} {ws : List RowWrite} {n : ℕ}
    (h : (ws[n]?).bind (fun w => w.updated.map view) = some x) :
    ∃ row, ws = ws.take n ++ .update row :: ws.drop (n + 1) ∧ view row = x := by
  obtain ⟨w, hw, hupdated⟩ := Option.bind_eq_some_iff.mp h
  obtain ⟨row, hrow, hview⟩ := Option.map_eq_some_iff.mp hupdated
  cases w with
  | update row' =>
      obtain rfl := Option.some.inj hrow
      obtain ⟨hn, hget⟩ := List.getElem?_eq_some_iff.mp hw
      refine ⟨row', ?_, hview⟩
      rw [← hget, ← List.drop_eq_getElem_cons hn, List.take_append_drop]
  | _ => cases hrow

theorem exists_update {ws : List RowWrite} {n : ℕ} {j : JobId} {s : JobState}
    (h : (ws[n]?).bind RowWrite.updates = some (j, s)) :
    ∃ row, ws = ws.take n ++ .update row :: ws.drop (n + 1) ∧ row.jobId = j ∧ row.state = s := by
  have hupdates : RowWrite.updates = fun w => w.updated.map fun row => (row.jobId, row.state) := by
    funext w
    cases w <;> rfl
  rw [hupdates] at h
  obtain ⟨row, hws, hview⟩ := exists_updated h
  exact ⟨row, hws, congrArg Prod.fst hview, congrArg Prod.snd hview⟩

/-- The one row of a list, known by some columns. -/
theorem mem_of_view {α : Type} {view : Job → α} {x : α} {rows : List Job} (h : rows.map view = [x]) :
    ∃ job ∈ rows, view job = x := by
  have hmem : x ∈ rows.map view := by
    rw [h]
    exact List.mem_singleton_self _
  exact List.mem_map.mp hmem

namespace JobEngine

variable {e e' : JobEngine}

/-- The process is gone and a fresh one has recovered from a store with the first row writes, `kept`. -/
inductive Restarts (e : JobEngine) : JobEngine → Prop
  | recovered {cfg : EngineConfig} {types : List String} {world : World} {db : Database} {kept : List RowWrite}
      (hkept : kept <+: e.journal) (hdb : db.Holds kept) (hworld : ∀ n, world.fault n = false) :
      Restarts e (restart cfg types world db kept).recover.2

/-! ### The store a restart finds -/

theorem Chronicle.restart {cfg : EngineConfig} {types : List String} {world : World} {db : Database}
    {kept : List RowWrite} (h : e.Chronicle) (hkept : kept <+: e.journal) (hdb : db.Holds kept) :
    (restart cfg types world db kept).Chronicle := by
  refine ⟨hdb, fun ws hws => h.stored ws (hws.trans hkept), ?_⟩
  exact Journaled.of_prefix (L := fun old row => Lawful old.state row.state) h.lawful hkept

theorem Stored.restart {cfg : EngineConfig} {types : List String} {world : World} {db : Database}
    {kept : List RowWrite} (h : e.Chronicle) (hkept : kept <+: e.journal) (hdb : db.Holds kept) :
    (restart cfg types world db kept).Stored := by
  obtain ⟨e₀, hholds, hstored⟩ := h.stored kept hkept
  refine hstored.congr (Table.ext ?_) (Table.ext ?_)
  · exact hdb.jobs.trans hholds.jobs.symm
  · exact hdb.deps.trans hholds.deps.symm

/-! ### The loop of recovery -/

/-- The loop of recovery has come to `jobs`, whose rows are still as they were read. -/
structure Recovering (e : JobEngine) (jobs : List Job) : Prop where
  chronicle : e.Chronicle
  stored : e.Stored
  rows : ∀ job ∈ jobs, e.db.getJob job.jobId = some job
  nodup : (jobs.map (·.jobId)).Nodup

theorem dependencies_recoverJob (job : Job) : (e.recoverJob job).db.dependencies = e.db.dependencies := by
  unfold recoverJob
  dsimp only
  split_ifs
  · rw [(enqueue_rows _).1, (persist_onward _).dependencies]
  · rw [(enqueue_rows _).1]
  · rfl

theorem Recovering.next {job : Job} {jobs : List Job} (h : e.Recovering (job :: jobs)) :
    (e.recoverJob job).Recovering jobs := by
  have hdeps := dependencies_recoverJob (e := e) job
  have hrow := h.rows job List.mem_cons_self
  have hnodup := h.nodup
  rw [List.map_cons, List.nodup_cons] at hnodup
  have hothers : ∀ job' ∈ jobs, (e.recoverJob job).db.getJob job'.jobId = some job' := by
    intro job' hmem
    have hne : ∀ x ∈ [job], x.jobId ≠ job'.jobId := by
      intro x hx heq
      rw [List.mem_singleton.mp hx] at heq
      exact hnodup.1 (heq ▸ List.mem_map_of_mem hmem)
    exact (getJob_foldl_recoverJob hne).trans (h.rows job' (List.mem_cons_of_mem _ hmem))
  rcases rows_recoverJob (e := e) job with ⟨hjobs, hjournal⟩ | ⟨hrun, hjobs, hjournal⟩
  · exact ⟨h.chronicle.same hjobs hdeps hjournal, h.stored.congr hjobs hdeps, hothers, hnodup.2⟩
  · have hstored : (e.recoverJob job).Stored :=
      h.stored.requeue (s := (e.recoveredRow job).stub) (board_row_of_getJob hrow) hrun rfl rfl rfl
        (row_of_update hjobs) hdeps
    refine ⟨h.chronicle.wrote hjobs hdeps hjournal hstored fun old hold => ?_, hstored, hothers, hnodup.2⟩
    rw [show (e.recoveredRow job).jobId = job.jobId from rfl, hrow, Option.some.injEq] at hold
    subst hold
    intro _
    rw [hrun, show (e.recoveredRow job).state = .queued from rfl]
    decide

theorem Recovering.loop {jobs : List Job} (h : e.Recovering jobs) : (jobs.foldl recoverJob e).Recovering [] := by
  induction jobs generalizing e with
  | nil => exact h
  | cons job jobs ih => exact ih h.next

/-! ### What recovery builds -/

section Recovery

variable {cfg : EngineConfig} {types : List String} {world : World} {db : Database} {kept : List RowWrite}

theorem nodup_loadNonTerminalJobs : (db.loadNonTerminalJobs.map (·.jobId)).Nodup :=
  ((perm_loadNonTerminalJobs db).map _).nodup_iff.mpr ((db.jobs.nodup).sublist (List.filter_sublist.map _))

theorem recovering_start (h : (restart cfg types world db kept).Chronicle)
    (hst : (restart cfg types world db kept).Stored) :
    ((restart cfg types world db kept).recoverGraph db.loadNonTerminalJobs).Recovering db.loadNonTerminalJobs where
  chronicle := h.same rfl rfl rfl
  stored := hst.congr rfl rfl
  rows _ hjob := Table.lookup_eq_some.mpr ⟨(mem_loadNonTerminalJobs.mp hjob).1, rfl⟩
  nodup := nodup_loadNonTerminalJobs

/-- What only the first block of recovery sets, or nothing does. -/
structure Rebuilt (e : JobEngine) (db : Database) : Prop where
  children : ∀ p, e.board.children p = (db.loadAllDependencies.filter fun d => d.1 = p).map Prod.snd
  pending : ∀ c, 0 < e.board.pending c →
    ∃ job ∈ db.loadNonTerminalJobs, job.jobId = c ∧ e.board.pending c = job.pendingDeps
  deps : e.db.dependencies = db.dependencies
  running : e.running = ∅
  fault : ∀ n, e.world.fault n = false
  queue : e.queue.Consistent

theorem recover_rebuilt (hworld : ∀ n, world.fault n = false) :
    (restart cfg types world db kept).recover.2.Rebuilt db := by
  obtain ⟨q, log, n, rows, journal, hshape⟩ := (recover_recovered cfg types world db kept).shape
  have hrecover : (restart cfg types world db kept).recover.2 =
      { db.loadNonTerminalJobs.foldl recoverJob
          ((restart cfg types world db kept).recoverGraph db.loadNonTerminalJobs) with
        seqCounter := db.loadNonTerminalJobs.foldl (fun m j => max m j.seq) 0 + 1 } := rfl
  have hqueue := consistent_recover cfg types world db kept
  rw [hrecover, hshape] at hqueue ⊢
  refine ⟨fun p => ?_, fun c hc => ?_, rfl, rfl, hworld, hqueue⟩
  · exact (lookup_foldl_children db.loadAllDependencies ∅ p).trans (by simp)
  · obtain ⟨hold, hnew⟩ := lookup_foldl_pending db.loadNonTerminalJobs ∅ c
    change 0 < ((db.loadNonTerminalJobs.foldl _ (∅ : AList fun _ : JobId => Int)).lookup c).getD 0 at hc
    change ∃ job ∈ _, _ ∧ ((db.loadNonTerminalJobs.foldl _ (∅ : AList fun _ : JobId => Int)).lookup c).getD 0 = _
    by_cases hmem : c ∈ db.loadNonTerminalJobs.map Job.jobId
    · obtain ⟨job, hjob, hid⟩ := List.mem_map.mp hmem
      exact ⟨job, hjob, hid, by rw [hnew nodup_loadNonTerminalJobs job hjob hid]; rfl⟩
    · rw [hold hmem] at hc
      exact absurd hc (by simp)

theorem Rebuilt.mem_children (h : e.Rebuilt db) {p c : JobId} :
    c ∈ e.board.children p ↔ (p, c) ∈ db.loadAllDependencies := by
  rw [h.children, List.mem_map]
  constructor
  · rintro ⟨⟨p', c'⟩, hmem, rfl⟩
    obtain ⟨hedge, hp⟩ := List.mem_filter.mp hmem
    rw [decide_eq_true_eq] at hp
    rw [← hp]
    exact hedge
  · exact fun hmem => ⟨(p, c), List.mem_filter.mpr ⟨hmem, by simp⟩, rfl⟩

theorem board_ids (e : JobEngine) (j : JobId) : j ∈ e.board.ids ↔ (e.board.row j).isSome := by
  rw [board_row, Option.isSome_map, Option.isSome_iff_ne_none, Ne, Database.getJob, Table.lookup_eq_none, not_not]
  exact List.mem_toFinset

/-- **Recovery makes the board safe**: nothing is owed and no counter is too low. -/
theorem Rebuilt.safe (h : e.Rebuilt db) (hmid : (restart cfg types world db kept).Stored) (hend : e.Stored) :
    e.board.Safe 0 := by
  have hload : e.db.loadAllDependencies = db.loadAllDependencies := by
    rw [Database.loadAllDependencies, h.deps]
    rfl
  have hdeps : ∀ p c, (p, c) ∈ e.board.deps ↔ (p, c) ∈ db.loadAllDependencies := fun p c => by
    rw [show e.board.deps = e.db.loadAllDependencies.toFinset from rfl, hload]
    exact List.mem_toFinset
  have hparents : ∀ c, e.board.parents c = (restart cfg types world db kept).board.parents c := fun c => by
    rw [Board.parents, show e.board.deps = e.db.loadAllDependencies.toFinset from rfl, hload]
    rfl
  refine ⟨⟨board_ids e, hend.edge, fun p c => ?_, fun p => ?_⟩, by simp, by simp, fun j hj => ?_, by simp,
    hend.parents, fun c hc => ?_, fun c => ?_, by simp, hend.column⟩
  · rw [h.mem_children, hdeps]
  · rw [h.children]
    refine List.Nodup.map_on ?_ (List.Nodup.filter _ hmid.unique)
    rintro ⟨a, b⟩ ha ⟨a', b'⟩ ha' hb
    have hp := (List.mem_filter.mp ha).2
    have hp' := (List.mem_filter.mp ha').2
    rw [decide_eq_true_eq] at hp hp'
    exact Prod.ext (hp.trans hp'.symm) hb
  · change ((e.running.lookup j).map _).isSome at hj
    rw [h.running] at hj
    cases hj
  · -- a counter above zero is the column of a row that was pending
    obtain ⟨job, hjob, rfl, hcount⟩ := h.pending c hc
    obtain ⟨hrow, hopen⟩ := mem_loadNonTerminalJobs.mp hjob
    have hget : (restart cfg types world db kept).db.getJob job.jobId = some job :=
      Table.lookup_eq_some.mpr ⟨hrow, rfl⟩
    obtain ⟨hpend, hother⟩ := hmid.column job.jobId job.stub (board_row_of_getJob hget)
    rw [hcount] at hc ⊢
    have hstate : job.state = .pending := by
      by_contra hne
      have hle : job.pendingDeps ≤ 0 := hother hopen hne
      omega
    refine le_trans ?_ (hpend hstate)
    rw [← hparents]
    have hsub : e.board.openParents 0 job.jobId ⊆ e.board.parents job.jobId := fun p hp =>
      Board.mem_parents.mpr (Board.mem_openParents.mp hp).1
    exact_mod_cast Finset.card_le_card hsub
  · split_ifs <;> simp

theorem steady_recover (h : (restart cfg types world db kept).Chronicle)
    (hst : (restart cfg types world db kept).Stored)
    (hworld : ∀ n, world.fault n = false) : (restart cfg types world db kept).recover.2.Steady 0 := by
  have hloop := (recovering_start h hst).loop
  have hchronicle : (restart cfg types world db kept).recover.2.Chronicle := hloop.chronicle.same rfl rfl rfl
  have hstored : (restart cfg types world db kept).recover.2.Stored := hloop.stored.congr rfl rfl
  have hbuilt := @recover_rebuilt cfg types world db kept hworld
  have hexact : (restart cfg types world db kept).recover.2.board.Exact (duesIn 0) := fun _ _ _ hmem => by cases hmem
  exact ⟨⟨hbuilt.safe hst hstored, by simp, hbuilt.fault, hbuilt.queue, by simp⟩, hexact, hchronicle, hstored.unique⟩

theorem Steady.restarts {F : Multiset Frame} (h : e.Steady F) (hr : Restarts e e') : e'.Steady 0 := by
  obtain ⟨hkept, hdb, hworld⟩ := hr
  exact steady_recover (h.chronicle.restart hkept hdb) (.restart h.chronicle hkept hdb) hworld

end Recovery

/-! ### Runs -/

/-- Any number of operations, one at a time, with restarts between them. -/
abbrev Lived : Pool JobEngine Frame → Pool JobEngine Frame → Prop := engineSystem.Lives Submits Call Restarts

theorem boot_steady {cfg : EngineConfig} {types : List String} {world : World} (hworld : ∀ n, world.fault n = false) :
    (boot cfg types world).Steady 0 := by
  have hstored : (boot cfg types world).Stored := .of_safe (boot_sound hworld).safe List.nodup_nil
  have hexact : (boot cfg types world).board.Exact (duesIn 0) := fun _ _ _ hmem => by cases hmem
  refine ⟨boot_sound hworld, hexact,
    ⟨⟨rfl, rfl⟩, fun ws hws => ?_, Journaled.nil fun old row => Lawful old.state row.state⟩, List.nodup_nil⟩
  rw [List.prefix_nil.mp hws]
  exact ⟨boot cfg types world, ⟨rfl, rfl⟩, hstored⟩

theorem Steady.lived {p p' : Pool JobEngine Frame} (h : p.state.Steady p.frames) (hp : engineSystem.AtRest p)
    (hrun : Lived p p') : p'.state.Steady p'.frames :=
  lives_invariant hrun hp
    (fun _ _ _ _ hO h => h.advance hO) (fun _ _ _ hF hsub h => h.submits hF hsub)
    (fun _ _ _ _ hcall h => h.spawn hcall) (fun _ _ _ hr h => h.restarts hr) h

section Claims

variable {cfg : EngineConfig} {types : List String} {world : World} {p : Pool JobEngine Frame}

theorem lived_steady (hworld : ∀ n, world.fault n = false) (hrun : Lived ⟨boot cfg types world, []⟩ p) :
    p.state.Steady p.frames :=
  (boot_steady hworld).lived atRest_boot hrun

/-- Operations, a restart that loses nothing, and operations again, as far as they get through. -/
theorem exists_lives {α : Type} {view : Pool JobEngine Frame → α} {x : α} {fuel : ℕ}
    {R : JobEngine → JobEngine → Prop}
    {turns turns' : List (System.Play JobEngine Frame Choice)} {cfg' : EngineConfig} {types' : List String}
    {world' : World} (ha : ∀ a ∈ turns, System.Playable Submits Call a)
    (ha' : ∀ a ∈ turns', System.Playable Submits Call a)
    (hR : ∀ q, engineSystem.plays fuel ⟨boot cfg types world, []⟩ turns = some q →
      R q.state (restart cfg' types' world' q.state.db q.state.journal).recover.2)
    (h : ((engineSystem.plays fuel ⟨boot cfg types world, []⟩ turns).bind fun q =>
      (engineSystem.plays fuel ⟨(restart cfg' types' world' q.state.db q.state.journal).recover.2, []⟩ turns').map
        view) = some x) :
    ∃ p, engineSystem.Lives Submits Call R ⟨boot cfg types world, []⟩ p ∧ view p = x := by
  obtain ⟨q, hq, hrest⟩ := Option.bind_eq_some_iff.mp h
  obtain ⟨p, hturns, hx⟩ := System.exists_turns ha' hrest
  exact ⟨p, ((System.plays_turns ha hq).lives.tail (.restart (hR q hq))).trans hturns.lives, hx⟩

/-- The store holds the writes of the journal after any operations. -/
theorem holds_of_plays {fuel : ℕ} {turns : List (System.Play JobEngine Frame Choice)} {q : Pool JobEngine Frame}
    (hworld : ∀ n, world.fault n = false) (ha : ∀ a ∈ turns, System.Playable Submits Call a)
    (hq : engineSystem.plays fuel ⟨boot cfg types world, []⟩ turns = some q) : q.state.db.Holds q.state.journal :=
  (lived_steady hworld (System.plays_turns ha hq).lives).chronicle.holds

theorem exists_lived {α : Type} {view : Pool JobEngine Frame → α} {x : α} {fuel : ℕ}
    {turns turns' : List (System.Play JobEngine Frame Choice)} {cfg' : EngineConfig} {types' : List String}
    {world' : World} (hworld : ∀ n, world.fault n = false) (hworld' : ∀ n, world'.fault n = false)
    (ha : ∀ a ∈ turns, System.Playable Submits Call a) (ha' : ∀ a ∈ turns', System.Playable Submits Call a)
    (h : ((engineSystem.plays fuel ⟨boot cfg types world, []⟩ turns).bind fun q =>
      (engineSystem.plays fuel ⟨(restart cfg' types' world' q.state.db q.state.journal).recover.2, []⟩ turns').map
        view) = some x) :
    ∃ p, Lived ⟨boot cfg types world, []⟩ p ∧ view p = x :=
  exists_lives ha ha'
    (fun _ hq => .recovered (List.prefix_refl _) (holds_of_plays hworld ha hq) hworld') h

/-- The rows that a write of `row` leaves. -/
theorem row_of_replay {pre : List RowWrite} {row : Job} (h : e.db.Holds (pre ++ [.update row])) {j : JobId} {r : Stub}
    (hr : e.board.row j = some r) :
    ∃ x ∈ (replay pre).jobs, x.jobId = j ∧ (if j = row.jobId then r = row.stub else r = x.stub) := by
  have hjobs := h.jobs
  rw [replay_concat] at hjobs
  obtain ⟨job, hjob, rfl⟩ := Option.map_eq_some_iff.mp hr
  obtain ⟨hmem, hid⟩ := Table.lookup_eq_some.mp hjob
  rw [hjobs] at hmem
  obtain ⟨x, hx, rfl⟩ := List.mem_map.mp hmem
  by_cases hkey : x.jobId = row.persisted.jobId
  · rw [if_pos hkey] at hid ⊢
    exact ⟨x, hx, hkey.trans hid, by rw [if_pos (show j = row.jobId from hid.symm)]; rfl⟩
  · rw [if_neg hkey] at hid ⊢
    exact ⟨x, hx, hid, by rw [if_neg (show j ≠ row.jobId from fun heq => hkey (hid.trans heq))]⟩

/-- **Dependency safety.** Whenever a row is written as running, the parents of its job have succeeded in the rows
as they were, whatever was lost in restarts. -/
theorem started_after_parents (hworld : ∀ n, world.fault n = false) (hrun : Lived ⟨boot cfg types world, []⟩ p) :
    p.state.db.Holds p.state.journal ∧
    ∀ pre row post, p.state.journal = pre ++ .update row :: post → row.state = .running →
      ∀ d ∈ (replay pre).deps, d.child = row.jobId →
        ∃ parent ∈ (replay pre).jobs, parent.jobId = d.parent ∧ parent.state = .succeeded := by
  have hsteady := lived_steady hworld hrun
  refine ⟨hsteady.chronicle.holds, fun pre row post hjournal hstart d hd hchild => ?_⟩
  obtain ⟨e₀, hholds, hstored⟩ := hsteady.chronicle.stored (pre ++ [.update row]) ⟨post, by rw [hjournal]; simp⟩
  have hedge : (d.parent, row.jobId) ∈ e₀.board.deps := by
    refine List.mem_toFinset.mpr (List.mem_map.mpr ⟨d, ?_, by rw [← hchild]⟩)
    rw [hholds.deps, replay_concat]
    exact hd
  obtain ⟨-, rc, -, hrc, -⟩ := hstored.edge _ _ hedge
  have hrunning : rc.state = .running := by
    obtain ⟨x, -, -, hx⟩ := row_of_replay hholds hrc
    rw [if_pos rfl] at hx
    rw [hx]
    exact hstart
  obtain ⟨rp, hrp, hsucc⟩ := hstored.parents _ rc hrc (by rw [hrunning]; simp [Board.Held]) _ hedge
  obtain ⟨x, hx, hid, hstub⟩ := row_of_replay hholds hrp
  by_cases hself : d.parent = row.jobId
  · rw [hself, hrc, Option.some.injEq] at hrp
    rw [hrp, hsucc] at hrunning
    cases hrunning
  · rw [if_neg hself] at hstub
    exact ⟨x, hx, hid, by rw [← hsucc, hstub]; rfl⟩

/-- A chain is submitted and its first node runs and succeeds. -/
def chainHalf : List (System.Play JobEngine Frame Choice) :=
  [.env fun e => (e.submitWorkflow "w" chain.1 chain.2).2, .call (.workerPop "w") {},
    .resume 0 { outcome := { ok := true } }]

theorem chainHalf_playable : ∀ a ∈ chainHalf, System.Playable Submits Call a := by
  simp only [chainHalf, List.forall_mem_cons, System.Playable, Call, Frame.isCall, true_and]
  exact ⟨fun e => .workflow _ _ _, by simp⟩

/-- An embedded worker asks for a job. -/
def popOne : List (System.Play JobEngine Frame Choice) := [.call (.workerPop "w") {}]

theorem popOne_playable : ∀ a ∈ popOne, System.Playable Submits Call a := by
  simp [popOne, System.Playable, Call, Frame.isCall]

set_option maxRecDepth 8000 in
theorem started_after_parents_chain : ∃ p pre row post parent, Lived ⟨boot {} ["t"] {}, []⟩ p ∧
    p.state.journal = pre ++ .update row :: post ∧ row.state = .running ∧ row.jobId = "j_2" ∧
      parent ∈ (replay pre).jobs ∧ parent.jobId = "j_1" ∧ parent.state = .succeeded := by
  have hplay : ((engineSystem.plays 40 ⟨boot {} ["t"] {}, []⟩ chainHalf).bind fun q =>
      (engineSystem.plays 40 ⟨(restart {} ["t"] {} q.state.db q.state.journal).recover.2, []⟩ popOne).map fun p =>
        ((replay (p.state.journal.take 4)).deps, (p.state.journal[4]?).bind RowWrite.updates)) =
      some ([⟨"w_0", "j_1", "j_2"⟩], some ("j_2", .running)) := by
    decide +kernel
  obtain ⟨p, hrun, hview⟩ := exists_lived (fun _ => rfl) (fun _ => rfl) chainHalf_playable popOne_playable hplay
  obtain ⟨hdeps, hwrite⟩ := Prod.mk.inj hview
  obtain ⟨row, hjournal, hid, hstate⟩ := exists_update hwrite
  obtain ⟨parent, hmem, hparent, hsucc⟩ := (started_after_parents (fun _ => rfl) hrun).2 _ row _ hjournal hstate
    ⟨"w_0", "j_1", "j_2"⟩ (by rw [hdeps]; exact List.mem_singleton_self _) hid.symm
  exact ⟨p, _, row, _, parent, hrun, hjournal, hstate, hid, hmem, hparent, hsucc⟩

/-- **One table.** A write that changes the state of a row makes a transition of the table, except when it starts a
job that was scheduled or retrying. -/
theorem transition_valid_iff (hworld : ∀ n, world.fault n = false) (hrun : Lived ⟨boot cfg types world, []⟩ p) :
    p.state.db.Holds p.state.journal ∧
    ∀ pre row post, p.state.journal = pre ++ .update row :: post → ∀ old ∈ (replay pre).jobs,
      old.jobId = row.jobId → old.state ≠ row.state →
        (old.state.isValidTransition row.state = true ↔
          ¬ (row.state = .running ∧ (old.state = .scheduled ∨ old.state = .retrying))) := by
  have hchronicle := (lived_steady hworld hrun).chronicle
  exact ⟨hchronicle.holds, fun pre row post hjournal old hold hid hne => hchronicle.lawful pre row post
    hjournal old hold hid hne⟩

/-- A job that may be tried twice fails at once and is started again. -/
def retried : List (System.Play JobEngine Frame Choice) :=
  [.env fun e => (e.submit { type := "t", retry := { maxAttempts := 2, backoffBaseMs := 0 } }).2,
    .call (.workerPop "w") {}, .resume 0 { outcome := { ok := false } }, .call (.workerPop "w") {}]

theorem retried_playable : ∀ a ∈ retried, System.Playable Submits Call a := by
  simp only [retried, List.forall_mem_cons, System.Playable, Call, Frame.isCall, true_and]
  exact ⟨fun e => .job _ rfl rfl, by simp⟩

/-- Write `n` of the run is an update of the job's row. -/
theorem exists_retried_write {n : ℕ} {s t : JobState}
    (hplay : (engineSystem.plays 40 ⟨boot {} ["t"] {}, []⟩ retried).map (fun p =>
      ((replay (p.state.journal.take n)).jobs.map (fun job => (job.jobId, job.state)),
        (p.state.journal[n]?).bind RowWrite.updates)) = some ([("j_0", s)], some ("j_0", t))) :
    ∃ p pre row post old, Lived ⟨boot {} ["t"] {}, []⟩ p ∧ p.state.journal = pre ++ .update row :: post ∧
      old ∈ (replay pre).jobs ∧ old.jobId = row.jobId ∧ old.state = s ∧ row.state = t := by
  obtain ⟨p, hrun, hview⟩ := System.exists_turns retried_playable hplay
  obtain ⟨hrows, hwrite⟩ := Prod.mk.inj hview
  obtain ⟨row, hjournal, hid, hstate⟩ := exists_update hwrite
  obtain ⟨old, hold, hcols⟩ := mem_of_view hrows
  obtain ⟨hoid, hostate⟩ := Prod.mk.inj hcols
  exact ⟨p, _, row, _, old, hrun.lives, hjournal, hold, hoid.trans hid.symm, hostate, hstate⟩

set_option maxRecDepth 8000 in
/-- The first start of the job is in the table and its second is not. -/
theorem transition_valid_first : ∃ p pre row post old, Lived ⟨boot {} ["t"] {}, []⟩ p ∧
    p.state.journal = pre ++ .update row :: post ∧ old ∈ (replay pre).jobs ∧ old.jobId = row.jobId ∧
      old.state = .queued ∧ row.state = .running ∧ old.state.isValidTransition row.state = true := by
  obtain ⟨p, pre, row, post, old, hrun, hjournal, hold, hid, hostate, hstate⟩ :=
    exists_retried_write (n := 1) (s := .queued) (t := .running) (by decide +kernel)
  refine ⟨p, pre, row, post, old, hrun, hjournal, hold, hid, hostate, hstate, ?_⟩
  refine ((transition_valid_iff (fun _ => rfl) hrun).2 pre row post hjournal old hold hid ?_).mpr ?_
  · rw [hostate, hstate]
    decide
  · rw [hostate, hstate]
    decide

set_option maxRecDepth 8000 in
theorem transition_invalid_retry : ∃ p pre row post old, Lived ⟨boot {} ["t"] {}, []⟩ p ∧
    p.state.journal = pre ++ .update row :: post ∧ old ∈ (replay pre).jobs ∧ old.jobId = row.jobId ∧
      old.state = .retrying ∧ row.state = .running ∧ old.state.isValidTransition row.state = false := by
  obtain ⟨p, pre, row, post, old, hrun, hjournal, hold, hid, hostate, hstate⟩ :=
    exists_retried_write (n := 3) (s := .retrying) (t := .running) (by decide +kernel)
  refine ⟨p, pre, row, post, old, hrun, hjournal, hold, hid, hostate, hstate, ?_⟩
  rw [hostate, hstate]
  decide

end Claims

end JobEngine

end DistributedJobEngine
