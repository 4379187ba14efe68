import DistributedJobEngine.EngineQueue
import DistributedJobEngine.LibGraph

/-! The failure of a job and its descendants. `skip_descendants` searches the children of the job with a worklist,
passing through jobs that are done; run without interruption it skips the open descendants and nothing else. -/

namespace DistributedJobEngine

open LibPool LibGraph LibTable

namespace JobEngine

variable {e e' e₁ : JobEngine} {job : Job}

/-- The edges of `children_`. -/
def ChildOf (e : JobEngine) (a b : JobId) : Prop := b ∈ (e.children.lookup a).getD []

/-! ### Rows and entries -/

/-- The jobs of `rows` were skipped: each was open and has its new row, if no write failed, and no entry on the
queue. All other rows and entries are as they were. -/
structure Skipped (e e' : JobEngine) (rows : List Job) : Prop where
  nodup : (rows.map Job.jobId).Nodup
  row : ∀ row ∈ rows, ∃ old e₀, e.db.getJob row.jobId = some old ∧ old.state.isTerminal = false ∧
    row = skippedRow e₀ old ∧ (e.Reliable → e'.db.getJob row.jobId = some row.persisted)
  kept : ∀ j ∉ rows.map Job.jobId, e'.db.getJob j = e.db.getJob j
  queue : e'.queue.Consistent
  entries : ∀ j, e'.queue.toMap.entries.lookup j =
    if j ∈ rows.map Job.jobId then none else e.queue.toMap.entries.lookup j

theorem Skipped.refl (hq : e.queue.Consistent) : e.Skipped e [] where
  nodup := List.nodup_nil
  row _ hrow := absurd hrow List.not_mem_nil
  kept _ _ := rfl
  queue := hq
  entries _ := (if_neg List.not_mem_nil).symm

theorem Skipped.congr {e₂ : JobEngine} {rows : List Job} (h : e.Skipped e₁ rows) (hdb : e₂.db = e₁.db)
    (hqueue : e₂.queue = e₁.queue) : e.Skipped e₂ rows where
  nodup := h.nodup
  row := by rw [hdb]; exact h.row
  kept := by rw [hdb]; exact h.kept
  queue := by rw [hqueue]; exact h.queue
  entries := by rw [hqueue]; exact h.entries

/-- A write that fails leaves the rows alone. -/
theorem getJob_persist_of_ne {row : Job} {j : JobId} (h : row.jobId ≠ j) :
    (e.persist row).db.getJob j = e.db.getJob j := by
  unfold persist updateJob
  split_ifs
  · rfl
  · exact (getJob_updateJob e.db row j).trans (if_neg h)

theorem getJob_persist_self {row old : Job} (hr : e.Reliable) (h : e.db.getJob row.jobId = some old) :
    (e.persist row).db.getJob row.jobId = some row.persisted := by
  rw [persist_of_reliable hr]
  refine (getJob_updateJob e.db row row.jobId).trans ?_
  rw [if_pos rfl, h]
  rfl

/-- One more open job is skipped. -/
theorem Skipped.concat {rows : List Job} {old : Job} (h : e.Skipped e₁ rows) (hr : e.Reliable → e₁.Reliable)
    (hnew : old.jobId ∉ rows.map Job.jobId) (hold : e.db.getJob old.jobId = some old)
    (hopen : old.state.isTerminal = false) :
    e.Skipped (({ e₁ with queue := (e₁.queue.remove old.jobId).2 } : JobEngine).persist
        (skippedRow { e₁ with queue := (e₁.queue.remove old.jobId).2 } old))
      (rows ++ [skippedRow { e₁ with queue := (e₁.queue.remove old.jobId).2 } old]) := by
  set e₂ : JobEngine := { e₁ with queue := (e₁.queue.remove old.jobId).2 } with he₂
  have hids : (rows ++ [skippedRow e₂ old]).map Job.jobId = rows.map Job.jobId ++ [old.jobId] := by
    rw [List.map_append]
    rfl
  have hold₂ : e₂.db.getJob (skippedRow e₂ old).jobId = some old := (h.kept _ hnew).trans hold
  constructor
  · rw [hids, List.nodup_append_comm, List.singleton_append]
    exact List.nodup_cons.mpr ⟨hnew, h.nodup⟩
  · intro row hrow
    rcases List.mem_append.mp hrow with hrow | hrow
    · obtain ⟨old', e₀, hold', hopen', heq, hwritten⟩ := h.row row hrow
      refine ⟨old', e₀, hold', hopen', heq, fun hrel => ?_⟩
      have hne : (skippedRow e₂ old).jobId ≠ row.jobId := fun hid => hnew (hid ▸ List.mem_map_of_mem hrow)
      exact (getJob_persist_of_ne hne).trans (hwritten hrel)
    · obtain rfl := List.mem_singleton.mp hrow
      exact ⟨old, e₂, hold, hopen, rfl, fun hrel => getJob_persist_self (hr hrel) hold₂⟩
  · intro j hj
    rw [hids, List.mem_append, not_or, List.mem_singleton] at hj
    have hne : (skippedRow e₂ old).jobId ≠ j := Ne.symm hj.2
    exact (getJob_persist_of_ne hne).trans (h.kept j hj.1)
  · rw [queue_persist]
    exact h.queue.remove old.jobId
  · intro j
    rw [queue_persist, (h.queue.toMap_remove old.jobId).2, hids]
    change (e₁.queue.toMap.entries.erase old.jobId).lookup j = _
    by_cases hj : j = old.jobId
    · rw [hj, Finmap.lookup_erase, if_pos (List.mem_append_right _ List.mem_cons_self)]
    · rw [Finmap.lookup_erase_ne hj, h.entries j]
      refine if_congr ?_ rfl rfl
      rw [List.mem_append, List.mem_singleton, or_iff_left hj]

/-! ### The search -/

/-- The job has a row that is not terminal. -/
def Open (e : JobEngine) (j : JobId) : Prop := ∃ row, e.db.getJob j = some row ∧ row.state.isTerminal = false

/-- The loop of `skip_descendants` of `job`, entered in state `e` and now in state `e₁`. -/
structure Walking (e : JobEngine) (job : Job) (e₁ : JobEngine) (w : SkipWalk) : Prop where
  origin : w.job = job
  search : Searching e.ChildOf job.jobId w.seen w.frontier
  skipped : e.Skipped e₁ w.toSkip
  mem_toSkip : ∀ j, j ∈ w.toSkip.map Job.jobId ↔ j ∈ w.seen ∧ e.Open j
  shape : ∃ jobs queue pos log journal, e₁ = { e with
    db := { e.db with jobs }
    queue := queue
    world := { e.world with pos }
    log := log
    journal := journal }

/-- The children of a visited job join the frontier. -/
theorem Walking.skipChildren {w : SkipWalk} {id : JobId} {frontier : List JobId} {toSkip : List Job}
    {e₂ : JobEngine} (h : e.Walking job e₁ w) (hfrontier : w.frontier = id :: frontier) (hnew : id ∉ w.seen)
    (hskipped : e.Skipped e₂ toSkip)
    (hmem : ∀ j, j ∈ toSkip.map Job.jobId ↔ j ∈ id :: w.seen ∧ e.Open j)
    (hshape : ∃ jobs queue pos log journal, e₂ = { e with
      db := { e.db with jobs }
      queue := queue
      world := { e.world with pos }
      log := log
      journal := journal }) (rest : List Frame) :
    ∃ w', engineSystem.Reaches (e₂, .skipChildren { w with frontier, seen := id :: w.seen, toSkip } id :: rest)
        (e₂, .skipLoop w' :: rest) ∧ e.Walking job e₂ w' ∧ w'.seen = id :: w.seen := by
  have hsearch := h.search
  rw [hfrontier] at hsearch
  have hchildren : e₂.children = e.children := by
    obtain ⟨jobs, queue, pos, log, journal, rfl⟩ := hshape
    rfl
  have hsucc : ∀ c, e.ChildOf id c ↔ c ∈ ((e₂.children.lookup id).getD []).reverse := by
    intro c
    rw [List.mem_reverse, hchildren]
    rfl
  exact ⟨{ w with frontier := ((e₂.children.lookup id).getD []).reverse ++ frontier, seen := id :: w.seen, toSkip },
    .head fun c => .refl _, ⟨h.origin, hsearch.visit hnew hsucc, hskipped, hmem, hshape⟩, rfl⟩

/-- **One round** for a job that was not seen before. -/
theorem Walking.visit {w : SkipWalk} {id : JobId} {frontier : List JobId} (h : e.Walking job e₁ w)
    (hrows : ∀ j, Relation.TransGen e.ChildOf job.jobId j → (e.db.getJob j).isSome)
    (hfrontier : w.frontier = id :: frontier) (hnew : id ∉ w.seen) (rest : List Frame) :
    ∃ e₂ w', engineSystem.Reaches (e₁, .skipLoop w :: rest) (e₂, .skipLoop w' :: rest) ∧ e.Walking job e₂ w' ∧
      w'.seen = id :: w.seen := by
  have hreached := h.search.reached id (.inr (by rw [hfrontier]; exact List.mem_cons_self))
  obtain ⟨old, hold⟩ := Option.isSome_iff_exists.mp (hrows id hreached)
  obtain ⟨-, hid⟩ := Table.lookup_eq_some.mp hold
  have hnot : id ∉ w.toSkip.map Job.jobId := fun hmem => hnew ((h.mem_toSkip id).mp hmem).1
  have hold₁ : e₁.db.getJob id = some old := (h.skipped.kept id hnot).trans hold
  have hloop : e₁.skipLoop w = if old.state.isTerminal then
      [.skipChildren { w with frontier, seen := id :: w.seen } id]
      else [.skipRemove { w with frontier, seen := id :: w.seen } old] := by
    unfold skipLoop
    rw [hfrontier]
    simp only [if_neg hnew, hold₁]
  cases hstate : old.state.isTerminal with
  | true =>
      have hmem : ∀ j, j ∈ w.toSkip.map Job.jobId ↔ j ∈ id :: w.seen ∧ e.Open j := by
        intro j
        rw [h.mem_toSkip j, List.mem_cons]
        refine ⟨fun hj => ⟨.inr hj.1, hj.2⟩, ?_⟩
        rintro ⟨rfl | hj, row, hrow, hopen⟩
        · rw [hold, Option.some.injEq] at hrow
          rw [← hrow, hstate] at hopen
          cases hopen
        · exact ⟨hj, row, hrow, hopen⟩
      obtain ⟨w', hreach, hw'⟩ := h.skipChildren hfrontier hnew h.skipped hmem h.shape rest
      refine ⟨e₁, w', .head fun c => ?_, hw'⟩
      change engineSystem.Reaches (e₁, e₁.skipLoop w ++ rest) _
      rw [hloop, hstate]
      exact hreach
  | false =>
      subst hid
      set e₂ : JobEngine := { e₁ with queue := (e₁.queue.remove old.jobId).2 } with he₂
      have hr : e.Reliable → e₁.Reliable := by
        obtain ⟨jobs, queue, pos, log, journal, rfl⟩ := h.shape
        exact id
      have hskipped := h.skipped.concat hr hnot hold hstate
      have hmem : ∀ j, j ∈ (w.toSkip ++ [skippedRow e₂ old]).map Job.jobId ↔ j ∈ old.jobId :: w.seen ∧ e.Open j := by
        intro j
        rw [List.map_append, List.mem_append, h.mem_toSkip j, List.mem_cons, List.map_singleton, List.mem_singleton]
        constructor
        · rintro (hj | hj)
          · exact ⟨.inr hj.1, hj.2⟩
          · exact ⟨.inl hj, old, hj ▸ hold, hstate⟩
        · rintro ⟨hj | hj, hopen⟩
          · exact .inr hj
          · exact .inl ⟨hj, hopen⟩
      have hshape : ∃ jobs queue pos log journal, e₂.persist (skippedRow e₂ old) = { e with
          db := { e.db with jobs }
          queue := queue
          world := { e.world with pos }
          log := log
          journal := journal } := by
        obtain ⟨log, n, rows, journal, hpersist⟩ := persist_shape (e := e₂) (skippedRow e₂ old)
        obtain ⟨jobs, queue, pos, log', journal', he₁⟩ := h.shape
        rw [hpersist, he₂, he₁]
        exact ⟨_, _, _, _, _, rfl⟩
      obtain ⟨w', hreach, hw'⟩ := h.skipChildren hfrontier hnew hskipped hmem hshape rest
      refine ⟨_, w', .head fun c => ?_, hw'⟩
      change engineSystem.Reaches (e₁, e₁.skipLoop w ++ rest) _
      rw [hloop, hstate]
      exact .head fun c => .head fun c => hreach

theorem Walking.drop {w : SkipWalk} {id : JobId} {frontier : List JobId} (h : e.Walking job e₁ w)
    (hfrontier : w.frontier = id :: frontier) (hseen : id ∈ w.seen) : e.Walking job e₁ { w with frontier } where
  origin := h.origin
  search := by
    have hsearch := h.search
    rw [hfrontier] at hsearch
    exact hsearch.drop hseen
  skipped := h.skipped
  mem_toSkip := h.mem_toSkip
  shape := h.shape

/-- Visited jobs have rows, so there are no more of them than rows. -/
theorem Walking.length_seen_le {w : SkipWalk} (h : e.Walking job e₁ w)
    (hrows : ∀ j, Relation.TransGen e.ChildOf job.jobId j → (e.db.getJob j).isSome) :
    w.seen.length ≤ e.db.jobs.rows.length := by
  rw [← List.length_map Job.jobId]
  refine (List.subperm_of_subset h.search.nodup fun j hj => ?_).length_le
  obtain ⟨row, hrow⟩ := Option.isSome_iff_exists.mp (hrows j (h.search.reached j (.inl hj)))
  obtain ⟨hmem, rfl⟩ := Table.lookup_eq_some.mp hrow
  exact List.mem_map_of_mem hmem

/-- **The loop ends.** A round visits one more job or shortens the frontier; `n` bounds the jobs still to visit. -/
theorem Walking.finish (hrows : ∀ j, Relation.TransGen e.ChildOf job.jobId j → (e.db.getJob j).isSome)
    (rest : List Frame) (n : ℕ) {w : SkipWalk} (h : e.Walking job e₁ w)
    (hn : e.db.jobs.rows.length ≤ w.seen.length + n) :
    ∃ e₂ w', engineSystem.Reaches (e₁, .skipLoop w :: rest) (e₂, .skipLoop w' :: rest) ∧ e.Walking job e₂ w' ∧
      w'.frontier = [] := by
  induction n using Nat.strong_induction_on generalizing e₁ w with
  | _ n ihn =>
      obtain ⟨frontier, hfrontier⟩ : ∃ frontier, w.frontier = frontier := ⟨_, rfl⟩
      induction frontier generalizing w with
      | nil => exact ⟨e₁, w, .refl _, h, hfrontier⟩
      | cons id frontier ih =>
          by_cases hseen : id ∈ w.seen
          · obtain ⟨e₂, w', hreach, hw'⟩ := ih (h.drop hfrontier hseen) hn rfl
            refine ⟨e₂, w', .head fun c => ?_, hw'⟩
            change engineSystem.Reaches (e₁, e₁.skipLoop w ++ rest) _
            rw [skipLoop, hfrontier]
            simp only [if_pos hseen]
            exact hreach
          · obtain ⟨e₂, w', hreach, hw', hcons⟩ := h.visit hrows hfrontier hseen rest
            have hle := hw'.length_seen_le hrows
            rw [hcons, List.length_cons] at hle
            obtain ⟨e₃, w'', hreach', hdone⟩ := ihn (n - 1) (by omega) hw' (by
              rw [hcons, List.length_cons]
              omega)
            exact ⟨e₃, w'', hreach.trans hreach', hdone⟩

/-! ### Callbacks and slots -/

/-- What follows the loop for one job that was skipped. -/
def reportSkipped (e : JobEngine) (row : Job) : JobEngine :=
  (({ e with completions := e.completions ++ [row] } : JobEngine).record (.callback row.jobId)).slot row.jobId none

theorem reaches_reports (rows : List Job) (e : JobEngine) (rest : List Frame) :
    engineSystem.Reaches (e, (rows.flatMap fun j => [.callback j, .slot j.jobId none]) ++ rest)
      (rows.foldl reportSkipped e, rest) := by
  induction rows generalizing e with
  | nil => exact .refl _
  | cons row rows ih => exact .head fun _ => .head fun _ => ih (e.reportSkipped row)

theorem foldl_reportSkipped (rows : List Job) (e : JobEngine) :
    ∃ outstanding, rows.foldl reportSkipped e = { e with
        completions := e.completions ++ rows
        ledger := e.ledger ++ rows.flatMap fun j => [.callback j.jobId, .slot j.jobId]
        outstanding := outstanding } ∧
      (rows.length ≤ e.outstanding → outstanding = e.outstanding - rows.length) := by
  induction rows generalizing e with
  | nil => exact ⟨e.outstanding, by simp, fun _ => rfl⟩
  | cons row rows ih =>
      obtain ⟨outstanding, heq, hout⟩ := ih (e.reportSkipped row)
      refine ⟨outstanding, ?_, fun hle => ?_⟩
      · rw [List.foldl_cons, heq]
        simp [reportSkipped, slot, releaseSlot, record]
      · rw [List.length_cons] at hle
        have hpos : e.outstanding ≠ 0 := by omega
        have hone : (e.reportSkipped row).outstanding = e.outstanding - 1 := if_neg hpos
        rw [hone] at hout
        rw [hout (by omega), List.length_cons]
        omega

/-! ### The whole call -/

/-- What `skip_descendants` does: `rows` are those it skipped. -/
structure Propagated (e e' : JobEngine) (job : Job) (rows : List Job) : Prop extends Skipped e e' rows where
  reached : ∀ j, j ∈ rows.map Job.jobId ↔ Relation.TransGen e.ChildOf job.jobId j ∧ e.Open j
  slots : rows.length ≤ e.outstanding → e'.outstanding = e.outstanding - rows.length
  callbacks : e'.completions = e.completions ++ rows
  receipts : e'.ledger = e.ledger ++ rows.map (fun j => .metric j.jobId) ++
    rows.flatMap fun j => [.callback j.jobId, .slot j.jobId]
  shape : ∃ jobs queue pos log journal outstanding completions ledger, e' = { e with
    db := { e.db with jobs }
    queue := queue
    world := { e.world with pos }
    log := log
    journal := journal
    metrics := { e.metrics with jobsSkipped := e.metrics.jobsSkipped + rows.length }
    outstanding := outstanding
    completions := completions
    ledger := ledger }

theorem skipMetric_nil : (e.skipMetric []).1 = e := by
  simp [skipMetric]

/-- After the loop the callbacks are made and the slots released. -/
theorem Walking.propagated {w : SkipWalk} (h : e.Walking job e₁ w) (hfrontier : w.frontier = []) :
    e.Propagated (w.toSkip.foldl reportSkipped (e₁.skipMetric w.toSkip).1) job w.toSkip := by
  have hsearch := h.search
  rw [hfrontier] at hsearch
  obtain ⟨jobs, queue, pos, log, journal, he₁⟩ := h.shape
  obtain ⟨outstanding, heq, hout⟩ := foldl_reportSkipped w.toSkip (e₁.skipMetric w.toSkip).1
  rw [heq]
  refine ⟨h.skipped.congr rfl rfl, fun j => ?_, fun hle => ?_, ?_, ?_, ?_⟩
  · rw [h.mem_toSkip j, hsearch.mem_seen_iff]
  · rw [hout (by rw [he₁]; exact hle), he₁]
    rfl
  · rw [he₁]
    rfl
  · rw [he₁]
    rfl
  · rw [he₁]
    exact ⟨_, _, _, _, _, _, _, _, rfl⟩

theorem Walking.reaches_account {w : SkipWalk} (h : e.Walking job e₁ w) (hfrontier : w.frontier = [])
    (rest : List Frame) :
    engineSystem.Reaches (e₁, .skipLoop w :: rest) (w.toSkip.foldl reportSkipped (e₁.skipMetric w.toSkip).1,
      .account job (w.toSkip.map (·.jobId)) :: rest) := by
  refine .head fun c => ?_
  change engineSystem.Reaches (e₁, e₁.skipLoop w ++ rest) _
  rw [skipLoop, hfrontier, h.origin]
  cases w.toSkip with
  | nil =>
      rw [skipMetric_nil]
      exact .refl _
  | cons row rows =>
      refine .head fun c => ?_
      exact reaches_reports (row :: rows) (e₁.skipMetric (row :: rows)).1 _

/-- **Failure propagation is exact.** `skip_descendants` ends, whatever the graph; it skips the open jobs among the
descendants, and releases one slot and makes one callback for each. -/
theorem skipDescendants_exact (e : JobEngine) (job : Job) (rest : List Frame) (hq : e.queue.Consistent)
    (hrows : ∀ j, Relation.TransGen e.ChildOf job.jobId j → (e.db.getJob j).isSome) :
    ∃ e' rows, engineSystem.Reaches (e, .skip job :: rest) (e', .account job (rows.map (·.jobId)) :: rest) ∧
      e.Propagated e' job rows := by
  have hstart : e.Walking job e { job, frontier := ((e.children.lookup job.jobId).getD []).reverse } :=
    ⟨rfl, .start fun j => List.mem_reverse.symm, .refl hq, fun j => by simp, ⟨_, _, _, _, _, rfl⟩⟩
  cases hchildren : e.children.lookup job.jobId with
  | none =>
      have hprop := hstart.propagated (by rw [hchildren]; rfl)
      rw [skipMetric_nil] at hprop
      refine ⟨e, [], .head fun c => ?_, hprop⟩
      change engineSystem.Reaches (e, e.skip job ++ rest) _
      rw [skip, hchildren]
      exact .refl _
  | some children =>
      obtain ⟨e₁, w, hreach, hw, hfrontier⟩ := hstart.finish hrows rest _ (Nat.le_add_left _ _)
      refine ⟨_, w.toSkip, .head fun c => ?_, hw.propagated hfrontier⟩
      change engineSystem.Reaches (e, e.skip job ++ rest) _
      rw [skip, hchildren]
      rw [hchildren] at hreach
      exact hreach.trans (hw.reaches_account hfrontier rest)

/-- Two paths from a failed job to one job, one of them over a job that was cancelled. -/
def twoPaths : JobEngine where
  db := { jobs := ⟨[{ jobId := "a", state := .failed }, { jobId := "b" }, { jobId := "c", state := .cancelled },
    { jobId := "d", state := .pending }], by decide⟩ }
  queue := (PriorityJobQueue.push { capacity := 4 } 0 "b" 0 0).2
  children := [⟨"a", ["b", "c"]⟩, ⟨"b", ["d"]⟩, ⟨"c", ["d", "d"]⟩].toAList
  outstanding := 2

theorem skipDescendants_exact_twoPaths :
    ∃ e' rows, engineSystem.Reaches (twoPaths, [.skip { jobId := "a", state := .failed }])
        (e', [.account { jobId := "a", state := .failed } (rows.map (·.jobId))]) ∧
      twoPaths.Propagated e' { jobId := "a", state := .failed } rows := by
  have hclosed : ∀ a ∈ ["a", "b", "c", "d"], ∀ b ∈ (twoPaths.children.lookup a).getD [],
      b ∈ ["a", "b", "c", "d"] := by
    decide +kernel
  have hall : ∀ b ∈ ["a", "b", "c", "d"], (twoPaths.db.getJob b).isSome := by
    decide +kernel
  refine skipDescendants_exact twoPaths _ [] ((PriorityJobQueue.consistent_empty 4).push 0 "b" 0 0) fun j hj => ?_
  exact hall j (mem_of_closed (hclosed "a" (by decide)) (fun b c hb => hclosed b hb c) hj)

end JobEngine

end DistributedJobEngine
