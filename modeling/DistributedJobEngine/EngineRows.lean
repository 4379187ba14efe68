import DistributedJobEngine.EngineEntries

/-! What holds of every single row. A property of rows that all the ways to write a row keep holds of every row of
the store after every write, over all lives of the engine, and of the copies of rows that operations have. -/

namespace DistributedJobEngine

open LibPool LibTable

/-- A property of rows that the engine's operations keep. -/
structure RowLaw (Q : Job → Prop) : Prop where
  persisted : ∀ job, Q job → Q job.persisted
  fresh : ∀ job, job.Fresh → Q job
  flag : ∀ job, Q job → job.state = .running → Q { job with cancelRequested := true }
  cancel : ∀ (e : JobEngine) job, Q job → Q (e.cancelledRow job)
  start : ∀ (e : JobEngine) job owner eligibleAt remote, Q job → job.state.isWaiting = true →
    job.cancelRequested = false → Q (e.startedRow job owner eligibleAt remote)
  finish : ∀ (e : JobEngine) job info outcome, Q job → Q (e.finishedRow job info outcome
    (JobEngine.verdict (e.reasonOf info) job outcome).1 (JobEngine.verdict (e.reasonOf info) job outcome).2.2)
  expire : ∀ now job, Q job → job.state = .running → Q (JobEngine.expiredRow now job)
  release : ∀ (e : JobEngine) job, Q job → job.state = .pending → Q (e.releasedRow job)
  skip : ∀ (e : JobEngine) job, Q job → Q (e.skippedRow job)

/-- The copies of operations that have just read the state they act on. -/
def Frame.Staged : Frame → Prop
  | startWrite job _ _ _ => job.state.isWaiting = true
  | releaseWrite job => job.state = .pending
  | expireWrite _ job => job.state = .running
  | _ => True

namespace JobEngine

variable {e e' : JobEngine} {Q : Job → Prop}

theorem finishedRow_columns (job : Job) (info : RunningInfo) (outcome : Outcome) (next : JobState) (error : String) :
    (e.finishedRow job info outcome next error).attempt = job.attempt ∧
      (e.finishedRow job info outcome next error).retry = job.retry ∧
      (e.finishedRow job info outcome next error).state = next := by
  unfold finishedRow
  dsimp only
  split <;> exact ⟨rfl, rfl, rfl⟩

/-- The property holds of the rows after every write so far and of the copies of the operations. -/
structure Ruled (Q : Job → Prop) (e : JobEngine) (F : Multiset Frame) : Prop where
  tended : e.Tended F
  rows : ∀ ws, ws <+: e.journal → ∀ job ∈ (replay ws).jobs, Q job
  copies : ∀ f ∈ F, ∀ job, f.copy = some job → Q job
  staged : ∀ f ∈ F, f.Staged

theorem Ruled.row {F : Multiset Frame} (h : e.Ruled Q F) {j : JobId} {row : Job} (hrow : e.db.getJob j = some row) :
    Q row := by
  refine h.rows e.journal (List.prefix_refl _) row ?_
  rw [← h.tended.steady.chronicle.holds.jobs]
  exact (Table.lookup_eq_some.mp hrow).1

/-- Every row that a step writes has the property. -/
theorem Ruled.writes {f : Frame} {O : Multiset Frame} {row : Job} (h : e.Ruled Q (f ::ₘ O)) (hQ : RowLaw Q)
    (hrow : e.Writes f row) : Q row := by
  have hf := h.copies f (Multiset.mem_cons_self f O)
  have hst := h.staged f (Multiset.mem_cons_self f O)
  have hproper := h.tended.steady.sound.proper f (Multiset.mem_cons_self f O)
  cases hrow with
  | flag job => exact hQ.flag job (hf job rfl) hproper
  | cancel job => exact hQ.cancel e job (hf job rfl)
  | drop job => exact hQ.cancel e job (hf job rfl)
  | start job owner eligibleAt remote hflag => exact hQ.start e job owner eligibleAt remote (hf job rfl) hst hflag
  | retry token => exact hf row rfl
  | finish token => exact hf row rfl
  | expire now job => exact hQ.expire now job (hf job rfl) hst
  | release job => exact hQ.release e job (hf job rfl) hst
  | skip w job => exact hQ.skip e job (hf job rfl)

/-- The states that the operations act on have just been read. -/
theorem staged_advance {c : Choice} {f g : Frame} (hg : g ∈ (e.advance c f).2) : g.Staged := by
  have hnext := (advance_follows (e := e) c f).next g hg
  cases g with
  | startWrite job owner eligibleAt remote =>
      cases f with
      | start jobId owner' eligibleAt' remote' =>
          simp only [advance, start] at hg
          split at hg
          · cases hg
          · split_ifs at hg with hwait
            · cases List.mem_singleton.mp hg
              exact hwait
            · cases hg
      | _ => simp [Frame.kind, Kind.next, Kind.ending] at hnext
  | releaseWrite job =>
      cases f with
      | releaseGet child =>
          simp only [advance, releaseGet] at hg
          split at hg
          · cases hg
          · split_ifs at hg with hpend
            · cases List.mem_singleton.mp hg
              exact hpend
            · cases hg
      | _ => simp [Frame.kind, Kind.next, Kind.ending] at hnext
  | expireWrite now job =>
      cases f with
      | expire now' jobId selected =>
          simp only [advance, expire] at hg
          split at hg
          · cases hg
          · dsimp only at hg
            split at hg
            · cases hg
            · split_ifs at hg with hrun
              · cases List.mem_singleton.mp hg
                exact hrun
              · cases hg
      | _ => simp [Frame.kind, Kind.next, Kind.ending] at hnext
  | _ => trivial

theorem Ruled.copy_advance {c : Choice} {f g : Frame} {O : Multiset Frame} {row : Job} (h : e.Ruled Q (f ::ₘ O))
    (hQ : RowLaw Q) (hg : g ∈ (e.advance c f).2) (hcopy : g.copy = some row) : Q row := by
  have hf := h.copies f (Multiset.mem_cons_self f O)
  have hst := h.staged f (Multiset.mem_cons_self f O)
  cases advance_copy (e := e) c hg hcopy with
  | read hread => exact h.row hread
  | kept hkept => exact hf row hkept
  | started job owner eligibleAt remote hframe hflag hstarted =>
      subst hframe hstarted
      exact hQ.start e job owner eligibleAt remote (hf job rfl) hst hflag
  | finished job info outcome hframe hfinished =>
      subst hframe hfinished
      exact hQ.finish e job info outcome (hf job rfl)

/-- What holds of the rows after every write so far, and after one more. -/
theorem prefixes_concat {T : List Job → Prop} {ws : List RowWrite} {w : RowWrite}
    (h : ∀ ws', ws' <+: ws → T (replay ws').jobs) (hw : T (replay (ws ++ [w])).jobs) :
    ∀ ws', ws' <+: ws ++ [w] → T (replay ws').jobs := by
  intro ws' hws
  rcases List.prefix_concat_iff.mp hws with rfl | hws
  · exact hw
  · exact h ws' hws

theorem forall_update {ws : List RowWrite} {row : Job} (hQ : ∀ job, Q job → Q job.persisted)
    (h : ∀ job ∈ (replay ws).jobs, Q job) (hrow : Q row) : ∀ job ∈ (replay (ws ++ [.update row])).jobs, Q job := by
  intro job hjob
  rw [replay_concat] at hjob
  obtain ⟨old, hold, rfl⟩ := List.mem_map.mp hjob
  split_ifs
  · exact hQ row hrow
  · exact h old hold

theorem Ruled.advance {c : Choice} {f : Frame} {O : Multiset Frame} (h : e.Ruled Q (f ::ₘ O)) (hQ : RowLaw Q)
    (hO : ∀ g ∈ O, g.kind.still = true) : (e.advance c f).1.Ruled Q (((e.advance c f).2 : Multiset Frame) + O) := by
  refine ⟨h.tended.advance hO, ?_, fun g hg job hcopy => ?_, fun g hg => ?_⟩
  · cases advance_rows (e := e) c f with
    | same _ hjournal =>
        rw [hjournal]
        exact h.rows
    | wrote row hrow _ hjournal =>
        rw [hjournal]
        exact prefixes_concat (T := fun rows => ∀ job ∈ rows, Q job) h.rows
          (forall_update hQ.persisted (h.rows _ (List.prefix_refl _)) (h.writes hQ hrow))
  · rcases Multiset.mem_add.mp hg with hg | hg
    · exact h.copy_advance hQ hg hcopy
    · exact h.copies g (Multiset.mem_cons_of_mem hg) job hcopy
  · rcases Multiset.mem_add.mp hg with hg | hg
    · exact staged_advance hg
    · exact h.staged g (Multiset.mem_cons_of_mem hg)

theorem Ruled.spawn {f : Frame} {F : Multiset Frame} (h : e.Ruled Q F) (hF : ∀ g ∈ F, g.parks = true)
    (hcall : Call f) : e.Ruled Q (f ::ₘ F) := by
  refine ⟨h.tended.spawn hF hcall, h.rows, fun g hg job hcopy => ?_, fun g hg => ?_⟩
  · rcases Multiset.mem_cons.mp hg with rfl | hg
    · have hnone : g.copy = none := by cases g <;> first | rfl | cases hcall
      rw [hnone] at hcopy
      cases hcopy
    · exact h.copies g hg job hcopy
  · rcases Multiset.mem_cons.mp hg with rfl | hg
    · cases g <;> trivial
    · exact h.staged g hg

/-- A submission is one write. -/
theorem prefixes_submits {T : List Job → Prop} (hsub : Submits e e') (h : ∀ ws, ws <+: e.journal → T (replay ws).jobs)
    (hnow : T (replay e'.journal).jobs) : ∀ ws, ws <+: e'.journal → T (replay ws).jobs := by
  cases submits_issues hsub with
  | nothing _ hjournal =>
      rw [hjournal]
      exact h
  | job job _ _ hjournal | workflow wf rows edges _ _ hjournal =>
      rw [hjournal] at hnow ⊢
      exact prefixes_concat h hnow

/-- The rows after a submission are those before and new ones. -/
theorem Ruled.submits {F : Multiset Frame} (h : e.Ruled Q F) (hQ : RowLaw Q) (hF : ∀ g ∈ F, g.parks = true)
    (hsub : Submits e e') : e'.Ruled Q F := by
  have htended := h.tended.submits hF hsub
  obtain ⟨news, hnews⟩ := submits_intake hsub
  refine ⟨htended, prefixes_submits (T := fun rows => ∀ job ∈ rows, Q job) hsub h.rows fun job hjob => ?_, h.copies,
    h.staged⟩
  rw [← htended.steady.chronicle.holds.jobs, hnews.rows, h.tended.steady.chronicle.holds.jobs] at hjob
  rcases List.mem_append.mp hjob with hold | hnew
  · exact h.rows _ (List.prefix_refl _) job hold
  · obtain ⟨x, hx, rfl⟩ := List.mem_map.mp hnew
    exact hQ.persisted x (hQ.fresh x (hnews.fresh x hx))

/-- The writes of recovery put rows that were running back on the queue. -/
theorem prefixes_recover {T : List Job → Prop} {jobs : List Job} (h : ∀ ws, ws <+: e.journal → T (replay ws).jobs)
    (hback : ∀ (e : JobEngine), ∀ job ∈ jobs, job.state = .running → ∀ ws, T (replay ws).jobs →
      T (replay (ws ++ [.update (e.recoveredRow job)])).jobs) :
    ∀ ws, ws <+: (jobs.foldl recoverJob e).journal → T (replay ws).jobs := by
  induction jobs generalizing e with
  | nil => exact h
  | cons job jobs ih =>
      refine ih ?_ fun e x hx => hback e x (List.mem_cons_of_mem _ hx)
      rcases rows_recoverJob (e := e) job with ⟨-, hsame⟩ | ⟨hrun, -, hwrote⟩
      · rw [hsame]
        exact h
      · rw [hwrote]
        exact prefixes_concat h (hback e job List.mem_cons_self hrun _ (h _ (List.prefix_refl _)))

/-- The rows that a restart finds running may be put back on the queue. -/
def Resumable (Q : Job → Prop) (kept : List RowWrite) : Prop :=
  ∀ (e : JobEngine), ∀ job ∈ (replay kept).jobs, Q job → job.state = .running → Q (e.recoveredRow job)

theorem Ruled.restarts {P : EngineConfig → World → List RowWrite → Prop} {F : Multiset Frame} (h : e.Ruled Q F)
    (hQ : RowLaw Q) (hP : ∀ cfg world kept, P cfg world kept → Resumable Q kept) (hr : RestartsWith P e e') :
    e'.Ruled Q 0 := by
  have htended := h.tended.restarts hr.restarts
  obtain @⟨cfg, types, world, db, kept, hkept, hdb, hworld, hcond⟩ := hr
  refine ⟨htended, prefixes_recover (T := fun rows => ∀ job ∈ rows, Q job)
    (e := (restart cfg types world db kept).recoverGraph db.loadNonTerminalJobs)
    (fun ws hws => h.rows ws (List.IsPrefix.trans hws hkept)) fun e job hjob hrun ws hws => ?_, by simp, by simp⟩
  have hmem : job ∈ (replay kept).jobs := by
    rw [← hdb.jobs]
    exact (mem_loadNonTerminalJobs.mp hjob).1
  exact forall_update hQ.persisted hws (hP cfg world kept hcond e job hmem (h.rows kept hkept job hmem) hrun)

theorem boot_ruled {cfg : EngineConfig} {types : List String} {world : World} (hworld : ∀ n, world.fault n = false) :
    (boot cfg types world).Ruled Q 0 := by
  refine ⟨boot_tended hworld, fun ws hws job hjob => ?_, by simp, by simp⟩
  rw [List.prefix_nil.mp hws] at hjob
  cases hjob

/-- **A property that operations and restarts keep holds of every row at all times.** -/
theorem Ruled.lived {P : EngineConfig → World → List RowWrite → Prop} {p p' : Pool JobEngine Frame}
    (h : p.state.Ruled Q p.frames) (hQ : RowLaw Q) (hP : ∀ cfg world kept, P cfg world kept → Resumable Q kept)
    (hp : engineSystem.AtRest p) (hrun : LivedWith P p p') : p'.state.Ruled Q p'.frames :=
  lives_invariant (I := fun e F => e.Ruled Q F) hrun hp
    (fun _ _ _ _ hO h => h.advance hQ hO) (fun _ _ _ hF hsub h => h.submits hQ hF hsub)
    (fun _ _ _ hF hcall h => h.spawn hF hcall) (fun _ _ _ hr h => h.restarts hQ hP hr) h

end JobEngine

end DistributedJobEngine
