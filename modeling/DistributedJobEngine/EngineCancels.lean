import DistributedJobEngine.EngineCells
import DistributedJobEngine.EngineLabels
import DistributedJobEngine.EngineRows

/-! What a cancellation does to a job. A job that is not running is cancelled at once; a running one is flagged and
its attempt is told, and from then on no attempt of it begins and none ends in success, whatever the worker reports
and whether or not its lease expires. -/

namespace DistributedJobEngine

open LibPool LibTable

/-- The job has ended, or its row says that it is to be cancelled. -/
def Job.Dying (job : Job) : Prop := job.state.isTerminal = true ∨ job.cancelRequested = true ∧ job.state ≠ .pending

/-- The frame is about to end the lease `x` with a copy that has the flag. -/
def Frame.Closes (e : JobEngine) (x : Tag) : Frame → Prop
  | finish job info _ _ => info.tag job.jobId = x ∧ job.cancelRequested = true ∧ e.reasonOf info = .timeout
  | _ => False

/-- The frame is not going to revive the job `j`, which is to be cancelled. -/
def Frame.Obeys (e : JobEngine) (j : JobId) : Frame → Prop
  | startWrite job _ _ _ | finishRetry job _ | expireWrite _ job => job.jobId = j → job.cancelRequested = true
  | finishRecord job info _ => job.jobId = j →
      e.reasonOf info = .user ∨ job.cancelRequested = true ∧ e.reasonOf info = .timeout
  | finishTerminal job _ => job.jobId = j → job.state ≠ .succeeded
  | releaseWrite job => job.jobId ≠ j
  | _ => True

theorem Frame.obeys_of_still {e : JobEngine} {j : JobId} {f : Frame} (h : f.kind.still = true) : f.Obeys e j := by
  cases f <;> trivial

theorem Frame.not_closes_of_still {e : JobEngine} {x : Tag} {f : Frame} (h : f.kind.still = true) :
    ¬ f.Closes e x := by
  cases f <;> first | exact id | cases h

/-- The kinds of frames that have just read the row they write. -/
def Kind.fresh : Kind → Bool
  | startWrite | expireWrite | releaseWrite => true
  | _ => false

/-- The kinds that read a row to decide on it. -/
def Kind.scouts : Kind → Bool
  | start | expire | releaseGet => true
  | _ => false

theorem Kind.scouts_of_next (k : Kind) : ∀ k' ∈ k.next, k'.fresh = true → k.scouts = true := by
  cases k <;> decide

namespace JobEngine

variable {e e' : JobEngine} {j : JobId} {c : Choice} {f : Frame} {O : Multiset Frame}

/-- The job `j` is on its way to an end without success. -/
structure Doomed (e : JobEngine) (F : Multiset Frame) (j : JobId) : Prop where
  row : ∃ row, e.db.getJob j = some row ∧ row.Dying
  held : ∀ x, e.Holds x → x.job = j → e.reasonAt x.cell = .user ∨ ∃ f ∈ F, f.Closes e x
  obeys : ∀ f ∈ F, f.Obeys e j

theorem Doomed.dying {F : Multiset Frame} {row : Job} (h : e.Doomed F j) (hrow : e.db.getJob j = some row) :
    row.Dying := by
  obtain ⟨row', hrow', hdying⟩ := h.row
  rw [hrow] at hrow'
  cases hrow'
  exact hdying

theorem verdict_of_obeys {reason : CancelReason} {job : Job} (outcome : Outcome)
    (h : reason = .user ∨ job.cancelRequested = true ∧ reason = .timeout) :
    (verdict reason job outcome).1 ≠ .succeeded ∧
      ((verdict reason job outcome).1 = .retrying → job.cancelRequested = true) := by
  rcases h with rfl | ⟨hflag, rfl⟩
  · exact ⟨by simp [verdict], fun h => by cases h⟩
  · refine ⟨?_, fun _ => hflag⟩
    simp only [verdict]
    split_ifs <;> simp

theorem getJob_advance {c : Choice} {f : Frame} {row : Job} (hrow : (e.advance c f).1.db.getJob j = some row) :
    e.db.getJob j = some row ∨
      ∃ new, e.Writes f new ∧ new.jobId = j ∧ row = new.persisted ∧ ∃ old, e.db.getJob j = some old := by
  cases advance_rows (e := e) c f with
  | same h _ =>
      left
      rw [← hrow]
      exact congrArg (Table.lookup · j) h.symm
  | wrote new hnew h _ =>
      have hget : (e.advance c f).1.db.getJob j = _ := (congrArg (Table.lookup · j) h).trans (getJob_updateJob _ _ _)
      rw [hget] at hrow
      split_ifs at hrow with hj
      · obtain ⟨old, hold, rfl⟩ := Option.map_eq_some_iff.mp hrow
        exact .inr ⟨new, hnew, hj, rfl, old, hold⟩
      · exact .inl hrow

theorem exists_getJob_advance (c : Choice) (f : Frame) {row : Job} (hrow : e.db.getJob j = some row) :
    ∃ row', (e.advance c f).1.db.getJob j = some row' := by
  cases advance_rows (e := e) c f with
  | same h _ => exact ⟨row, (congrArg (Table.lookup · j) h).trans hrow⟩
  | wrote new _ h _ =>
      have hget : (e.advance c f).1.db.getJob j = _ := (congrArg (Table.lookup · j) h).trans (getJob_updateJob _ _ _)
      rw [hget, hrow]
      split_ifs
      · exact ⟨_, rfl⟩
      · exact ⟨_, rfl⟩

/-- Every row that is written of a job on its way to the end says so. -/
theorem Writes.dying {f : Frame} {row : Job} (h : e.Writes f row) (hproper : f.Proper) (hf : f.Obeys e j)
    (hj : row.jobId = j) : row.Dying := by
  cases h with
  | flag job => exact .inr ⟨rfl, by rw [show job.state = .running from hproper]; decide⟩
  | cancel job | drop job | skip w job => exact .inl rfl
  | start job owner eligibleAt remote hflag =>
      rw [hf hj] at hflag
      cases hflag
  | retry token => exact .inr ⟨hf hj, by rw [show row.state = .retrying from hproper]; decide⟩
  | finish token => exact .inl hproper.1
  | expire now job =>
      have hflag := hf ((expiredRow_spec now job).1 ▸ hj)
      unfold expiredRow
      dsimp only
      split_ifs
      · exact .inl rfl
      · exact .inr ⟨hflag, by simp⟩
  | release job => exact absurd hj hf

theorem Doomed.row_advance (h : e.Doomed (f ::ₘ O) j)
    (hsound : e.Sound (f ::ₘ O)) : ∃ row, (e.advance c f).1.db.getJob j = some row ∧ row.Dying := by
  have hf := Multiset.mem_cons_self f O
  obtain ⟨old, hold, hdying⟩ := h.row
  obtain ⟨row, hrow⟩ := exists_getJob_advance c f hold
  refine ⟨row, hrow, ?_⟩
  rcases getJob_advance hrow with hsame | ⟨new, hnew, hj, rfl, -⟩
  · exact h.dying hsame
  · exact hnew.dying (hsound.proper f hf) (h.obeys f hf) hj

theorem Sound.row_of_holds {F : Multiset Frame} {x : Tag} (h : e.Sound F) (hx : e.Holds x) :
    ∃ job, e.db.getJob x.job = some job ∧ job.state = .running := by
  obtain ⟨info, hlookup, -⟩ := hx
  have hlease : (e.board.lease x.job).isSome := by simp [board, hlookup]
  exact inState_iff.mpr (h.safe.lease x.job hlease)

/-- A frame that ends the lease it has a copy of leaves no lease of the job. -/
theorem not_holds_of_closes {c : Choice} {f : Frame} {x : Tag} (hf : f.Closes e x) (hx : e.Holds x) :
    ¬ (e.advance c f).1.Holds x := by
  cases f with
  | finish job info outcome call =>
      obtain ⟨htag, -, -⟩ := hf
      obtain ⟨held, hlookup, hheld⟩ := hx
      have hj : job.jobId = x.job := congrArg Tag.job htag
      have htoken : held.leaseToken = info.leaseToken :=
        (congrArg Tag.token hheld).trans (congrArg Tag.token htag).symm
      have hrun : (e.advance c (.finish job info outcome call)).1.running = e.running.erase x.job := by
        rw [← hj] at hlookup ⊢
        change (e.finish job info outcome call).1.running = _
        unfold finish
        rw [hlookup]
        dsimp only
        rw [if_pos htoken]
      rintro ⟨held', hlookup', -⟩
      rw [hrun, AList.lookup_erase] at hlookup'
      cases hlookup'
  | _ => exact hf.elim

/-- No step issues a lease of a job on its way to the end. -/
theorem Doomed.holds_advance {x : Tag} (h : e.Doomed (f ::ₘ O) j)
    (hx : (e.advance c f).1.Holds x) (hj : x.job = j) : e.Holds x := by
  cases advance_tags (e := e) c f with
  | old hholds _ _ => exact hholds x hx
  | issue x₀ hstart hflag hjob _ hholds _ _ _ =>
      rcases hholds x hx with rfl | hold
      · have hobeys := h.obeys f (Multiset.mem_cons_self f O)
        subst hstart
        rw [hobeys (hjob.symm.trans hj)] at hflag
        cases hflag
      · exact hold

theorem Doomed.held_advance {x : Tag} (h : e.Doomed (f ::ₘ O) j)
    (hsound : e.Sound (f ::ₘ O)) (hcells : e.Celled (f ::ₘ O)) (hO : ∀ g ∈ O, g.kind.still = true)
    (hx : (e.advance c f).1.Holds x) (hj : x.job = j) : (e.advance c f).1.reasonAt x.cell = .user ∨
      ∃ g ∈ ((e.advance c f).2 : Multiset Frame) + O, g.Closes (e.advance c f).1 x := by
  have hf := Multiset.mem_cons_self f O
  have hold : e.Holds x := h.holds_advance hx hj
  rcases h.held x hold hj with huser | ⟨g, hg, hcloses⟩
  · cases advance_reason (e := e) c f (hcells.bound x (.inl hold)) with
    | same hsame => exact .inl (hsame.trans huser)
    | signal _ _ hnew => exact .inl hnew
    | late _ hnone _ =>
        rw [huser] at hnone
        cases hnone
    | report msg info call hread hcell hnew =>
        subst hread
        rcases hnew with hnew | hnew
        · have htag : info.tag msg.jobId = x := hcells.cell _ x (.inr ⟨_, hf, rfl⟩) (.inl hold) hcell
          obtain ⟨job, hget, hrun⟩ := hsound.row_of_holds hold
          have hflag : job.cancelRequested = true := by
            rcases h.dying (hj ▸ hget) with hend | ⟨hflag, -⟩
            · rw [hrun] at hend
              cases hend
            · exact hflag
          have hget' : e.db.getJob msg.jobId = some job := by rw [← hget, ← htag]; rfl
          refine .inr ⟨.finish job info ⟨decide (msg.status = "SUCCEEDED"), msg.result, msg.error⟩ (some call),
            Multiset.mem_add.mpr (.inl ?_), ?_, hflag, ?_⟩
          · simp only [advance, completeRead, hget']
            exact List.mem_cons_self
          · rw [getJob_jobId hget, ← htag]
            rfl
          · rw [← hcell] at hnew
            exact hnew
        · exact .inl hnew
  · rcases Multiset.mem_cons.mp hg with rfl | hg
    · exact absurd hx (not_holds_of_closes hcloses hold)
    · exact absurd hcloses (Frame.not_closes_of_still (hO g hg))

/-- The copy with which an operation goes on after reading a row is the row. -/
theorem getJob_of_fresh {c : Choice} {f g : Frame} {row : Job} (hg : g ∈ (e.advance c f).2)
    (hkind : g.kind.fresh = true)
    (hcopy : g.copy = some row) : e.db.getJob row.jobId = some row := by
  have hscouts := Kind.scouts_of_next _ _ ((advance_follows c f).next g hg) hkind
  have hnone : f.copy = none := by cases f <;> first | rfl | cases hscouts
  cases advance_copy (e := e) c hg hcopy with
  | read hread => exact hread
  | kept hkept =>
      rw [hnone] at hkept
      cases hkept
  | started _ _ _ _ hf _ _ | finished _ _ _ hf _ =>
      subst hf
      cases hscouts

/-- The fence lets only the holder of the lease pass. -/
theorem finish_fenced {job : Job} {info : RunningInfo} {outcome : Outcome} {call : Option ℕ} {g : Frame}
    (hg : g ∈ (e.finish job info outcome call).2) : g = .finishRecord job info outcome ∧
      (e.finish job info outcome call).1.cells = e.cells ∧
        ∃ held, e.running.lookup job.jobId = some held ∧ held.leaseToken = info.leaseToken := by
  unfold finish at hg ⊢
  cases hlookup : e.running.lookup job.jobId with
  | none =>
      rw [hlookup] at hg
      cases hg
  | some held =>
      rw [hlookup] at hg
      dsimp only at hg ⊢
      by_cases htoken : held.leaseToken = info.leaseToken
      · rw [if_pos htoken] at hg ⊢
        exact ⟨List.mem_singleton.mp hg, rfl, held, rfl, htoken⟩
      · rw [if_neg htoken] at hg
        cases hg

/-- The attempt that passes the fence was told of the cancellation or ends with a copy that has the flag. -/
theorem Doomed.obeys_finish {job : Job} {info : RunningInfo} {outcome : Outcome} {call : Option ℕ}
    {O : Multiset Frame} (h : e.Doomed (.finish job info outcome call ::ₘ O) j)
    (hcells : e.Celled (.finish job info outcome call ::ₘ O)) (hd : e.Distinct) (hO : ∀ g ∈ O, g.kind.still = true)
    {g : Frame} (hg : g ∈ (e.finish job info outcome call).2) : g.Obeys (e.finish job info outcome call).1 j := by
  obtain ⟨rfl, hsame, held, hlookup, htoken⟩ := finish_fenced hg
  intro hj
  have hreason : (e.finish job info outcome call).1.reasonOf info = e.reasonAt info.cell := by
    rw [reasonOf, hsame]
    rfl
  rw [hreason]
  have htag : held.tag job.jobId = info.tag job.jobId :=
    hcells.token hd _ _ (.inl (holds_tag hlookup)) (.inr ⟨_, Multiset.mem_cons_self _ O, rfl⟩) htoken
  have hcell : held.cell = info.cell := congrArg Tag.cell htag
  rcases h.held _ (holds_tag hlookup) hj with huser | ⟨g, hg, hcloses⟩
  · left
    rw [← hcell]
    exact huser
  · rcases Multiset.mem_cons.mp hg with rfl | hg
    · exact .inr hcloses.2
    · exact absurd hcloses (Frame.not_closes_of_still (hO g hg))

/-- The row that `finish_attempt` is going to write, by its verdict. -/
theorem finishRecord_left {job : Job} {info : RunningInfo} {outcome : Outcome} {g : Frame}
    (hg : g ∈ (e.finishRecord job info outcome).2) :
    ∃ row, row.jobId = job.jobId ∧ row.cancelRequested = job.cancelRequested ∧ row.attempt = job.attempt ∧
      row.state = (verdict (e.reasonOf info) job outcome).1 ∧
        (g = .finishRetry row info.leaseToken ∧ row.state = .retrying ∨
          g = .finishTerminal row info.leaseToken ∧ row.state ≠ .retrying) := by
  refine ⟨e.finishedRow job info outcome (verdict (e.reasonOf info) job outcome).1
    (verdict (e.reasonOf info) job outcome).2.2, (finishedRow_spec _ _ _ _ _).1, ?_,
    (finishedRow_columns _ _ _ _ _).1, (finishedRow_columns _ _ _ _ _).2.2, ?_⟩
  · unfold finishedRow
    dsimp only
    split <;> rfl
  · rw [(finishedRow_columns _ _ _ _ _).2.2]
    simp only [finishRecord] at hg
    split_ifs at hg with hretry
    · exact .inl ⟨List.mem_singleton.mp hg, hretry⟩
    · exact .inr ⟨List.mem_singleton.mp hg, hretry⟩

/-- The frames that a step leaves obey. -/
theorem Doomed.obeys_new {c : Choice} {f g : Frame} {O : Multiset Frame} (h : e.Doomed (f ::ₘ O) j)
    (hcells : e.Celled (f ::ₘ O)) (hd : e.Distinct) (hO : ∀ g ∈ O, g.kind.still = true)
    (hg : g ∈ (e.advance c f).2) : g.Obeys (e.advance c f).1 j := by
  have hstaged := staged_advance hg
  have hnext := (advance_follows (e := e) c f).next g hg
  cases g with
  | startWrite job owner eligibleAt remote =>
      intro hj
      rcases h.dying (hj ▸ getJob_of_fresh hg rfl rfl) with hend | hflag
      · rw [JobState.isTerminal_eq_false_of_isWaiting hstaged] at hend
        cases hend
      · exact hflag.1
  | expireWrite now job =>
      intro hj
      rcases h.dying (hj ▸ getJob_of_fresh hg rfl rfl) with hend | hflag
      · rw [show job.state = .running from hstaged] at hend
        cases hend
      · exact hflag.1
  | releaseWrite job =>
      intro hj
      have hpend : job.state = .pending := hstaged
      rcases h.dying (hj ▸ getJob_of_fresh hg rfl rfl) with hend | hflag
      · rw [hpend] at hend
        cases hend
      · exact hflag.2 hpend
  | finishRecord job info outcome =>
      cases f with
      | finish job' info' outcome' call => exact h.obeys_finish hcells hd hO hg
      | _ => simp [Frame.kind, Kind.next, Kind.ending] at hnext
  | finishRetry row token =>
      cases f with
      | finishRecord job info outcome =>
          intro hj
          obtain ⟨row', hid, hflag, -, hstate, hleft⟩ := finishRecord_left hg
          rcases hleft with ⟨hleft, hretry⟩ | ⟨hleft, -⟩
          · cases hleft
            have hobeys := verdict_of_obeys outcome (h.obeys _ (Multiset.mem_cons_self _ O) (hid ▸ hj))
            rw [hflag]
            exact hobeys.2 (hstate ▸ hretry)
          · cases hleft
      | _ => simp [Frame.kind, Kind.next, Kind.ending] at hnext
  | finishTerminal row token =>
      cases f with
      | finishRecord job info outcome =>
          intro hj
          obtain ⟨row', hid, -, -, hstate, hleft⟩ := finishRecord_left hg
          rcases hleft with ⟨hleft, -⟩ | ⟨hleft, -⟩
          · cases hleft
          · cases hleft
            have hobeys := verdict_of_obeys outcome (h.obeys _ (Multiset.mem_cons_self _ O) (hid ▸ hj))
            rw [hstate]
            exact hobeys.1
      | _ => simp [Frame.kind, Kind.next, Kind.ending] at hnext
  | _ => trivial

/-- **A job that is to be cancelled stays so**, step by step. -/
theorem Doomed.advance (h : e.Doomed (f ::ₘ O) j)
    (hsound : e.Sound (f ::ₘ O)) (hcells : e.Celled (f ::ₘ O)) (hd : e.Distinct)
    (hO : ∀ g ∈ O, g.kind.still = true) :
    (e.advance c f).1.Doomed (((e.advance c f).2 : Multiset Frame) + O) j := by
  refine ⟨h.row_advance hsound, fun x hx hj => h.held_advance hsound hcells hO hx hj,
    fun g hg => ?_⟩
  rcases Multiset.mem_add.mp hg with hg | hg
  · exact h.obeys_new hcells hd hO hg
  · exact Frame.obeys_of_still (hO g hg)

theorem Doomed.spawn {f : Frame} {F : Multiset Frame} (h : e.Doomed F j) (hcall : Call f) : e.Doomed (f ::ₘ F) j := by
  refine ⟨h.row, fun x hx hj => ?_, fun g hg => ?_⟩
  · rcases h.held x hx hj with huser | ⟨g, hg, hcloses⟩
    · exact .inl huser
    · exact .inr ⟨g, Multiset.mem_cons_of_mem hg, hcloses⟩
  · rcases Multiset.mem_cons.mp hg with rfl | hg
    · cases g <;> trivial
    · exact h.obeys g hg

theorem Doomed.submits {F : Multiset Frame} (h : e.Doomed F j) (hF : ∀ g ∈ F, g.parks = true) (hsub : Submits e e') :
    e'.Doomed F j := by
  have hdesk := Submits.desk hsub
  obtain ⟨row, hrow, hdying⟩ := h.row
  refine ⟨⟨row, Submits.getJob hsub hrow, hdying⟩, fun x hx hj => ?_, fun g hg =>
    Frame.obeys_of_still (Frame.still_of_parks (hF g hg))⟩
  rcases h.held x (holds_of_running (congrArg Desk.running hdesk) hx) hj with huser | ⟨g, hg, hcloses⟩
  · left
    rw [reasonAt, show e'.cells = e.cells from congrArg Desk.cells hdesk]
    exact huser
  · exact absurd hcloses (Frame.not_closes_of_still (Frame.still_of_parks (hF g hg)))

/-- A job that has ended is done with. -/
theorem Doomed.of_terminal {F : Multiset Frame} {row : Job} (hsound : e.Sound F) (hrow : e.db.getJob j = some row)
    (hend : row.state.isTerminal = true) (hF : ∀ f ∈ F, f.Obeys e j) : e.Doomed F j := by
  refine ⟨⟨row, hrow, .inl hend⟩, fun x hx hj => ?_, hF⟩
  obtain ⟨job, hget, hrun⟩ := hsound.row_of_holds hx
  rw [hj, hrow, Option.some.injEq] at hget
  rw [hget, hrun] at hend
  cases hend

/-! ### The cancellation itself -/

end JobEngine

/-- The frame belongs to a cancellation of the job. -/
def Frame.Cancels (e : JobEngine) (j : JobId) : Frame → Prop
  | cancel jobId => jobId = j
  | cancelFlag job | cancelRemove job | cancelWrite job => job.jobId = j
  | cancelSignal jobId => jobId = j ∧ ∀ row, e.db.getJob j = some row → row.cancelRequested = true ∧
      row.state = .running
  | _ => False

theorem Frame.eq_cancel_of_still {e : JobEngine} {j : JobId} {f : Frame} (h : f.kind.still = true)
    (hf : f.Cancels e j) :
    f = .cancel j := by
  cases f with
  | cancel jobId => rw [show jobId = j from hf]
  | _ => first | exact hf.elim | cases h

namespace JobEngine

variable {e e' : JobEngine} {j : JobId} {c : Choice} {f : Frame} {O : Multiset Frame}

/-- The job is to be cancelled or is just being cancelled. -/
def Ending (e : JobEngine) (F : Multiset Frame) (j : JobId) : Prop :=
  (∃ row, e.db.getJob j = some row) ∧ (e.Doomed F j ∨ ∃ f ∈ F, f.Cancels e j)

/-- Between turns nothing is just being cancelled. -/
theorem Ending.doomed {F : Multiset Frame} (h : e.Ending F j) (hF : ∀ g ∈ F, g.parks = true) : e.Doomed F j := by
  rcases h.2 with hdoomed | ⟨f, hf, hcancels⟩
  · exact hdoomed
  · have hparks := hF f hf
    rw [Frame.eq_cancel_of_still (Frame.still_of_parks hparks) hcancels] at hparks
    cases hparks

theorem obeys_add {fs : List Frame} {O : Multiset Frame} (hfs : ∀ g ∈ fs, g.Obeys e j)
    (hO : ∀ g ∈ O, g.kind.still = true) : ∀ g ∈ (fs : Multiset Frame) + O, g.Obeys e j := by
  intro g hg
  rcases Multiset.mem_add.mp hg with hg | hg
  · exact hfs g hg
  · exact Frame.obeys_of_still (hO g hg)

theorem obeys_tail (row : Job) (token : Option UInt64) : ∀ g ∈ Frame.tail row token, g.Obeys e j := by
  simp [Frame.tail, Frame.Obeys]

theorem Reliable.updateJob_eq (h : e.Reliable) (row : Job) : (e.updateJob row).1 = true := by
  unfold updateJob
  rw [if_neg (by rw [h]; exact Bool.false_ne_true)]

theorem Reliable.getJob_updateJob (h : e.Reliable) (row : Job) :
    (e.updateJob row).2.db.getJob j = if row.jobId = j then (e.db.getJob j).map fun _ => row.persisted
      else e.db.getJob j := by
  unfold updateJob
  rw [if_neg (by rw [h]; exact Bool.false_ne_true)]
  exact JobEngine.getJob_updateJob _ _ _

theorem cancelFlag_eq (h : e.Reliable) (job : Job) :
    e.cancelFlag job = ((e.updateJob { job with cancelRequested := true }).2, [.cancelSignal job.jobId]) := by
  have hok := h.updateJob_eq { job with cancelRequested := true }
  unfold cancelFlag
  cases hupd : e.updateJob { job with cancelRequested := true } with
  | mk ok e₁ =>
      rw [hupd] at hok
      cases ok with
      | false => cases hok
      | true => rfl

theorem cancelWrite_eq (h : e.Reliable) (job : Job) :
    e.cancelWrite job = ((e.updateJob (e.cancelledRow job)).2, Frame.tail (e.cancelledRow job) none) := by
  have hok := h.updateJob_eq (e.cancelledRow job)
  unfold cancelWrite
  dsimp only
  cases hupd : e.updateJob (e.cancelledRow job) with
  | mk ok e₁ =>
      rw [hupd] at hok
      cases ok with
      | false => cases hok
      | true => rfl

/-- What `cancel` finds when it reads the row. -/
theorem cancel_ending {O : Multiset Frame} {row : Job} (hsound : e.Sound (e.cancel j + O))
    (hO : ∀ g ∈ O, g.kind.still = true) (hrow : e.db.getJob j = some row) : e.Ending (e.cancel j + O) j := by
  refine ⟨⟨row, hrow⟩, ?_⟩
  have hid := getJob_jobId hrow
  have hframes : e.cancel j = if row.state.isTerminal = true then [] else
      if row.state = .running then [.cancelFlag row] else [.cancelRemove row] := by rw [cancel, hrow]
  rw [hframes] at hsound ⊢
  by_cases hend : row.state.isTerminal = true
  · rw [if_pos hend] at hsound ⊢
    exact .inl (.of_terminal hsound hrow hend (obeys_add (by simp) hO))
  · rw [if_neg hend]
    right
    split_ifs
    · exact ⟨.cancelFlag row, Multiset.mem_add.mpr (.inl (List.mem_singleton.mpr rfl)), hid⟩
    · exact ⟨.cancelRemove row, Multiset.mem_add.mpr (.inl (List.mem_singleton.mpr rfl)), hid⟩

/-- The signal reaches the attempt whose row was just flagged. -/
theorem cancelSignal_ending {O : Multiset Frame} {row : Job} (hcells : e.Celled (.cancelSignal j ::ₘ O))
    (hO : ∀ g ∈ O, g.kind.still = true) (hrow : e.db.getJob j = some row)
    (hflag : row.cancelRequested = true ∧ row.state = .running) : (e.cancelSignal j).Doomed O j := by
  have hdb : (e.cancelSignal j).db = e.db ∧ (e.cancelSignal j).running = e.running := by
    unfold cancelSignal
    split <;> exact ⟨rfl, rfl⟩
  refine ⟨⟨row, by rw [hdb.1]; exact hrow, .inr ⟨hflag.1, by rw [hflag.2]; decide⟩⟩, fun x hx hj => .inl ?_,
    fun g hg => Frame.obeys_of_still (hO g hg)⟩
  have hold : e.Holds x := holds_of_running hdb.2 hx
  have hbound := hcells.bound x (.inl hold)
  obtain ⟨info, hlookup, htag⟩ := hold
  rw [hj] at hlookup
  have hcell : info.cell = x.cell := congrArg Tag.cell htag
  rw [cancelSignal, hlookup]
  dsimp only
  rw [reasonAt_setCell hbound, if_pos hcell]

/-- **A step of a cancellation goes on with it or has brought it about.** -/
theorem cancels_advance {row : Job} (hf : f.Cancels e j)
    (hsound : e.Sound (f ::ₘ O)) (hsound' : (e.advance c f).1.Sound (((e.advance c f).2 : Multiset Frame) + O))
    (hcells : e.Celled (f ::ₘ O)) (hO : ∀ g ∈ O, g.kind.still = true) (hrow : e.db.getJob j = some row) :
    (e.advance c f).1.Ending (((e.advance c f).2 : Multiset Frame) + O) j := by
  have hexists := exists_getJob_advance c f hrow
  have hproper := hsound.proper f (Multiset.mem_cons_self f O)
  cases f with
  | cancel jobId =>
      obtain rfl : jobId = j := hf
      exact cancel_ending hsound' hO hrow
  | cancelFlag job =>
      obtain rfl : job.jobId = j := hf
      change (e.cancelFlag job).1.Ending (((e.cancelFlag job).2 : Multiset Frame) + O) job.jobId
      rw [cancelFlag_eq hsound.reliable]
      refine ⟨⟨{ job with cancelRequested := true }.persisted, ?_⟩, .inr ⟨.cancelSignal job.jobId,
        Multiset.mem_add.mpr (.inl (List.mem_singleton.mpr rfl)), rfl, fun new hnew => ?_⟩⟩
      · rw [hsound.reliable.getJob_updateJob, if_pos rfl, hrow, Option.map_some]
      · rw [hsound.reliable.getJob_updateJob, if_pos rfl, hrow, Option.map_some, Option.some.injEq] at hnew
        rw [← hnew]
        exact ⟨rfl, hproper⟩
  | cancelRemove job =>
      exact ⟨hexists, .inr ⟨.cancelWrite job, Multiset.mem_add.mpr (.inl (List.mem_singleton.mpr rfl)), hf⟩⟩
  | cancelWrite job =>
      obtain rfl : job.jobId = j := hf
      change (e.cancelWrite job).1.Sound (((e.cancelWrite job).2 : Multiset Frame) + O) at hsound'
      change (e.cancelWrite job).1.Ending (((e.cancelWrite job).2 : Multiset Frame) + O) job.jobId
      rw [cancelWrite_eq hsound.reliable] at hsound' ⊢
      have hnew : (e.updateJob (e.cancelledRow job)).2.db.getJob job.jobId = some (e.cancelledRow job).persisted := by
        rw [hsound.reliable.getJob_updateJob, if_pos (show (e.cancelledRow job).jobId = job.jobId from rfl), hrow,
          Option.map_some]
      exact ⟨⟨_, hnew⟩, .inl (.of_terminal hsound' hnew rfl (obeys_add (obeys_tail _ _) hO))⟩
  | cancelSignal jobId =>
      obtain ⟨rfl, hflag⟩ := hf
      refine ⟨hexists, .inl ?_⟩
      have hdoomed := cancelSignal_ending hcells hO hrow (hflag row hrow)
      change (e.cancelSignal jobId).Doomed (0 + O) jobId
      rwa [zero_add]
  | _ => exact hf.elim

/-- **What is to be cancelled or being cancelled stays so.** -/
theorem Ending.advance (h : e.Ending (f ::ₘ O) j)
    (hsettled : e.Settled (f ::ₘ O)) (hcells : e.Celled (f ::ₘ O)) (hd : e.Distinct)
    (hO : ∀ g ∈ O, g.kind.still = true) :
    (e.advance c f).1.Ending (((e.advance c f).2 : Multiset Frame) + O) j := by
  obtain ⟨⟨row, hrow⟩, hdoomed | ⟨g, hg, hcancels⟩⟩ := h
  · exact ⟨exists_getJob_advance c f hrow, .inl (hdoomed.advance hsettled.books.sound hcells hd hO)⟩
  · rcases Multiset.mem_cons.mp hg with rfl | hg
    · exact cancels_advance hcancels hsettled.books.sound (hsettled.advance hO).books.sound hcells hO hrow
    · have hcancel := Frame.eq_cancel_of_still (hO g hg) hcancels
      exact ⟨exists_getJob_advance c f hrow, .inr ⟨g, Multiset.mem_add.mpr (.inr hg), by rw [hcancel]; rfl⟩⟩

end JobEngine

end DistributedJobEngine
