import DistributedJobEngine.EngineStops

/-! What a job can still end with once `cancel` has returned. No attempt of it begins any more. If it was not running,
or had an attempt left, it can only end as `CANCELLED`; a job on its last attempt can still end as `TIMED_OUT`, by the
report of a remote worker, or as `FAILED`, by the expiry of its lease. -/

namespace DistributedJobEngine

open LibPool LibTable

/-- The job was cancelled, or has not ended and is not on its last attempt. -/
def Job.Yields (job : Job) : Prop :=
  job.state = .cancelled ∨
    job.state.isTerminal = false ∧ (job.state = .running → job.attempt < job.retry.maxAttempts)

/-- The frame does not end the job `j` other than as `CANCELLED`. -/
def Frame.Yields (j : JobId) : Frame → Prop
  | finishTerminal job _ => job.jobId = j → job.state = .cancelled
  | _ => True

theorem Frame.yields_of_still {j : JobId} {f : Frame} (h : f.kind.still = true) : f.Yields j := by
  cases f <;> trivial

namespace JobEngine

variable {e e' : JobEngine} {j : JobId} {c : Choice} {f : Frame} {O : Multiset Frame}

/-! ### Steps -/

theorem spec_of_faithful {f : Frame} {job row : Job} (h : e.Faithful f) (hcopy : f.copy = some job)
    (hrow : e.db.getJob job.jobId = some row) : row.spec = job.spec := by
  have hspec := h job hcopy
  rwa [specs, hrow, Option.map_some, Option.some.injEq] at hspec

/-- A window is on a row that is still as the operation needs it. -/
theorem Sound.agrees {F : Multiset Frame} {f : Frame} {k : Window} {s : Stub} {row : Job} (h : e.Sound F) (hf : f ∈ F)
    (hmem : Due.window k j s ∈ f.dues) (hrow : e.db.getJob j = some row) : e.board.Agrees j k s row.stub := by
  have hstub : e.board.row j = some row.stub := by
    rw [board_row, hrow]
    rfl
  exact (h.safe.agrees (mem_duesIn.mpr ⟨f, hf, hmem⟩) hstub).2

/-- Whoever writes a row has a window on it. -/
theorem Writes.window {f : Frame} {row : Job} (h : e.Writes f row) : ∃ k s, Due.window k row.jobId s ∈ f.dues := by
  cases h with
  | flag job => exact ⟨.cancel, job.stub, Multiset.mem_singleton_self _⟩
  | cancel job => exact ⟨.cancel, job.stub, Multiset.mem_add.mpr (.inl (Multiset.mem_singleton_self _))⟩
  | drop job | start job => exact ⟨.start, job.stub, by simp [Frame.dues, cancelledRow, startedRow]⟩
  | retry | finish => exact ⟨.finish, row.stub.base, Multiset.mem_singleton_self _⟩
  | expire now job => exact ⟨.expire, job.stub, by simp [Frame.dues, (expiredRow_spec now job).1]⟩
  | release job => exact ⟨.release, job.stub, Multiset.mem_singleton_self _⟩
  | skip w job => exact ⟨.skip, job.stub, Multiset.mem_add.mpr (.inl (Multiset.mem_cons_self _ _))⟩

/-- A job with an attempt left is reassigned. -/
theorem expiredRow_of_lt {now : Int} {job : Job}
    (h : (expiredRow now job).attempt < (expiredRow now job).retry.maxAttempts) :
    (expiredRow now job).state = .queued := by
  unfold expiredRow at h ⊢
  dsimp only at h ⊢
  split_ifs at h ⊢ with hmax
  · exact absurd h (not_lt.mpr hmax)
  · rfl

/-- The row after a step that neither revives the job nor ends it in another way. -/
theorem Overseen.yields_advance {old row : Job}
    (h : e.Overseen (f ::ₘ O)) (hd : e.Distinct) (hobeys : f.Obeys e j) (hyields : f.Yields j)
    (hpending : f.kind = .skipWrite → old.state ≠ .pending) (hold : e.db.getJob j = some old) (hfair : old.Yields)
    (hrow : (e.advance c f).1.db.getJob j = some row) : row.Yields := by
  have hmem := Multiset.mem_cons_self f O
  have hsound := h.labelled.settled.books.sound
  have hattempt := h.labelled.settled.attempt_advance hobeys (h.agreed hd f hmem) hold hrow
  have hspec : row.spec = old.spec := by
    have hspecs := congrFun (specs_advance (c := c) (h.faithful f hmem)) j
    rwa [specs, specs, hrow, hold, Option.map_some, Option.map_some, Option.some.injEq] at hspecs
  have hretry : row.retry = old.retry := congrArg Spec.retry hspec
  rcases getJob_advance hrow with hsame | ⟨new, hnew, rfl, rfl, -⟩
  · rw [hold, Option.some.injEq] at hsame
    exact hsame ▸ hfair
  obtain ⟨k, s, hwin⟩ := hnew.window
  have hopen : old.state.isTerminal = false := (hsound.agrees hmem hwin hold).open
  have hlt : old.state = .running → new.persisted.attempt < new.persisted.retry.maxAttempts := by
    intro hrun
    rw [hattempt, hretry]
    rcases hfair with hcan | ⟨-, hleft⟩
    · rw [hcan] at hopen
      cases hopen
    · exact hleft hrun
  cases hnew with
  | flag job =>
      have hstate : job.state = .running := hsound.proper _ hmem
      have hstub := h.labelled.settled.stub_of_window .cancel job hmem (Multiset.mem_singleton_self _) (by simp) hold
      exact .inr ⟨by rw [Job.persisted_state, hstate]; rfl, fun _ => hlt ((congrArg Stub.state hstub).trans hstate)⟩
  | cancel job | drop job => exact .inl rfl
  | start job owner eligibleAt remote hflag =>
      rw [hobeys rfl] at hflag
      cases hflag
  | retry token =>
      have hstate : new.state = .retrying := hsound.proper _ hmem
      refine .inr ⟨by rw [Job.persisted_state, hstate]; rfl, fun hrun => ?_⟩
      rw [Job.persisted_state, hstate] at hrun
      cases hrun
  | finish token => exact .inl (hyields rfl)
  | expire now job =>
      have hrun : old.state = .running := by
        rw [(expiredRow_spec now job).1] at hold
        exact (hsound.agrees hmem (Multiset.mem_singleton_self _) hold).1
      have hstate := expiredRow_of_lt (hlt hrun)
      refine .inr ⟨by rw [Job.persisted_state, hstate]; rfl, fun hrun' => ?_⟩
      rw [Job.persisted_state, hstate] at hrun'
      cases hrun'
  | release job => exact absurd rfl hobeys
  | skip w job =>
      have hpend : old.state = .pending :=
        (hsound.agrees hmem (Multiset.mem_add.mpr (.inl (Multiset.mem_cons_self _ _))) hold).1
      exact absurd hpend (hpending rfl)

/-- The job `j` is on its way to be `CANCELLED`. -/
structure Yielding (e : JobEngine) (F : Multiset Frame) (j : JobId) : Prop where
  doomed : e.Doomed F j
  row : ∀ row, e.db.getJob j = some row → row.Yields
  frames : ∀ f ∈ F, f.Yields j

/-- The attempt that was to be cancelled ends as `CANCELLED` or is to be retried. -/
theorem Yielding.finishRecord {job row : Job} {info : RunningInfo} {outcome : Outcome} {token : UInt64}
    {O : Multiset Frame} (h : e.Yielding (.finishRecord job info outcome ::ₘ O) j)
    (hover : e.Overseen (.finishRecord job info outcome ::ₘ O)) (hd : e.Distinct)
    (hg : Frame.finishTerminal row token ∈ (e.finishRecord job info outcome).2) (hj : row.jobId = j) :
    row.state = .cancelled := by
  have hmem := Multiset.mem_cons_self (Frame.finishRecord job info outcome) O
  obtain ⟨row', hid, -, -, hstate, hleft⟩ := finishRecord_left hg
  rcases hleft with ⟨hleft, -⟩ | ⟨hleft, hretry⟩ <;> cases hleft
  obtain rfl : job.jobId = j := hid ▸ hj
  rw [hstate] at hretry ⊢
  rcases h.doomed.obeys _ hmem rfl with huser | ⟨-, htimeout⟩
  · rw [huser]
    rfl
  · -- a `TIMED_OUT` report overrode the reason; with an attempt left this is a retry
    obtain ⟨cur, hcur, -⟩ := h.doomed.row
    have hrun : cur.state = .running :=
      (hover.labelled.settled.books.sound.agrees hmem (Multiset.mem_singleton_self _) hcur).1
    have hattempt : cur.attempt = job.attempt := hover.agreed hd _ hmem cur hcur
    have hspec : cur.retry = job.retry := congrArg Spec.retry (spec_of_faithful (hover.faithful _ hmem) rfl hcur)
    have hlt : job.attempt < job.retry.maxAttempts := by
      rw [← hattempt, ← hspec]
      rcases h.row cur hcur with hcan | ⟨-, hlt⟩
      · rw [hrun] at hcan
        cases hcan
      · exact hlt hrun
    refine absurd ?_ hretry
    rw [htimeout]
    exact if_pos hlt

theorem Yielding.advance (h : e.Yielding (f ::ₘ O) j)
    (hover : e.Overseen (f ::ₘ O)) (hd : e.Distinct) (hO : ∀ g ∈ O, g.kind.still = true) :
    (e.advance c f).1.Yielding (((e.advance c f).2 : Multiset Frame) + O) j := by
  have hmem := Multiset.mem_cons_self f O
  refine ⟨h.doomed.advance hover.labelled.settled.books.sound hover.celled hd hO, fun row hrow => ?_, fun g hg => ?_⟩
  · obtain ⟨old, hold, hdying⟩ := h.doomed.row
    refine hover.yields_advance hd (h.doomed.obeys f hmem) (h.frames f hmem) (fun _ hpend => ?_) hold
      (h.row old hold) hrow
    rcases hdying with hend | ⟨-, hne⟩
    · rw [hpend] at hend
      cases hend
    · exact hne hpend
  · rcases Multiset.mem_add.mp hg with hg | hg
    · cases g with
      | finishTerminal row token =>
          have hnext := (advance_follows (e := e) c f).next _ hg
          cases f with
          | finishRecord job info outcome => exact h.finishRecord hover hd hg
          | _ => simp [Frame.kind, Kind.next, Kind.ending] at hnext
      | _ => trivial
    · exact Frame.yields_of_still (hO g hg)

theorem Yielding.spawn {f : Frame} {F : Multiset Frame} (h : e.Yielding F j) (hcall : Call f) :
    e.Yielding (f ::ₘ F) j := by
  refine ⟨h.doomed.spawn hcall, h.row, fun g hg => ?_⟩
  rcases Multiset.mem_cons.mp hg with rfl | hg
  · cases g <;> trivial
  · exact h.frames g hg

theorem Yielding.submits {F : Multiset Frame} (h : e.Yielding F j) (hF : ∀ g ∈ F, g.parks = true)
    (hsub : Submits e e') : e'.Yielding F j := by
  refine ⟨h.doomed.submits hF hsub, fun row hrow => ?_, h.frames⟩
  obtain ⟨old, hold, -⟩ := h.doomed.row
  rw [Submits.getJob hsub hold, Option.some.injEq] at hrow
  exact hrow ▸ h.row old hold

/-! ### The call of `cancel` -/

/-- A cancellation has one frame until it is done. -/
theorem eq_singleton_of_cancels {c : Choice} {f g : Frame} (hf : f.Cancels e j) (hg : g ∈ (e.advance c f).2)
    (hcancels : g.Cancels (e.advance c f).1 j) : (e.advance c f).2 = [g] := by
  cases f with
  | cancel jobId =>
      simp only [JobEngine.advance, cancel] at hg ⊢
      split at hg
      · cases hg
      · split_ifs at hg ⊢
        · cases hg
        · rw [List.mem_singleton.mp hg]
        · rw [List.mem_singleton.mp hg]
  | cancelFlag job =>
      simp only [JobEngine.advance, cancelFlag] at hg ⊢
      split at hg
      · cases hg
      · rw [List.mem_singleton.mp hg]
  | cancelRemove job => rw [List.mem_singleton.mp hg]; rfl
  | cancelWrite job =>
      simp only [JobEngine.advance, cancelWrite] at hg
      split at hg
      · cases hg
      · simp only [Frame.tail, List.mem_cons, List.not_mem_nil, or_false] at hg
        rcases hg with rfl | rfl | rfl | rfl <;> exact hcancels.elim
  | cancelSignal jobId => cases hg
  | _ => exact hf.elim

/-- What a call of `cancel` is in the course of: it is not done with the row yet, or the job yields. -/
def InCancel (e : JobEngine) (O : Multiset Frame) (j : JobId) (t : List Frame) : Prop :=
  e.Yielding ((t : Multiset Frame) + O) j ∨
    ∃ f, t = [f] ∧ f.Cancels e j ∧ ∃ row, e.db.getJob j = some row ∧ row.Yields

theorem inCancel_advance {row : Job} (hf : f.Cancels e j)
    (hover : e.Overseen (f ::ₘ O)) (hd : e.Distinct) (hO : ∀ g ∈ O, g.parks = true)
    (hrow : e.db.getJob j = some row) (hyields : row.Yields) :
    (e.advance c f).1.InCancel O j (e.advance c f).2 := by
  have hstill : ∀ g ∈ O, g.kind.still = true := fun g hg => Frame.still_of_parks (hO g hg)
  have hsettled := hover.labelled.settled
  have hending := cancels_advance (c := c) hf hsettled.books.sound (hsettled.advance hstill).books.sound
    hover.celled hstill hrow
  have hplain : f.Obeys e j ∧ f.Yields j ∧ f.kind ≠ .skipWrite := by
    cases f <;> first | exact hf.elim | exact ⟨trivial, trivial, by simp [Frame.kind]⟩
  have hnew : ∀ new, (e.advance c f).1.db.getJob j = some new → new.Yields := fun new hnew =>
    hover.yields_advance hd hplain.1 hplain.2.1 (fun hk => absurd hk hplain.2.2) hrow hyields hnew
  rcases hending.2 with hdoomed | ⟨g, hg, hcancels⟩
  · refine .inl ⟨hdoomed, hnew, fun g hg => ?_⟩
    rcases Multiset.mem_add.mp hg with hg | hg
    · have hnext := (advance_follows (e := e) c f).next g hg
      cases g with
      | finishTerminal => cases f <;> first | exact hf.elim | simp [Frame.kind, Kind.next, Kind.ending] at hnext
      | _ => trivial
    · exact Frame.yields_of_still (hstill g hg)
  · rcases Multiset.mem_add.mp hg with hg | hg
    · obtain ⟨new, hget⟩ := hending.1
      exact .inr ⟨g, eq_singleton_of_cancels hf hg hcancels, hcancels, new, hget, hnew new hget⟩
    · have hparks := hO g hg
      rw [Frame.eq_cancel_of_still (hstill g hg) hcancels] at hparks
      cases hparks

/-- The invariant of a call of `cancel` that runs alone, for a job whose row was `row`. -/
structure CancelTurn (O : Multiset Frame) (j : JobId) (row : Job) (e : JobEngine) (t : List Frame) : Prop where
  overseen : e.Overseen ((t : Multiset Frame) + O)
  still : ∀ g ∈ t.tail, g.kind.still = true
  ending : e.Distinct → e.Ending ((t : Multiset Frame) + O) j
  inCancel : e.Distinct → row.Yields → e.InCancel O j t

theorem CancelTurn.advance {O : Multiset Frame} {row : Job} {c : Choice} {f : Frame} {rest : List Frame}
    (h : CancelTurn O j row e (f :: rest)) (hO : ∀ g ∈ O, g.parks = true) :
    CancelTurn O j row (e.advance c f).1 ((e.advance c f).2 ++ rest) := by
  have hrest : ∀ g ∈ (rest : Multiset Frame) + O, g.kind.still = true := by
    intro g hg
    rcases Multiset.mem_add.mp hg with hg | hg
    · exact h.still g hg
    · exact Frame.still_of_parks (hO g hg)
  have hsplit : (((e.advance c f).2 ++ rest : List Frame) : Multiset Frame) + O =
      ((e.advance c f).2 : Multiset Frame) + ((rest : Multiset Frame) + O) := by
    rw [← Multiset.coe_add, add_assoc]
  obtain ⟨hover, hstill, hending, hin⟩ := h
  rw [← Multiset.cons_coe, Multiset.cons_add] at hover hending
  refine ⟨hsplit ▸ hover.advance hrest, System.forall_tail_append (advance_follows c f).tail hstill,
    fun hd => hsplit ▸ (hending hd.of_advance).advance hover.labelled.settled hover.celled hd.of_advance hrest,
    fun hd hyields => ?_⟩
  rcases hin hd.of_advance hyields with hyielding | ⟨g, hg, hcancels, cur, hcur, hcurYields⟩
  · rw [← Multiset.cons_coe, Multiset.cons_add] at hyielding
    left
    rw [hsplit]
    exact hyielding.advance hover hd.of_advance hrest
  · obtain ⟨rfl, rfl⟩ := List.cons.inj hg
    rw [List.append_nil]
    have hzero : (([] : List Frame) : Multiset Frame) + O = O := zero_add O
    rw [hzero] at hover
    exact inCancel_advance hcancels hover hd.of_advance hO hcur hcurYields

/-- Once `cancel` has returned, the job is to be cancelled. -/
theorem doomed_of_cancel {s : JobEngine} {O : Multiset Frame} {row : Job} {t : List Frame} (hover : e.Overseen O)
    (hO : ∀ g ∈ O, g.parks = true) (hrow : e.db.getJob j = some row)
    (hcancel : engineSystem.Alone e [.cancel j] s t) :
    s.Overseen ((t : Multiset Frame) + O) ∧ (s.Distinct → s.Doomed ((t : Multiset Frame) + O) j) ∧
      (s.Distinct → row.Yields → s.Yielding ((t : Multiset Frame) + O) j) := by
  have hmem : Frame.cancel j ∈ (([.cancel j] : List Frame) : Multiset Frame) + O :=
    Multiset.mem_add.mpr (.inl (List.mem_singleton.mpr rfl))
  have hturn : CancelTurn O j row s t :=
    hcancel.invariant_stack (J := CancelTurn O j row) (fun _ _ _ _ h => h.advance hO)
      ⟨hover.spawn hO rfl, fun g hg => (by cases hg), fun _ => ⟨⟨row, hrow⟩, .inr ⟨_, hmem, rfl⟩⟩,
        fun _ hyields => .inr ⟨_, rfl, rfl, row, hrow, hyields⟩⟩
  have hparks : ∀ g ∈ t, g.parks = true := by
    intro g hg
    rcases hcancel.parked_end with rfl | ⟨f, rfl, hf⟩
    · cases hg
    · rw [List.mem_singleton.mp hg]
      exact hf
  refine ⟨hturn.overseen, fun hd => (hturn.ending hd).doomed fun g hg => ?_, fun hd hyields => ?_⟩
  · rcases Multiset.mem_add.mp hg with hg | hg
    · exact hparks g hg
    · exact hO g hg
  · rcases hturn.inCancel hd hyields with hyielding | ⟨f, rfl, hcancels, -⟩
    · exact hyielding
    · have hf := hparks f (List.mem_singleton.mpr rfl)
      rw [Frame.eq_cancel_of_still (Frame.still_of_parks hf) hcancels] at hf
      cases hf

/-! ### Runs -/

section Runs

variable {cfg : EngineConfig} {types : List String} {world : World} {p p' : Pool JobEngine Frame}

theorem Yielding.serial (h : p.state.Yielding p.frames j) (hover : p.state.Overseen p.frames)
    (hp : engineSystem.AtRest p) (hrun : Serial p p') (hd : p'.state.Distinct) : p'.state.Yielding p'.frames j :=
  (serial_invariant
    (I := fun (e : JobEngine) F => e.Overseen F ∧ (e.Distinct → e.Yielding F j)) hrun hp
    (fun _ _ _ _ hO h => ⟨h.1.advance hO, fun hd => (h.2 hd.of_advance).advance h.1 hd.of_advance hO⟩)
    (fun _ _ _ hF hsub h => ⟨h.1.submits hF hsub, fun hd => (h.2 (hd.of_submits hsub)).submits hF hsub⟩)
    (fun _ _ _ hF hcall h => ⟨h.1.spawn hF hcall, fun hd => (h.2 hd).spawn hcall⟩) ⟨hover, fun _ => h⟩).2 hd

/-- **Cancellation.** Once `cancel` has returned for a job that had not ended, no attempt of it begins, and if it was
not on its last attempt then the only state it can end in is `CANCELLED`. -/
theorem cancel_wins {s : JobEngine} {t : List Frame} {row : Job} (hworld : ∀ n, world.fault n = false)
    (hrun : Serial ⟨boot cfg types world, []⟩ p) (hrow : p.state.db.getJob j = some row)
    (hopen : row.state.isTerminal = false) (hcancel : engineSystem.Alone p.state [.cancel j] s t)
    (hnext : Serial ⟨s, p.threads ++ [t]⟩ p') (hd : p'.state.Distinct) :
    Quiet s p'.state j ∧ ((row.state = .running → row.attempt < row.retry.maxAttempts) →
      ∀ last, p'.state.db.getJob j = some last → last.state.isTerminal = true → last.state = .cancelled) := by
  have hrest := System.Turns.atRest hrun atRest_boot
  have hover := (boot_overseen hworld).serial (p := ⟨boot cfg types world, []⟩) atRest_boot hrun
  have hturn : engineSystem.Turn Submits Call p ⟨s, p.threads ++ [t]⟩ :=
    .call (show Call (.cancel j) from rfl) hcancel
  have hrest' := hturn.atRest hrest
  obtain ⟨hover', hdoomed, hyielding⟩ := doomed_of_cancel hover (fun g hg => hrest.parks hg) hrow hcancel
  rw [← Pool.frames_concat s p.state] at hover' hdoomed hyielding
  have hds : s.Distinct := hd.of_serial hrest' hnext
  refine ⟨((hdoomed hds).serial hover' hrest' hnext hd).2, fun hleft last hlast hend => ?_⟩
  rcases ((hyielding hds (.inr ⟨hopen, hleft⟩)).serial hover' hrest' hnext hd).row last hlast with hcan | ⟨hno, -⟩
  · exact hcan
  · rw [hno] at hend
    cases hend

/-- A job that is leased to a remote worker, as its attempt `1` of `n`. -/
def leased (n : Int) : List (System.Play JobEngine Frame Choice) :=
  [.env fun e => (e.submit { type := "t", retry := { maxAttempts := n, backoffBaseMs := 0 } }).2,
    .call (.registerWorker "r" 1) {},
    .call (.claim "k_4" 1) {}]

/-- What the worker reports when its cancel flag was set. -/
def flagged : Completion := ⟨"k_4", "j_0", 1, 1, "TIMED_OUT", .null, ""⟩

theorem leased_playable (n : Int) : ∀ a ∈ leased n, System.Playable Submits Call a := by
  simp only [leased, List.forall_mem_cons, System.Playable, Call, Frame.isCall, true_and]
  exact ⟨fun e => .job _ rfl rfl, by simp⟩

set_option maxRecDepth 8000 in
/-- With an attempt left the report leads to a retry, which is then cancelled. -/
theorem cancel_wins_retry : ∃ p s t p' row last, Serial ⟨boot {} ["t"] {}, []⟩ p ∧
    engineSystem.Alone p.state [.cancel "j_0"] s t ∧ Serial ⟨s, p.threads ++ [t]⟩ p' ∧ p'.state.Distinct ∧
      p.state.db.getJob "j_0" = some row ∧ row.state = .running ∧ p'.state.db.getJob "j_0" = some last ∧
        last.state = .cancelled ∧ Quiet s p'.state "j_0" := by
  have hplay : ((engineSystem.plays 40 ⟨boot {} ["t"] {}, []⟩ (leased 2)).bind fun p =>
      (engineSystem.alone {} 40 p.state [.cancel "j_0"]).bind fun r =>
        (engineSystem.plays 40 ⟨r.1, p.threads ++ [r.2]⟩
          [.call (.complete flagged) {}, .call (.workerPop "w") {}]).map fun p' =>
          ((p.state.db.getJob "j_0").map fun row => (row.state, row.attempt, row.retry.maxAttempts),
            decide p'.state.issuedReceipts.Nodup,
            (p'.state.db.getJob "j_0").map (·.state))) =
      some (some (.running, 1, 2), true, some .cancelled) := by
    decide +kernel
  obtain ⟨p, s, t, p', hrun, hcancel, hnext, hview⟩ := System.exists_turns_around (leased_playable 2)
    (by simp [System.Playable, Call, Frame.isCall]) hplay
  simp only [Prod.mk.injEq, decide_eq_true_eq] at hview
  obtain ⟨hrow, hnodup, hlast⟩ := hview
  obtain ⟨row, hget, hcols⟩ := Option.map_eq_some_iff.mp hrow
  obtain ⟨last, hgetLast, hstate⟩ := Option.map_eq_some_iff.mp hlast
  obtain ⟨hrunning, hattempt, hmax⟩ : row.state = .running ∧ row.attempt = 1 ∧ row.retry.maxAttempts = 2 := by
    simpa using hcols
  have hd := distinct_of_nodup hnodup
  have hwins := cancel_wins (fun _ => rfl) hrun hget (by rw [hrunning]; rfl) hcancel hnext hd
  exact ⟨p, s, t, p', row, last, hrun, hcancel, hnext, hd, hget, hrunning, hgetLast,
    hwins.2 (fun _ => by rw [hattempt, hmax]; decide) last hgetLast (by rw [hstate]; rfl), hwins.1⟩

set_option maxRecDepth 8000 in
/-- On the last attempt the report of the worker wins over the client. -/
theorem cancel_lost : ∃ p s t p' row last, Serial ⟨boot {} ["t"] {}, []⟩ p ∧
    p.state.db.getJob "j_0" = some row ∧ row.state = .running ∧
      engineSystem.Alone p.state [.cancel "j_0"] s t ∧ Serial ⟨s, p.threads ++ [t]⟩ p' ∧ p'.state.Distinct ∧
        p'.state.db.getJob "j_0" = some last ∧ last.state = .timedOut := by
  have hplay : ((engineSystem.plays 40 ⟨boot {} ["t"] {}, []⟩ (leased 1)).bind fun p =>
      (engineSystem.alone {} 40 p.state [.cancel "j_0"]).bind fun r =>
        (engineSystem.plays 40 ⟨r.1, p.threads ++ [r.2]⟩ [.call (.complete flagged) {}]).map fun p' =>
          ((p.state.db.getJob "j_0").map (·.state),
            decide p'.state.issuedReceipts.Nodup,
            (p'.state.db.getJob "j_0").map (·.state))) = some (some .running, true, some .timedOut) := by
    decide +kernel
  obtain ⟨p, s, t, p', hrun, hcancel, hnext, hview⟩ := System.exists_turns_around (leased_playable 1)
    (by simp [System.Playable, Call, Frame.isCall]) hplay
  simp only [Prod.mk.injEq, decide_eq_true_eq] at hview
  obtain ⟨hrow, hnodup, hlast⟩ := hview
  obtain ⟨row, hget, hstate⟩ := Option.map_eq_some_iff.mp hrow
  obtain ⟨last, hgetLast, hend⟩ := Option.map_eq_some_iff.mp hlast
  exact ⟨p, s, t, p', row, last, hrun, hget, hstate, hcancel, hnext, distinct_of_nodup hnodup, hgetLast, hend⟩

end Runs

end JobEngine

end DistributedJobEngine
