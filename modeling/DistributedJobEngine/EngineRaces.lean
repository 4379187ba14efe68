import DistributedJobEngine.EngineMachine

/-! Runs in which no row becomes terminal while another thread is between its read of that row and its write
of it. In such runs terminal states are absorbing and every job is accounted for once. The source does not
keep to this: some of its reads and writes of a row are not under one lock. -/

namespace DistributedJobEngine

open LibPool Due Window

namespace JobEngine

variable {e e' : JobEngine} {c : Choice} {f : Frame} {O : Multiset Frame}

/-- The row of `j` is in a terminal state. -/
def Terminal (e : JobEngine) (j : JobId) : Prop := ∃ job, e.db.getJob j = some job ∧ job.state.isTerminal = true

theorem terminal_iff {j : JobId} : e.Terminal j ↔ e.board.Ended j := by
  constructor
  · rintro ⟨job, hget, hend⟩
    exact ⟨job.stub, by rw [board_row, hget]; rfl, hend⟩
  · rintro ⟨r, hrow, hend⟩
    rw [board_row, Option.map_eq_some_iff] at hrow
    obtain ⟨job, hget, rfl⟩ := hrow
    exact ⟨job, hget, hend⟩

/-- The step of `f` makes no row terminal that another frame has read and is about to write back. -/
def RaceFree (e : JobEngine) (c : Choice) (f : Frame) (O : Multiset Frame) : Prop :=
  ∀ j, ¬ e.Terminal j → (e.advance c f).1.Terminal j → ∀ g ∈ O, g.overwrites ≠ some j

theorem raceFree_of_overwrites (e : JobEngine) (c : Choice) (f : Frame) (O : List Frame)
    (h : O.all (·.overwrites.isNone) = true) : e.RaceFree c f O := by
  intro j _ _ g hg hj
  have hnone := List.all_eq_true.mp h g hg
  rw [hj] at hnone
  cases hnone

/-- The invariant of the engine and of all frames together. -/
structure Sound (e : JobEngine) (F : Multiset Frame) : Prop where
  safe : e.board.Safe (duesIn F)
  proper : ∀ f ∈ F, f.Proper
  reliable : e.Reliable
  queue : e.queue.Consistent
  holders : F.countP (·.holdsRun) ≤ 1

theorem onRow_of_overwrites {j : JobId} {O : Multiset Frame} (h : ∀ g ∈ O, g.overwrites ≠ some j) {x : Due}
    (hx : x ∈ duesIn O) : x.onRow j = false := by
  obtain ⟨g, hg, hxg⟩ := mem_duesIn.mp hx
  rcases g.dues_window with hnone | ⟨k, i, s, rest, hover, -, hdues, hrest⟩
  · exact onRow_of_not_isWindow (hnone x hxg) j
  · rw [hdues, Multiset.mem_add, Multiset.mem_singleton] at hxg
    rcases hxg with rfl | hxr
    · simp only [Due.onRow, decide_eq_false_iff_not]
      rintro rfl
      exact h g hg hover
    · exact onRow_of_not_isWindow (hrest x hxr) j

/-- A frame has at most one window. -/
theorem rest_of_window {f : Frame} {d x : Multiset Due} (hd : f.dues = d + x)
    (hwin : ∃ k i r, Due.window k i r ∈ d) : ∀ y ∈ x, y.isWindow = false := by
  obtain ⟨k, i, r, hmem⟩ := hwin
  intro y hy
  rcases f.dues_window with hnone | ⟨k', i', s', rest, -, -, hdues, hrest⟩
  · exact hnone y (by rw [hd]; exact Multiset.mem_add.mpr (.inr hy))
  · by_contra hw
    rw [Bool.not_eq_false] at hw
    -- two windows in `f.dues`, but only one besides `rest`
    have hcount : f.dues.countP (·.isWindow) ≤ 1 := by
      rw [hdues, Multiset.countP_add, countP_singleton, countP_eq_zero_of_forall hrest]
      rfl
    have h1 : 0 < d.countP (·.isWindow) := Multiset.countP_pos.mpr ⟨_, hmem, rfl⟩
    have h2 : 0 < x.countP (·.isWindow) := Multiset.countP_pos.mpr ⟨y, hy, hw⟩
    rw [hd, Multiset.countP_add] at hcount
    omega

/-- A move that makes a row terminal comes from a window. -/
theorem rest_of_ending {f : Frame} {d d' x : Multiset Due} {b : Board} {j : JobId} (hd : f.dues = d + x)
    (hmove : Move e.board d b d') (hopen : ¬ e.board.Ended j) (hend : b.Ended j) :
    ∀ y ∈ x, y.isWindow = false := by
  refine rest_of_window hd ?_
  rcases Board.row_of_move hmove with hsame | ⟨k, i, r, s, hwin, -⟩
  · obtain ⟨r, hrow, hterm⟩ := hend
    rw [hsame] at hrow
    exact absurd ⟨r, hrow, hterm⟩ hopen
  · exact ⟨k, i, r, hwin⟩

/-- One step in terms of the board: a move on some dues besides `x` and those of the other frames. -/
theorem Sound.step (h : e.Sound (f ::ₘ O)) :
    ∃ d d' x, f.dues = d + x ∧ duesOf (e.advance c f).2 = d' + x ∧ duesIn (f ::ₘ O) = d + (x + duesIn O) ∧
      duesIn (((e.advance c f).2 : Multiset Frame) + O) = d' + (x + duesIn O) ∧
        Move e.board d (e.advance c f).1.board d' := by
  obtain ⟨d, d', x, hd, hd', hmove⟩ :=
    advance_simulates h.reliable h.queue h.safe.graph.nodup (h.proper f (Multiset.mem_cons_self f O)) c
  refine ⟨d, d', x, hd, hd', ?_, ?_, hmove⟩
  · rw [duesIn_cons, hd, add_assoc]
  · rw [duesIn_add, duesIn_coe, hd', add_assoc]

/-- **One race-free step keeps the invariant.** -/
theorem Sound.advance (h : e.Sound (f ::ₘ O))
    (hfree : engineSystem.Free f O) (hrace : e.RaceFree c f O) :
    (e.advance c f).1.Sound (((e.advance c f).2 : Multiset Frame) + O) := by
  obtain ⟨d, d', x, hd, -, hbefore, hafter, hmove⟩ := h.step (c := c)
  have hstable := advance_stable h.queue c f
  have hholders := holders_advance (e := e) (c := c) hfree h.holders
  refine ⟨?_, ?_, ?_, hstable.kept.consistent, hholders⟩
  · have hsafe := h.safe
    rw [hbefore] at hsafe
    rw [hafter]
    refine hsafe.move hmove ?_ ?_
    · rw [← hafter]
      exact (countP_locked_duesIn _).trans hholders
    · intro j hopen hend y hy
      rcases Multiset.mem_add.mp hy with hy | hy
      · exact onRow_of_not_isWindow (rest_of_ending hd hmove hopen hend y hy) j
      · exact onRow_of_overwrites
          (hrace j (mt terminal_iff.mp hopen) (terminal_iff.mpr hend)) hy
  · intro g hg
    rcases Multiset.mem_add.mp hg with hg | hg
    · exact advance_proper c (h.proper f (Multiset.mem_cons_self f O)) g hg
    · exact h.proper g (Multiset.mem_cons_of_mem hg)
  · intro n
    rw [hstable.fault]
    exact h.reliable n

theorem submits_submitted {F : Multiset Frame} (h : e.Sound F) (hsub : Submits e e') : e.Submitted e' := by
  cases hsub with
  | job req hwf hdeps => exact submit_submitted h.reliable h.queue h.safe hwf hdeps
  | workflow name nodes edges => exact submitWorkflow_submitted h.reliable h.queue h.safe name nodes edges

theorem Sound.submits {F : Multiset Frame} (h : e.Sound F) (hsub : Submits e e') : e'.Sound F := by
  have hs := submits_submitted h hsub
  refine ⟨?_, h.proper, fun n => by rw [hs.fault]; exact h.reliable n, hs.kept.consistent, h.holders⟩
  rcases hs.board with ⟨hb, -⟩ | ⟨N, w, hadm⟩
  · rw [hb]
    exact h.safe
  · exact h.safe.admits hadm.admits

theorem Sound.spawn {f : Frame} {F : Multiset Frame} (h : e.Sound F) (hcall : f.isCall = true) :
    e.Sound (f ::ₘ F) := by
  have hdues : f.dues = 0 := by cases f <;> first | rfl | cases hcall
  have hproper : f.Proper := by cases f <;> trivial
  have hholds : f.holdsRun = false := by cases f <;> first | rfl | cases hcall
  refine ⟨?_, ?_, h.reliable, h.queue, ?_⟩
  · rw [duesIn_cons, hdues, zero_add]
    exact h.safe
  · intro g hg
    rcases Multiset.mem_cons.mp hg with rfl | hg
    · exact hproper
    · exact h.proper g hg
  · rw [Multiset.countP_cons, hholds]
    simpa using h.holders

/-! ### Runs from the start -/

/-- A fresh engine over an empty store. -/
def boot (cfg : EngineConfig) (types : List String) (world : World) : JobEngine := { cfg, types, world }

section Runs

variable {cfg : EngineConfig} {types : List String} {world : World} {p p' : Pool JobEngine Frame}

theorem boot_sound (hworld : ∀ n, world.fault n = false) : (boot cfg types world).Sound 0 where
  safe := Board.safe_empty
  proper f hf := by cases hf
  reliable := hworld
  queue := PriorityJobQueue.consistent_empty _
  holders := Nat.zero_le 1

/-- The calls a new thread can make. -/
def Call (f : Frame) : Prop := f.isCall = true

/-- Any interleaving of calls, at the granularity of store calls and blocks under a mutex. -/
abbrev Interleaved (Ok : JobEngine → Choice → Frame → Multiset Frame → Prop) :
    Pool JobEngine Frame → Pool JobEngine Frame → Prop :=
  engineSystem.Run Submits Call Ok

/-- No condition on the steps of a run. -/
def AnyStep (_ : JobEngine) (_ : Choice) (_ : Frame) (_ : Multiset Frame) : Prop := True

theorem anyStep (e : JobEngine) (c : Choice) (f : Frame) (O : List Frame) (_ : true = true) : AnyStep e c f O :=
  trivial

theorem Sound.run (h : p.state.Sound p.frames) (hrun : Interleaved RaceFree p p') : p'.state.Sound p'.frames :=
  hrun.invariant (fun _ _ _ _ hfree hrace h => h.advance hfree hrace) (fun _ _ _ hsub h => h.submits hsub)
    (fun _ _ _ hcall h => h.spawn hcall) h

/-- The state of the row of `j` is `s`. -/
def InState (e : JobEngine) (j : JobId) (s : JobState) : Prop := ∃ job, e.db.getJob j = some job ∧ job.state = s

theorem inState_iff {j : JobId} {s : JobState} : e.InState j s ↔ ∃ r, e.board.row j = some r ∧ r.state = s := by
  constructor
  · intro ⟨job, hget, hs⟩
    exact ⟨job.stub, by rw [board_row, hget]; rfl, hs⟩
  · intro ⟨r, hrow, hs⟩
    rw [board_row, Option.map_eq_some_iff] at hrow
    obtain ⟨job, hget, rfl⟩ := hrow
    exact ⟨job, hget, hs⟩

/-- A terminal row keeps its state over one race-free step. -/
theorem Sound.inState_advance {j : JobId} {s : JobState}
    (h : e.Sound (f ::ₘ O)) (hs : s.isTerminal = true) (hj : e.InState j s) :
    (e.advance c f).1.InState j s := by
  obtain ⟨d, d', x, -, -, hbefore, -, hmove⟩ := h.step (c := c)
  obtain ⟨r, hrow, rfl⟩ := inState_iff.mp hj
  have hsafe := h.safe
  rw [hbefore] at hsafe
  exact inState_iff.mpr ⟨r, hsafe.absorbing hmove hrow hs, rfl⟩

theorem Sound.inState_submits {F : Multiset Frame} {j : JobId} {s : JobState} (h : e.Sound F)
    (hsub : Submits e e') (hj : e.InState j s) : e'.InState j s := by
  obtain ⟨r, hrow, rfl⟩ := inState_iff.mp hj
  rw [inState_iff]
  rcases (submits_submitted h hsub).board with ⟨hb, -⟩ | ⟨N, w, hadm⟩
  · exact ⟨r, by rw [hb, hrow], rfl⟩
  · exact ⟨r, hadm.admits.row_of_some hrow, rfl⟩

/-- **Terminal states are absorbing in every run without such a race.** -/
theorem terminal_absorbing (hworld : ∀ n, world.fault n = false)
    (hreach : Interleaved RaceFree ⟨boot cfg types world, []⟩ p) (hrun : Interleaved RaceFree p p') {j : JobId}
    {s : JobState} (hs : s.isTerminal = true) (hj : p.state.InState j s) : p'.state.InState j s := by
  have hsound : p.state.Sound p.frames := (boot_sound hworld).run (p := ⟨boot cfg types world, []⟩) hreach
  have hinv : p'.state.Sound p'.frames ∧ p'.state.InState j s :=
    hrun.invariant (I := fun e F => e.Sound F ∧ e.InState j s)
      (fun _ _ _ _ hfree hrace h => ⟨h.1.advance hfree hrace, h.1.inState_advance hs h.2⟩)
      (fun _ _ _ hsub h => ⟨h.1.submits hsub, h.1.inState_submits hsub h.2⟩)
      (fun _ _ _ hcall h => ⟨h.1.spawn hcall, h.2⟩) ⟨hsound, hj⟩
  exact hinv.2

/-- One job is submitted, and an embedded worker runs it up to the fence of `finish_attempt`. -/
def runToFence (outcome : Outcome) : List (System.Act JobEngine Frame Choice) :=
  [.env fun e => (e.submit { type := "t" }).2, .spawn (.workerPop "w"), .run 0 {}, .run 0 {}, .run 0 {},
    .run 0 { outcome }, .run 0 {}]

theorem runToFence_allowed (outcome : Outcome) : ∀ a ∈ runToFence outcome, System.Allowed Submits Call a := by
  simp only [runToFence, List.forall_mem_cons, System.Allowed, Call, Frame.isCall, true_and]
  exact ⟨fun e => .job _ rfl rfl, by simp⟩

set_option maxRecDepth 8000 in
theorem terminal_absorbing_cancel : ∃ p p', Interleaved RaceFree ⟨boot {} ["t"] {}, []⟩ p ∧
    Interleaved RaceFree p p' ∧ p.state.InState "j_0" .succeeded ∧ p'.state.InState "j_0" .succeeded := by
  have hsched : ((engineSystem.execs (fun _ _ _ O => O.all (·.overwrites.isNone)) ⟨boot {} ["t"] {}, []⟩
      (runToFence { ok := true } ++ [.run 0 {}, .run 0 {}])).bind fun p₁ =>
        (engineSystem.execs (fun _ _ _ O => O.all (·.overwrites.isNone)) p₁ [.spawn (.cancel "j_0"),
          .run 1 {}]).map fun p₂ =>
          (((p₁.state.db.getJob "j_0").map (·.state)), p₂.threads.length)) = some (some .succeeded, 2) := by
    decide
  obtain ⟨p, p', hp, hp', hstate, -⟩ := System.exists_run_run raceFree_of_overwrites
    (List.forall_mem_append.mpr ⟨runToFence_allowed _, by simp [System.Allowed]⟩)
    (by simp [System.Allowed, Call, Frame.isCall]) hsched
  obtain ⟨job, hget, hs⟩ := Option.map_eq_some_iff.mp hstate
  exact ⟨p, p', hp, hp', ⟨job, hget, hs⟩,
    terminal_absorbing (fun _ => rfl) hp hp' rfl ⟨job, hget, hs⟩⟩

set_option maxRecDepth 8000 in
/-- `cancel` reads the row as `RUNNING` and waits to flag it; meanwhile `finish_attempt` writes `SUCCEEDED`
without `run_mutex_`; then `cancel` writes the whole row it read. -/
theorem terminal_overwritten : ∃ p p', Interleaved AnyStep ⟨boot {} ["t"] {}, []⟩ p ∧
    Interleaved AnyStep p p' ∧ p.state.InState "j_0" .succeeded ∧
    p'.state.InState "j_0" .running := by
  have hsched : ((engineSystem.execs (fun _ _ _ _ => true) ⟨boot {} ["t"] {}, []⟩
      (runToFence { ok := true } ++ [.spawn (.cancel "j_0"), .run 1 {}, .run 0 {}, .run 0 {}])).bind fun p₁ =>
        (engineSystem.execs (fun _ _ _ _ => true) p₁ [.run 1 {}]).map fun p₂ =>
          (((p₁.state.db.getJob "j_0").map (·.state)), (p₂.state.db.getJob "j_0").map (·.state))) =
            some (some .succeeded, some .running) := by
    decide
  obtain ⟨p, p', hp, hp', hstate, hstate'⟩ := System.exists_run_run anyStep
    (List.forall_mem_append.mpr ⟨runToFence_allowed _, by simp [System.Allowed, Call, Frame.isCall]⟩)
    (by simp [System.Allowed]) hsched
  obtain ⟨job, hget, hs⟩ := Option.map_eq_some_iff.mp hstate
  obtain ⟨job', hget', hs'⟩ := Option.map_eq_some_iff.mp hstate'
  exact ⟨p, p', hp, hp', ⟨job, hget, hs⟩, ⟨job', hget', hs'⟩⟩

/-! ### Accounting -/

/-- How often a slot, a callback, a metric and a unit of the workflow were given for the end of a job. -/
@[ext] structure Payments where
  slots : ℕ
  callbacks : ℕ
  metrics : ℕ
  units : ℕ
  deriving DecidableEq

instance : Add Payments where
  add x y := ⟨x.slots + y.slots, x.callbacks + y.callbacks, x.metrics + y.metrics, x.units + y.units⟩

def paid (e : JobEngine) (j : JobId) : Payments where
  slots := e.ledger.count (.slot j)
  callbacks := e.ledger.count (.callback j)
  metrics := e.ledger.count (.metric j)
  units := e.ledger.count (.unit j)

/-- What the frames still have to give. -/
def owed (F : Multiset Frame) (j : JobId) : Payments where
  slots := (duesIn F).count (.slot j)
  callbacks := (duesIn F).count (.callback j)
  metrics := (duesIn F).count (.metric j)
  units := (duesIn F).countP (·.unitOf j)

/-- What the end of `j` asks for: nothing before it, then one of each, and no unit for a single job. -/
def due (e : JobEngine) (j : JobId) : Payments :=
  match e.db.getJob j with
  | some job => if job.state.isTerminal then ⟨1, 1, 1, if job.workflowId = "" then 0 else 1⟩ else ⟨0, 0, 0, 0⟩
  | none => ⟨0, 0, 0, 0⟩

/-- The invariant with the accounts. -/
structure Books (e : JobEngine) (F : Multiset Frame) : Prop where
  sound : e.Sound F
  accounted : e.board.Accounted (duesIn F)
  filed : e.board.Filed
  submitted : e.metrics.jobsSubmitted = e.board.ids.card

theorem boot_books (hworld : ∀ n, world.fault n = false) : (boot cfg types world).Books 0 :=
  ⟨boot_sound hworld, Board.accounted_empty, Board.filed_empty, rfl⟩

theorem Books.advance (h : e.Books (f ::ₘ O))
    (hfree : engineSystem.Free f O) (hrace : e.RaceFree c f O) :
    (e.advance c f).1.Books (((e.advance c f).2 : Multiset Frame) + O) := by
  obtain ⟨d, d', x, -, -, hbefore, hafter, hmove⟩ := h.sound.step (c := c)
  have hsafe := h.sound.safe
  have hacc := h.accounted
  rw [hbefore] at hsafe hacc
  refine ⟨h.sound.advance hfree hrace, ?_, h.filed.move hsafe hmove, ?_⟩
  · rw [hafter]
    exact hacc.move hsafe hmove
  · rw [(advance_stable h.sound.queue c f).submitted, h.submitted, Board.ids_of_move hmove]

theorem Books.submits {F : Multiset Frame} (h : e.Books F) (hsub : Submits e e') : e'.Books F := by
  rcases (submits_submitted h.sound hsub).board with ⟨hb, hcount, -⟩ | ⟨N, w, hadm⟩
  · exact ⟨h.sound.submits hsub, hb ▸ h.accounted, hb ▸ h.filed, by rw [hcount, h.submitted, hb]⟩
  · refine ⟨h.sound.submits hsub, h.accounted.admits hadm.admits h.sound.safe.graph h.filed,
      h.filed.admits hadm.admits, ?_⟩
    rw [hadm.submitted, h.submitted, hadm.admits.ids,
      Finset.card_union_of_disjoint (hadm.admits.disjoint_ids h.sound.safe.graph)]

theorem Books.spawn {f : Frame} {F : Multiset Frame} (h : e.Books F) (hcall : Call f) : e.Books (f ::ₘ F) := by
  have hdues : f.dues = 0 := by cases f <;> first | rfl | cases hcall
  refine ⟨h.sound.spawn hcall, ?_, h.filed, h.submitted⟩
  rw [duesIn_cons, hdues, zero_add]
  exact h.accounted

theorem Books.run (h : p.state.Books p.frames) (hrun : Interleaved RaceFree p p') : p'.state.Books p'.frames :=
  hrun.invariant (fun _ _ _ _ hfree hrace h => h.advance hfree hrace) (fun _ _ _ hsub h => h.submits hsub)
    (fun _ _ _ hcall h => h.spawn hcall) h

theorem count_receipts {α : Type} [DecidableEq α] {f : Receipt → Option α} {a : α} {r : Receipt}
    (h : ∀ r', f r' = some a ↔ r' = r) : (e.receipts f).count a = e.ledger.count r := by
  rw [receipts, Multiset.coe_count, List.count_filterMap, List.count]
  exact List.countP_congr fun r' _ => by simp [h r']

/-- What was paid for a job and what is still owed is what its end asks for. -/
theorem Books.paid_add_owed {F : Multiset Frame} (h : e.Books F) (j : JobId) :
    e.paid j + owed F j = e.due j := by
  have hend : e.due j = ⟨(e.board.ended j).toNat, (e.board.ended j).toNat, (e.board.ended j).toNat,
      (e.board.ended j && decide (e.board.workflow j ≠ "")).toNat⟩ := by
    cases hget : e.db.getJob j with
    | none => simp [due, Board.ended, board_row, hget]
    | some job =>
        have hrow : e.board.row j = some job.stub := by
          rw [board_row, hget]
          rfl
        rw [Board.ended_of_row hrow, Board.workflow_of_row hrow]
        cases hs : job.state.isTerminal <;> by_cases hw : job.workflowId = "" <;>
          simp [due, hget, Job.stub, hs, hw]
  have hslot := h.accounted.slot j
  have hcallback := h.accounted.callback j
  have hmetric := h.accounted.metric j
  have hunit := h.accounted.unit j
  simp only [board] at hslot hcallback hmetric hunit
  rw [count_receipts (r := .slot j) (by intro r; cases r <;> simp [Receipt.slotOf])] at hslot
  rw [count_receipts (r := .callback j) (by intro r; cases r <;> simp [Receipt.callbackOf])] at hcallback
  rw [count_receipts (r := .metric j) (by intro r; cases r <;> simp [Receipt.metricOf])] at hmetric
  rw [count_receipts (r := .unit j) (by intro r; cases r <;> simp [Receipt.unitOf])] at hunit
  rw [hend]
  exact Payments.ext hslot hcallback hmetric hunit

/-- A frame that is about to release a slot finds one. -/
theorem Books.outstanding_pos {F : Multiset Frame} (h : e.Books F) {j : JobId} {token : Option UInt64}
    (hf : Frame.slot j token ∈ F) : 0 < e.outstanding := by
  obtain ⟨O, rfl⟩ := Multiset.exists_cons_of_mem hf
  have hacc := h.accounted
  rw [duesIn_cons] at hacc
  exact (hacc.paySlot h.sound.safe.graph).1

/-- `wf_remaining_` is the number of nodes for which no unit was subtracted. -/
theorem Books.remaining {F : Multiset Frame} (h : e.Books F) {w : WorkflowId} (hw : w ≠ "") :
    (e.wfRemaining.lookup w).getD 0 = ((e.board.nodes w).card : Int) - ∑ j ∈ e.board.nodes w, (e.paid j).units := by
  have hused : ∑ j ∈ e.board.nodes w, (e.paid j).units = e.board.used w := by
    rw [Board.used, Multiset.countP_eq_card_filter, ← Multiset.sum_count_eq_card]
    · refine Finset.sum_congr rfl fun j hj => ?_
      rw [Multiset.count_filter, if_pos (Finset.mem_filter.mp hj).2]
      exact (count_receipts (by intro r; cases r <;> simp [Receipt.unitOf])).symm
    · intro j hj
      obtain ⟨hmem, hwf⟩ := Multiset.mem_filter.mp hj
      exact Finset.mem_filter.mpr ⟨h.sound.safe.graph.mem_ids_of_ended (h.accounted.ended_of_unit hmem), hwf⟩
  have hrem : e.wfRemaining.lookup w = _ := h.accounted.remaining w hw
  rw [hrem, hused]
  split_ifs with hcard
  · simp [hcard]
  · rfl

/-- **Every job is accounted for once in every run without such a race.** -/
theorem accounted_once (hworld : ∀ n, world.fault n = false)
    (hrun : Interleaved RaceFree ⟨boot cfg types world, []⟩ p) :
    (∀ j, p.state.paid j + owed p.frames j = p.state.due j) ∧
    (∀ w, w ≠ "" → (p.state.wfRemaining.lookup w).getD 0 =
      ((p.state.board.nodes w).card : Int) - ∑ j ∈ p.state.board.nodes w, (p.state.paid j).units) ∧
    (∀ j token, Frame.slot j token ∈ p.frames → 0 < p.state.outstanding) ∧
    (p.frames = 0 → p.state.metrics.jobsSubmitted = p.state.outstanding + p.state.metrics.terminal) := by
  have hbooks : p.state.Books p.frames := (boot_books hworld).run (p := ⟨boot cfg types world, []⟩) hrun
  refine ⟨hbooks.paid_add_owed, fun w hw => hbooks.remaining hw, fun j token => hbooks.outstanding_pos,
    fun hdone => ?_⟩
  have hacc := hbooks.accounted
  rw [hdone] at hacc
  -- with nothing owed, slots and metrics were both given once for each job that ended
  have hsame : p.state.board.slots = p.state.board.counted := by
    ext j
    have h1 := hacc.slot j
    have h2 := hacc.metric j
    simp only [duesIn, Multiset.map_zero, Multiset.sum_zero, Multiset.count_zero, add_zero] at h1 h2
    rw [h1, h2]
  have hout := hacc.outstanding
  rw [hsame, ← hacc.tally] at hout
  rw [hbooks.submitted]
  exact hout.symm

/-- A node with two parents and a worker for each of them: the workers take turns of these lengths, and both
parents fail. -/
def diamond (a b c d : ℕ) : List (System.Act JobEngine Frame Choice) :=
  [.env fun e => (e.submitWorkflow "wf" [⟨"a", { type := "t" }⟩, ⟨"b", { type := "t" }⟩, ⟨"c", { type := "t" }⟩]
    [("a", "c"), ("b", "c")]).2, .spawn (.workerPop "w"), .spawn (.workerPop "v")] ++
  (List.replicate a (.run 0 {}) ++ List.replicate b (.run 1 {}) ++ List.replicate c (.run 0 {}) ++
    List.replicate d (.run 1 {}))

theorem diamond_allowed (a b c d : ℕ) : ∀ act ∈ diamond a b c d, System.Allowed Submits Call act := by
  simp only [diamond, List.forall_mem_append, List.forall_mem_cons, System.Allowed, Call, Frame.isCall, true_and]
  exact ⟨⟨fun e => .workflow _ _ _, by simp⟩, by simp⟩

set_option maxRecDepth 8000 in
/-- Both parents are started; then the first fails and skips the child, then the second. -/
theorem accounted_once_diamond : ∃ p, Interleaved RaceFree ⟨boot {} ["t"] {}, []⟩ p ∧ p.frames = 0 ∧
    p.state.due "j_3" = ⟨1, 1, 1, 1⟩ ∧ p.state.paid "j_3" + owed p.frames "j_3" = p.state.due "j_3" ∧
    p.state.metrics.jobsSubmitted = 3 ∧
    p.state.metrics.jobsSubmitted = p.state.outstanding + p.state.metrics.terminal := by
  have hsched : (engineSystem.execs (fun _ _ _ O => O.all (·.overwrites.isNone)) ⟨boot {} ["t"] {}, []⟩
      (diamond 3 3 18 15)).map
        (fun p => (p.threads.flatten.length, p.state.due "j_3", p.state.metrics.jobsSubmitted)) =
      some (0, ⟨1, 1, 1, 1⟩, 3) := by
    decide
  obtain ⟨p, hp, hview⟩ := System.exists_run raceFree_of_overwrites (diamond_allowed _ _ _ _) hsched
  simp only [Prod.mk.injEq] at hview
  obtain ⟨hlen, hdue, hsub⟩ := hview
  have hframes : p.frames = 0 := by
    rw [Pool.frames, List.length_eq_zero_iff.mp hlen]
    rfl
  have h := accounted_once (fun _ => rfl) hp
  exact ⟨p, hp, hframes, hdue, h.1 "j_3", hsub, h.2.2.2 hframes⟩

set_option maxRecDepth 8000 in
/-- Both walks read the common child as `PENDING`: it is skipped twice, and `outstanding_` wraps around. -/
theorem accounted_twice : ∃ p, Interleaved AnyStep ⟨boot {} ["t"] {}, []⟩ p ∧ p.frames = 0 ∧
    p.state.due "j_3" = ⟨1, 1, 1, 1⟩ ∧ p.state.paid "j_3" = ⟨2, 2, 2, 2⟩ ∧
    p.state.outstanding = 2 ^ 64 - 1 ∧ p.state.metrics.jobsSubmitted = 3 ∧ p.state.metrics.terminal = 4 := by
  have hsched : (engineSystem.execs (fun _ _ _ _ => true) ⟨boot {} ["t"] {}, []⟩ (diamond 11 11 10 12)).map
        (fun p => (p.threads.flatten.length, p.state.due "j_3", p.state.paid "j_3", p.state.outstanding,
          p.state.metrics.jobsSubmitted, p.state.metrics.terminal)) =
      some (0, ⟨1, 1, 1, 1⟩, ⟨2, 2, 2, 2⟩, 2 ^ 64 - 1, 3, 4) := by
    decide
  obtain ⟨p, hp, hview⟩ := System.exists_run anyStep (diamond_allowed _ _ _ _) hsched
  simp only [Prod.mk.injEq] at hview
  obtain ⟨hlen, hdue, hpaid, hout, hsub, hterm⟩ := hview
  refine ⟨p, hp, ?_, hdue, hpaid, hout, hsub, hterm⟩
  rw [Pool.frames, List.length_eq_zero_iff.mp hlen]
  rfl

end Runs

end JobEngine

end DistributedJobEngine
