import DistributedJobEngine.EngineMoves

/-! The frames at the end of a job make one move each: its accounting, the release of its children, the walk
over its descendants and the verdict on its workflow. With them every step of every frame is a move. -/

namespace DistributedJobEngine

open Due Window

namespace JobEngine

variable {e : JobEngine}

/-! ### Accounting -/

theorem terminal_countTerminal (m : Metrics) {s : JobState} (h : s.isTerminal = true ∧ s ≠ .skipped) :
    (m.countTerminal s).terminal = m.terminal + 1 := by
  obtain ⟨hend, hskip⟩ := h
  cases s with
  | succeeded | failed | timedOut | cancelled =>
      simp only [Metrics.countTerminal, Metrics.terminal]
      omega
  | skipped => exact absurd rfl hskip
  | _ => cases hend

theorem metric_simulates {job : Job} (hp : (Frame.metric job).Proper) :
    e.Simulates (.metric job)
      ({ e with metrics := e.metrics.countTerminal job.state }.record (.metric job.jobId), []) := by
  refine .of_move (d := ([job.jobId].map Due.metric : List Due)) rfl rfl ?_ .metric
  apply Board.ext
  case tally => exact terminal_countTerminal e.metrics hp
  all_goals first | rfl | exact receipts_append _ _ | exact (receipts_append _ _).trans (add_zero _)

theorem callback_simulates (job : Job) :
    e.Simulates (.callback job)
      ({ e with completions := e.completions ++ [job] }.record (.callback job.jobId), []) := by
  refine .of_move rfl rfl ?_ .callback
  apply Board.ext
  all_goals first | rfl | exact receipts_append _ _ | exact (receipts_append _ _).trans (add_zero _)

theorem slot_simulates (jobId : JobId) (token : Option UInt64) :
    e.Simulates (.slot jobId token) (e.slot jobId token, []) := by
  have hslot : (e.releaseSlot.record (.slot jobId)).board = { e.board with
      slots := e.board.slots + {jobId}
      outstanding := if e.board.outstanding = 0 then 2 ^ 64 - 1 else e.board.outstanding - 1 } := by
    apply Board.ext
    all_goals first | rfl | exact receipts_append _ _ | exact (receipts_append _ _).trans (add_zero _)
  refine .of_move rfl rfl ?_ .slot
  rw [← hslot]
  cases token with
  | none => rfl
  | some t => exact board_ledger_of_nil (e := e.releaseSlot.record (.slot jobId)) rfl rfl rfl rfl rfl

theorem onTerminal_simulates (job : Job) : e.Simulates (.onTerminal job) (e, onTerminal job) := by
  refine .idle rfl ?_
  by_cases hw : job.workflowId = ""
  · simp [onTerminal, Frame.dues, Frame.nodeDues, Job.stub, hw]
  by_cases hs : job.state = .succeeded
  · have hrest : onTerminal job = [.release job.jobId, .account job []] := by simp [onTerminal, hw, hs]
    have hdues : (Frame.onTerminal job).dues = {.unit job.jobId job.workflowId false, .unreleased job.jobId} := by
      simp [Frame.dues, Frame.nodeDues, Job.stub, hw, hs]
    rw [hrest, hdues, Multiset.insert_eq_cons, ← Multiset.singleton_add, add_comm]
    simp [Frame.dues, hs]
  · have hrest : onTerminal job = [.skip job] := by simp [onTerminal, hw, hs]
    have hdues : (Frame.onTerminal job).dues =
        {.unit job.jobId job.workflowId true, .expand job.jobId job.workflowId} := by
      simp [Frame.dues, Frame.nodeDues, Job.stub, hw, hs]
    rw [hrest, hdues, Multiset.insert_eq_cons, ← Multiset.singleton_add, add_comm]
    exact add_zero _

theorem enqueue_queue (job : Job) :
    (e.enqueue job).board = { e.board with
      live := (e.queue.push e.tick.nowMs job.jobId job.priority (e.readySteady job)).2.live } := by
  unfold enqueue
  dsimp only
  split_ifs <;> rfl

theorem enqueue_simulates (hq : e.queue.Consistent) (job : Job) (token : Option UInt64) :
    e.Simulates (.enqueue job token) (e.requeue job token, []) := by
  have hreceipt : (e.requeue job token).board = (e.enqueue job).board := by
    cases token with
    | none => rfl
    | some t => exact board_ledger_of_nil (e := e.enqueue job) rfl rfl rfl rfl rfl
  rcases (hq.push_live e.tick.nowMs job.jobId job.priority (e.readySteady job)).2 with ⟨-, hlive⟩ | ⟨-, hsame⟩
  · refine .of_move rfl rfl ?_ .push
    rw [hreceipt, enqueue_queue, hlive]
    rfl
  · refine .of_move rfl rfl ?_ .pushRefused
    rw [hreceipt, enqueue_queue, hsame]
    rfl

/-! ### Releasing the children -/

/-- A counter of `pending_deps_`; an absent one counts as zero. -/
def pendingOf (m : AList fun _ : JobId => Int) (c : JobId) : Int := (m.lookup c).getD 0

theorem releaseChild_eq (m : AList fun _ : JobId => Int) (ready : List JobId) (c : JobId) :
    (∀ i, pendingOf (releaseChild (m, ready) c).1 i =
        if i = c ∧ 0 < pendingOf m c then pendingOf m c - 1 else pendingOf m i) ∧
      (releaseChild (m, ready) c).2 = ready ++ if pendingOf m c = 1 then [c] else [] := by
  unfold releaseChild pendingOf
  cases hl : m.lookup c with
  | none => simp
  | some p =>
      by_cases hp : 0 < p
      · simp only [hp, if_true, Option.getD_some, and_true]
        refine ⟨fun i => ?_, ?_⟩
        · by_cases hi : i = c
          · subst hi
            simp
          · simp [hi, AList.lookup_insert_ne]
        · by_cases h1 : p = 1
          · simp [h1]
          · rw [if_neg h1, if_neg (by omega), List.append_nil]
      · have h1 : ¬ p = 1 := by omega
        simp [hp, h1]

theorem foldl_releaseChild {cs : List JobId} (hcs : cs.Nodup) (m : AList fun _ : JobId => Int)
    (ready : List JobId) :
    (∀ i, pendingOf (cs.foldl releaseChild (m, ready)).1 i =
        if i ∈ cs ∧ 0 < pendingOf m i then pendingOf m i - 1 else pendingOf m i) ∧
      (cs.foldl releaseChild (m, ready)).2 = ready ++ cs.filter fun c => pendingOf m c = 1 := by
  induction cs generalizing m ready with
  | nil => simp
  | cons c cs ih =>
      obtain ⟨hc, hcs⟩ := List.nodup_cons.mp hcs
      obtain ⟨hpend, hready⟩ := releaseChild_eq m ready c
      obtain ⟨hpend', hready'⟩ := ih hcs (releaseChild (m, ready) c).1 (releaseChild (m, ready) c).2
      have hsame : ∀ i, i ≠ c → pendingOf (releaseChild (m, ready) c).1 i = pendingOf m i := fun i hi => by
        rw [hpend, if_neg fun h => hi h.1]
      rw [List.foldl_cons]
      refine ⟨fun i => ?_, ?_⟩
      · rw [hpend']
        by_cases hi : i = c
        · subst hi
          rw [if_neg fun h => hc h.1, hpend]
          simp
        · rw [hsame i hi]
          simp [hi]
      · rw [hready', hready, List.append_assoc, List.filter_cons]
        congr 1
        have hfilter : (cs.filter fun i => pendingOf (releaseChild (m, ready) c).1 i = 1) =
            cs.filter fun i => pendingOf m i = 1 :=
          List.filter_congr fun i hi => by rw [hsame i fun h => hc (h ▸ hi)]
        rw [hfilter]
        by_cases h1 : pendingOf m c = 1 <;> simp [h1]

theorem duesOf_map {α : Type} (f : α → Frame) (g : α → Due) (h : ∀ a, (f a).dues = {g a}) (l : List α) :
    duesOf (l.map f) = (l.map g : List Due) := by
  induction l with
  | nil => rfl
  | cons a l ih =>
      rw [List.map_cons, duesOf_cons, ih, h, List.map_cons, ← Multiset.cons_coe, ← Multiset.singleton_add]

theorem release_simulates {parent : JobId} (hnodup : (e.board.children parent).Nodup) :
    e.Simulates (.release parent) (e.release parent) := by
  unfold release
  cases hl : e.children.lookup parent with
  | none =>
      have hnone : e.board.children parent = [] := by simp [board, hl]
      refine .of_move rfl ?_ ?_ (Move.countDown (b := e.board) (p := parent))
      · simp [Board.newlyReady, hnone]
      · apply Board.ext <;> try rfl
        funext c
        simp [Board.countedDown, hnone]
  | some cs =>
      have hcs : e.board.children parent = cs := by simp [board, hl]
      rw [hcs] at hnodup
      obtain ⟨hpend, hready⟩ := foldl_releaseChild hnodup e.pendingDeps []
      rw [List.nil_append] at hready
      refine .of_move rfl ?_ ?_ (Move.countDown (b := e.board) (p := parent))
      · dsimp only
        rw [duesOf_map Frame.releaseGet Due.ready (fun _ => rfl), hready, Board.newlyReady, hcs]
        rfl
      · apply Board.ext <;> try rfl
        funext c
        have hcount : e.board.countedDown parent c =
            if c ∈ cs ∧ 0 < e.board.pending c then e.board.pending c - 1 else e.board.pending c := by
          rw [← hcs]
          rfl
        exact (hpend c).trans hcount.symm

theorem releaseGet_simulates (child : JobId) : e.Simulates (.releaseGet child) (e, e.releaseGet child) := by
  unfold releaseGet
  cases hget : e.db.getJob child with
  | none =>
      refine .of_move rfl rfl rfl (.dropReady fun r hr => ?_)
      rw [board_row, hget] at hr
      cases hr
  | some job =>
      have hid := getJob_jobId hget
      subst hid
      have hrow := board_row_of_getJob hget
      by_cases hpend : job.state = .pending
      · simp only [hpend, if_true]
        exact .of_move rfl (add_zero _) rfl (.openRelease hrow hpend)
      · simp only [hpend, if_false]
        refine .of_move rfl rfl rfl (.dropReady fun r hr => ?_)
        rw [hrow, Option.some.injEq] at hr
        rw [← hr]
        exact hpend

theorem releaseWrite_simulates (hr : e.Reliable) (child : Job) :
    e.Simulates (.releaseWrite child) (e.releaseWrite child) := by
  refine .of_move rfl (add_zero _) (board_persist hr _) (.release (s := (e.releasedRow child).stub) ?_ rfl rfl)
  change (if e.wallMs < child.readyAtWallMs then JobState.scheduled else .queued) = .queued ∨
    (if e.wallMs < child.readyAtWallMs then JobState.scheduled else .queued) = .scheduled
  split_ifs
  · exact .inr rfl
  · exact .inl rfl

/-! ### Skipping the descendants -/

theorem skip_simulates {job : Job} (hp : (Frame.skip job).Proper) : e.Simulates (.skip job) (e, e.skip job) := by
  refine ⟨{.expand job.jobId job.workflowId},
    ((e.board.children job.jobId).map (Due.doomed · job.workflowId) : List Due),
    {.unit job.jobId job.workflowId true}, rfl, ?_, .expand⟩
  have hfailed : decide (job.state ≠ .succeeded) = true := decide_eq_true hp
  unfold skip
  cases hl : e.children.lookup job.jobId with
  | none =>
      have hcs : e.board.children job.jobId = [] := by simp [board, hl]
      simp [Frame.dues, hfailed, hcs]
  | some cs =>
      have hcs : e.board.children job.jobId = cs := by simp [board, hl]
      have hrev : ((cs.reverse.map (Due.doomed · job.workflowId) : List Due) : Multiset Due) =
          (cs.map (Due.doomed · job.workflowId) : List Due) := by
        rw [List.map_reverse]
        exact Multiset.coe_reverse _
      simp only [duesOf_cons, duesOf_nil, Frame.dues, SkipWalk.dues, hcs, hrev, skippedDues, List.map_nil,
        Multiset.coe_nil, add_zero]
      exact add_comm _ _

theorem duesOf_skipEnd {w : SkipWalk} (hp : (Frame.skipLoop w).Proper) :
    duesOf (if w.toSkip.isEmpty then [.account w.job []]
      else [.skipMetric w.toSkip, .account w.job (w.toSkip.map (·.jobId))]) =
      {Due.unit w.job.jobId w.job.workflowId true} + skippedDues (w.toSkip.map (·.jobId)) w.job.workflowId := by
  have hfailed : decide (w.job.state ≠ .succeeded) = true := decide_eq_true hp
  by_cases hempty : w.toSkip = []
  · simp [hempty, Frame.dues, hfailed, skippedDues]
  · rw [if_neg (by simpa using hempty)]
    simp only [duesOf_cons, duesOf_nil, Frame.dues, hfailed, skippedDues, List.map_cons, List.map_map,
      ← Multiset.cons_coe, ← Multiset.singleton_add, Function.comp_def]
    abel

/-- What the head of the walk adds to what the rest of it owes. -/
theorem dues_frontier (w : SkipWalk) (id : JobId) (frontier : List JobId) (h : w.frontier = id :: frontier) :
    w.dues = {Due.doomed id w.job.workflowId} + ({ w with frontier } : SkipWalk).dues := by
  simp only [SkipWalk.dues, h, List.map_cons, ← Multiset.cons_coe, ← Multiset.singleton_add]
  abel

theorem dues_seen (w : SkipWalk) (id : JobId) :
    ({ w with seen := id :: w.seen } : SkipWalk).dues = {Due.closed id} + w.dues := by
  simp only [SkipWalk.dues, List.map_cons, ← Multiset.cons_coe, ← Multiset.singleton_add]
  abel

theorem dues_closed {w : SkipWalk} {id : JobId} (h : id ∈ w.seen) :
    ∃ x, w.dues = {Due.closed id} + x := by
  have hmem : Due.closed id ∈ w.dues := by
    simp only [SkipWalk.dues, Multiset.mem_add]
    exact .inl (.inr (List.mem_map_of_mem h))
  obtain ⟨x, hx⟩ := Multiset.exists_cons_of_mem hmem
  exact ⟨x, by rw [hx, Multiset.singleton_add]⟩

theorem skipLoop_simulates {w : SkipWalk} (hp : (Frame.skipLoop w).Proper) :
    e.Simulates (.skipLoop w) (e, e.skipLoop w) := by
  unfold skipLoop
  cases hf : w.frontier with
  | nil =>
      refine ⟨(w.seen.map Due.closed : List Due), 0, _, ?_, (duesOf_skipEnd hp).trans (zero_add _).symm, .endSkip⟩
      simp only [Frame.dues, SkipWalk.dues, hf, List.map_nil, Multiset.coe_nil]
      abel
  | cons id frontier =>
      have hdues : (Frame.skipLoop w).dues = _ := dues_frontier w id frontier hf
      by_cases hseen : id ∈ w.seen
      · obtain ⟨x, hx⟩ := dues_closed (w := { w with frontier }) hseen
        refine ⟨{.doomed id w.job.workflowId, .closed id}, {.closed id}, x, ?_, ?_, .seenSkip⟩
        · rw [hdues, hx, ← add_assoc]
          rfl
        · simp only [hseen, if_true, duesOf_cons, duesOf_nil, Frame.dues, hx, add_zero]
      · simp only [hseen, if_false]
        cases hget : e.db.getJob id with
        | none =>
            refine ⟨{.doomed id w.job.workflowId}, {.closed id}, _, hdues, ?_, .missSkip ?_⟩
            · exact (add_zero _).trans (dues_seen { w with frontier } id)
            · rw [board_row, hget]
              rfl
        | some job =>
            have hid := getJob_jobId hget
            subst hid
            have hrow := board_row_of_getJob hget
            cases hend : job.state.isTerminal with
            | true =>
                simp only [hend, if_true]
                refine ⟨{.doomed job.jobId w.job.workflowId}, {.expand job.jobId w.job.workflowId, .closed job.jobId},
                  _, hdues, ?_, .passSkip hrow hend⟩
                simp only [duesOf_cons, duesOf_nil, Frame.dues, add_zero, Multiset.insert_eq_cons,
                  ← Multiset.singleton_add]
                rw [dues_seen { w with frontier } job.jobId, add_assoc]
            | false =>
                simp only [hend, Bool.false_eq_true, if_false]
                refine ⟨{.doomed job.jobId w.job.workflowId},
                  {.doomed job.jobId w.job.workflowId, .window .skip job.jobId job.stub, .closed job.jobId},
                  _, hdues, ?_, .openSkip hrow hend⟩
                simp only [duesOf_cons, duesOf_nil, Frame.dues, add_zero, Multiset.insert_eq_cons,
                  ← Multiset.singleton_add]
                rw [dues_seen { w with frontier } job.jobId]
                abel

theorem skipRemove_simulates (hq : e.queue.Consistent) (w : SkipWalk) (job : Job) :
    e.Simulates (.skipRemove w job) ({ e with queue := (e.queue.remove job.jobId).2 }, [.skipWrite w job]) := by
  refine ⟨{.window .skip job.jobId job.stub}, {.window .skip job.jobId job.stub} + 0,
    {.doomed job.jobId w.job.workflowId} + w.dues, ?_, ?_, ?_⟩
  · simp only [Frame.dues, Multiset.insert_eq_cons, ← Multiset.singleton_add, add_assoc]
  · simp only [duesOf_cons, duesOf_nil, Frame.dues, Multiset.insert_eq_cons, ← Multiset.singleton_add, add_assoc,
      add_zero]
  · have hb := board_queue (e := e) (hq.remove_live job.jobId).2
    rw [hb]
    exact .unqueue (k := .skip) (.inr rfl)

theorem skipWrite_simulates (hr : e.Reliable) (w : SkipWalk) (job : Job) :
    e.Simulates (.skipWrite w job) (e.skipWrite w job) := by
  have hb := board_persist hr (e.skippedRow job)
  refine ⟨{.window .skip job.jobId job.stub, .doomed job.jobId w.job.workflowId},
    {.metric job.jobId, .callback job.jobId, .slot job.jobId, .unit job.jobId w.job.workflowId true,
      .expand job.jobId w.job.workflowId}, w.dues, rfl, ?_, ?_⟩
  · have hid : (e.skippedRow job).jobId = job.jobId := rfl
    simp only [skipWrite, duesOf_cons, duesOf_nil, Frame.dues, SkipWalk.dues, skippedDues, List.map_append, hid,
      List.map_cons, List.map_nil, ← Multiset.coe_add, Multiset.coe_singleton, Multiset.insert_eq_cons,
      ← Multiset.singleton_add]
    abel
  · rw [skipWrite, hb]
    exact .skip (s := (e.skippedRow job).stub) rfl rfl

theorem skipChildren_simulates (w : SkipWalk) (jobId : JobId) :
    e.Simulates (.skipChildren w jobId) (e, e.skipChildren w jobId) := by
  refine ⟨{.expand jobId w.job.workflowId},
    ((e.board.children jobId).map (Due.doomed · w.job.workflowId) : List Due), w.dues, rfl, ?_, .expand⟩
  have hrev : (((e.board.children jobId).reverse.map (Due.doomed · w.job.workflowId) : List Due) : Multiset Due) =
      ((e.board.children jobId).map (Due.doomed · w.job.workflowId) : List Due) := by
    rw [List.map_reverse]
    exact Multiset.coe_reverse _
  rw [← hrev]
  simp only [skipChildren, duesOf_cons, duesOf_nil, Frame.dues, SkipWalk.dues, List.map_append,
    ← Multiset.coe_add, board]
  abel

theorem duesOf_skipped (jobs : List Job) :
    duesOf (jobs.flatMap fun j => [.callback j, .slot j.jobId none]) =
      (jobs.map fun j => Due.callback j.jobId : List Due) + (jobs.map fun j => Due.slot j.jobId : List Due) := by
  induction jobs with
  | nil => rfl
  | cons j jobs ih =>
      simp only [List.flatMap_cons, duesOf_append, ih, duesOf_cons, duesOf_nil, Frame.dues, List.map_cons,
        ← Multiset.cons_coe, ← Multiset.singleton_add]
      abel

theorem filterMap_metrics {α : Type} (f : Receipt → Option α) (jobs : List Job)
    (h : ∀ j, f (.metric j) = none) : (jobs.map fun j => Receipt.metric j.jobId).filterMap f = [] := by
  rw [List.filterMap_map]
  exact List.filterMap_eq_nil_iff.mpr fun j _ => h j.jobId

theorem skipMetric_simulates (jobs : List Job) : e.Simulates (.skipMetric jobs) (e.skipMetric jobs) := by
  refine ⟨((jobs.map (·.jobId)).map Due.metric : List Due), 0, _, ?_,
    (duesOf_skipped jobs).trans (zero_add _).symm, ?_⟩
  · simp only [Frame.dues, List.map_map, Function.comp_def, add_assoc]
  · have hids : (jobs.map fun j => Receipt.metric j.jobId).filterMap Receipt.metricOf = jobs.map (·.jobId) := by
      rw [List.filterMap_map]
      exact congrFun (List.filterMap_eq_map (f := fun j : Job => j.jobId)) jobs
    have hb : (e.skipMetric jobs).1.board = { e.board with
        counted := e.board.counted + (jobs.map (·.jobId) : List JobId)
        tally := e.board.tally + (jobs.map (·.jobId)).length } := by
      apply Board.ext
      case tally =>
        change _ + (e.metrics.jobsSkipped + jobs.length) = _ + (jobs.map (·.jobId)).length
        rw [List.length_map, ← add_assoc]
        rfl
      case counted =>
        refine (receipts_append _ _).trans ?_
        rw [hids]
        rfl
      all_goals first
        | rfl
        | refine (receipts_append _ _).trans ?_
          rw [filterMap_metrics _ _ fun _ => rfl]
          exact add_zero _
    rw [hb]
    exact .metric

/-! ### The verdict on a workflow -/

/-- `wf_failures_` after the nodes of `account` were counted. -/
def failuresAfter (e : JobEngine) (job : Job) (units : Int) : AList fun _ : WorkflowId => Int :=
  if job.state = .succeeded then e.wfFailures
  else e.wfFailures.insert job.workflowId ((e.wfFailures.lookup job.workflowId).getD 0 + units)

theorem failuresAfter_eq (job : Job) (n : ℕ) (w : WorkflowId) :
    ((e.failuresAfter job n).lookup w).getD 0 =
      e.board.addFailures job.workflowId (decide (job.state ≠ .succeeded)) n w := by
  unfold failuresAfter Board.addFailures
  by_cases hs : job.state = .succeeded
  · simp only [hs, if_true, ne_eq, not_true_eq_false, decide_false, Bool.false_eq_true, if_false]
    rfl
  · simp only [hs, if_false, ne_eq, not_false_eq_true, decide_true, if_true]
    by_cases hw : w = job.workflowId
    · subst hw
      rw [AList.lookup_insert, Function.update_self]
      rfl
    · rw [AList.lookup_insert_ne hw, Function.update_of_ne hw]
      rfl

theorem account_eq (job : Job) (skipped : List JobId) :
    e.account job skipped =
      match e.wfRemaining.lookup job.workflowId with
      | none => ({ e with wfFailures := e.failuresAfter job (job.jobId :: skipped).length }, [])
      | some r =>
          if r - (job.jobId :: skipped).length ≤ 0 then
            ({ e with
                ledger := e.ledger ++ (job.jobId :: skipped).map Receipt.unit
                wfRemaining := e.wfRemaining.erase job.workflowId
                wfFailures := (e.failuresAfter job (job.jobId :: skipped).length).erase job.workflowId },
              [.finalize job.workflowId
                (decide (0 < ((e.failuresAfter job (job.jobId :: skipped).length).lookup job.workflowId).getD 0))])
          else
            ({ e with
                ledger := e.ledger ++ (job.jobId :: skipped).map Receipt.unit
                wfRemaining := e.wfRemaining.insert job.workflowId (r - (job.jobId :: skipped).length)
                wfFailures := e.failuresAfter job (job.jobId :: skipped).length }, []) := by
  have hunits : (1 : Int) + skipped.length = ((job.jobId :: skipped).length : ℕ) := by
    rw [List.length_cons]
    push_cast
    ring
  cases hlookup : e.wfRemaining.lookup job.workflowId with
  | none => simp only [account, failuresAfter, hlookup, hunits]
  | some r =>
      simp only [account, failuresAfter, hlookup, hunits]
      rfl

theorem receipts_units (js : List JobId) :
    (js.map Receipt.unit).filterMap Receipt.unitOf = js ∧
      (js.map Receipt.unit).filterMap Receipt.slotOf = [] ∧
      (js.map Receipt.unit).filterMap Receipt.callbackOf = [] ∧
      (js.map Receipt.unit).filterMap Receipt.metricOf = [] ∧
      (js.map Receipt.unit).filterMap Receipt.cancelledOf = [] := by
  simp only [List.filterMap_map]
  refine ⟨List.filterMap_some .., ?_, ?_, ?_, ?_⟩ <;>
    exact List.filterMap_eq_nil_iff.mpr fun _ _ => rfl

theorem board_units (js : List JobId) :
    ({ e with ledger := e.ledger ++ js.map Receipt.unit } : JobEngine).board =
      { e.board with units := e.board.units + js } := by
  obtain ⟨hunit, hslot, hcallback, hmetric, hcancelled⟩ := receipts_units js
  rw [board_ledger, hunit, hslot, hcallback, hmetric, hcancelled]
  apply Board.ext <;> first | rfl | exact add_zero _

theorem account_simulates (job : Job) (skipped : List JobId) :
    e.Simulates (.account job skipped) (e.account job skipped) := by
  have hfail := failuresAfter_eq (e := e) job (job.jobId :: skipped).length
  rw [account_eq]
  cases hrem : e.wfRemaining.lookup job.workflowId with
  | none =>
      refine .of_move rfl rfl ?_ (.accountLate (List.cons_ne_nil _ _) hrem)
      apply Board.ext <;> first | rfl | exact funext hfail
  | some r =>
      by_cases hlast : r - (job.jobId :: skipped).length ≤ 0
      · simp only [hlast, if_true]
        refine .of_move rfl ?_ ?_ (.accountLast (List.cons_ne_nil _ _) hrem hlast)
        · rw [duesOf_cons, duesOf_nil, add_zero, hfail]
          rfl
        · refine (board_units (e := { e with
            wfRemaining := e.wfRemaining.erase job.workflowId
            wfFailures := (e.failuresAfter job (job.jobId :: skipped).length).erase job.workflowId }) _).trans ?_
          apply Board.ext <;> try rfl
          · exact lookup_erase_update e.wfRemaining job.workflowId id
          · refine (lookup_erase_update _ job.workflowId fun o : Option Int => o.getD 0).trans ?_
            rw [funext hfail]
            rfl
      · simp only [hlast, if_false]
        refine .of_move rfl rfl ?_ (.account (List.cons_ne_nil _ _) hrem (by omega))
        refine (board_units (e := { e with
          wfRemaining := e.wfRemaining.insert job.workflowId (r - (job.jobId :: skipped).length)
          wfFailures := e.failuresAfter job (job.jobId :: skipped).length }) _).trans ?_
        apply Board.ext <;>
          first | rfl | exact funext hfail | exact lookup_insert_update e.wfRemaining job.workflowId id _

theorem finalize_simulates (w : WorkflowId) (failed : Bool) :
    e.Simulates (.finalize w failed) (e, e.finalize w failed) := by
  unfold finalize
  by_cases hw : w = ""
  · subst hw
    exact .of_move rfl rfl rfl (.dropVerdict (.inl rfl))
  · simp only [String.isEmpty_iff, hw, if_false]
    cases hget : e.db.getWorkflow w with
    | none =>
        refine .of_move rfl rfl rfl (.dropVerdict (.inr ?_))
        simp [board, hget]
    | some wf =>
        have hid := getWorkflow_workflowId hget
        subst hid
        by_cases hrun : wf.state = .running
        · simp only [hrun, if_true]
          exact .idle rfl (add_zero _)
        · simp only [hrun, if_false]
          refine .of_move rfl rfl rfl (.dropVerdict (.inr ?_))
          simp [board, hget, hrun]

theorem finalizeWrite_simulates (hr : e.Reliable) (wf : WorkflowRecord) (failed : Bool) :
    e.Simulates (.finalizeWrite wf failed) (e.finalizeWrite wf failed, []) := by
  refine .of_move rfl rfl ?_ .label
  have hb := board_updateWorkflow (e := e.tick)
    { wf with state := if failed then .failed else .succeeded, finishedAtMs := e.wallMs }
  simp only [finalizeWrite, hr e.world.pos, Bool.false_eq_true, if_false]
  refine Eq.trans ?_ hb
  cases failed <;> rfl

/-! ### Every frame -/

/-- **Every step of every frame is a move on what the frame owes.** -/
theorem advance_simulates (hr : e.Reliable) (hq : e.queue.Consistent) (hnodup : ∀ p, (e.board.children p).Nodup)
    {f : Frame} (hp : f.Proper) (c : Choice) : e.Simulates f (e.advance c f) := by
  cases f with
  | cancel jobId => exact cancel_simulates jobId
  | cancelFlag job => exact cancelFlag_simulates hr hp
  | cancelSignal jobId => exact cancelSignal_simulates jobId
  | cancelRemove job => exact cancelRemove_simulates hq job
  | cancelWrite job => exact cancelWrite_simulates hr hp
  | cancelWorkflow w => exact cancelWorkflow_simulates w
  | cancelWorkflowWrite wf => exact cancelWorkflowWrite_simulates hr hp
  | cancelWorkflowNodes w => exact cancelWorkflowNodes_simulates w
  | cancelWorkflowDone w => exact cancelWorkflowDone_simulates w
  | workerPop owner => exact workerPop_simulates hq c.again owner
  | claim workerId maxJobs => exact claim_simulates workerId maxJobs
  | claimFirst workerId maxJobs => exact claimFirst_simulates hq c.again workerId maxJobs
  | claimRest workerId maxJobs first => exact claimRest_simulates hq workerId maxJobs first
  | registerWorker name capacity => exact registerWorker_simulates name capacity
  | heartbeat workerId => exact heartbeat_simulates workerId
  | complete msg => exact complete_simulates msg
  | completeRead msg info call => exact completeRead_simulates msg info call
  | reply call status => exact reply_simulates call status
  | start jobId owner eligibleAt remote => exact start_simulates jobId owner eligibleAt remote
  | startWrite job owner eligibleAt remote => exact startWrite_simulates hr job owner eligibleAt remote
  | handler job info => exact handler_simulates c.outcome job info
  | finish job info outcome call => exact finish_simulates job info outcome call
  | finishRecord job info outcome => exact finishRecord_simulates job info outcome
  | finishRetry job token => exact finishRetry_simulates hr hp
  | finishTerminal job token => exact finishTerminal_simulates hr hp
  | watchdog => exact watchdog_simulates
  | watchdogDead now workerId dead expired => exact watchdogDead_simulates now workerId dead expired
  | expire now jobId selected => exact expire_simulates now jobId selected
  | expireWrite now job => exact expireWrite_simulates hr now job
  | metric job => exact metric_simulates hp
  | callback job => exact callback_simulates job
  | slot jobId token => exact slot_simulates jobId token
  | onTerminal job => exact onTerminal_simulates job
  | release parent => exact release_simulates (hnodup parent)
  | releaseGet child => exact releaseGet_simulates child
  | releaseWrite child => exact releaseWrite_simulates hr child
  | skip job => exact skip_simulates hp
  | skipLoop w => exact skipLoop_simulates hp
  | skipRemove w job => exact skipRemove_simulates hq w job
  | skipWrite w job => exact skipWrite_simulates hr w job
  | skipChildren w jobId => exact skipChildren_simulates w jobId
  | skipMetric jobs => exact skipMetric_simulates jobs
  | account job skipped => exact account_simulates job skipped
  | finalize w failed => exact finalize_simulates w failed
  | finalizeWrite wf failed => exact finalizeWrite_simulates hr wf failed
  | enqueue job token => exact enqueue_simulates hq job token

end JobEngine

end DistributedJobEngine
