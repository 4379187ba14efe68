import DistributedJobEngine.EngineColumns
import DistributedJobEngine.EngineKinds

/-! The cancel cells of leases, under any interleaving. A lease gets a cell of its own when it is issued, and the
copies of the lease that operations have name the same cell. -/

namespace DistributedJobEngine

open LibPool

/-- What identifies a lease: its job, its token, its cell and its attempt. -/
@[ext] structure Tag where
  job : JobId
  token : UInt64
  cell : ℕ
  attempt : Int

def RunningInfo.tag (info : RunningInfo) (j : JobId) : Tag := ⟨j, info.leaseToken, info.cell, info.attempt⟩

/-- The lease that the frame has a copy of. -/
def Frame.tag : Frame → Option Tag
  | handler job info | finish job info _ _ | finishRecord job info _ => some (info.tag job.jobId)
  | completeRead c info _ => some (info.tag c.jobId)
  | _ => none

/-- The kinds of frames that have a copy of a lease. -/
def Kind.tagged : Kind → Bool
  | handler | finish | finishRecord | completeRead => true
  | _ => false

theorem Frame.tagged_of_tag {f : Frame} {x : Tag} (h : f.tag = some x) : f.kind.tagged = true := by
  cases f <;> first | rfl | cases h

/-- The kinds of frames that leave copies of leases behind. -/
def Kind.copies : Kind → Bool
  | complete | completeRead | startWrite | handler | finish => true
  | _ => false

theorem Kind.copies_of_next (k : Kind) : ∀ k' ∈ k.next, k'.tagged = true → k.copies = true := by
  cases k <;> decide

namespace JobEngine

variable {e e' : JobEngine}

/-- `running_` has the lease. -/
def Holds (e : JobEngine) (x : Tag) : Prop := ∃ info, e.running.lookup x.job = some info ∧ info.tag x.job = x

theorem holds_tag {j : JobId} {info : RunningInfo} (h : e.running.lookup j = some info) : e.Holds (info.tag j) :=
  ⟨info, h, rfl⟩

/-- The leases after a step: those before, or one more with a new cell. -/
inductive TagChange (e : JobEngine) (f : Frame) (e' : JobEngine) (fs : List Frame) : Prop
  | old (hholds : ∀ x, e'.Holds x → e.Holds x)
      (hframes : ∀ g ∈ fs, ∀ x, g.tag = some x → e.Holds x ∨ f.tag = some x)
      (hcells : e'.cells.length = e.cells.length)
  | issue (x₀ : Tag) {job : Job} {owner : String} {eligibleAt : Int} {remote : Bool}
      (hf : f = .startWrite job owner eligibleAt remote) (hflag : job.cancelRequested = false)
        (hjob : x₀.job = job.jobId)
      (hcell : x₀.cell = e.cells.length) (hholds : ∀ x, e'.Holds x → x = x₀ ∨ e.Holds x)
      (hframes : ∀ g ∈ fs, ∀ x, g.tag = some x → x = x₀)
      (hcells : e'.cells.length = e.cells.length + 1) (hledger : e'.ledger = e.ledger ++ [.issued x₀.token])

theorem length_setCell (cell : ℕ) (g : CancelCell → CancelCell) :
    (e.setCell cell g).cells.length = e.cells.length := by
  rw [setCell, List.length_modify]

/-- A step that neither adds leases nor copies any. -/
theorem TagChange.plain {c : Choice} {f : Frame} (hkind : f.kind.copies = false)
    (hholds : ∀ x, (e.advance c f).1.Holds x → e.Holds x)
    (hcells : (e.advance c f).1.cells.length = e.cells.length) :
    e.TagChange f (e.advance c f).1 (e.advance c f).2 := by
  refine .old hholds (fun g hg x htag => ?_) hcells
  rw [Kind.copies_of_next _ _ ((advance_follows c f).next g hg) (Frame.tagged_of_tag htag)] at hkind
  cases hkind

theorem holds_of_running (h : e'.running = e.running) {x : Tag} (hx : e'.Holds x) : e.Holds x := by
  rwa [Holds, h] at hx

theorem TagChange.aside {c : Choice} {f : Frame} (hf : f.aside = true) (hkind : f.kind.copies = false) :
    e.TagChange f (e.advance c f).1 (e.advance c f).2 := by
  have hdesk := advance_desk (e := e) c hf
  exact .plain hkind (fun x hx => holds_of_running (congrArg Desk.running hdesk) hx)
    (congrArg (fun d : Desk => d.cells.length) hdesk)

theorem holds_erase {j : JobId} {x : Tag} (h : e'.running = e.running.erase j) (hx : e'.Holds x) : e.Holds x := by
  obtain ⟨info, hlookup, htag⟩ := hx
  rw [h] at hlookup
  by_cases hj : x.job = j
  · rw [hj, AList.lookup_erase] at hlookup
    cases hlookup
  · rw [AList.lookup_erase_ne hj] at hlookup
    exact ⟨info, hlookup, htag⟩

theorem length_setCells (late : List (Σ _ : JobId, RunningInfo)) (e : JobEngine) :
    (late.foldl (fun e kv => e.setCell kv.2.cell fun c => { c with reason := .timeout, flag := true })
      e).cells.length =
      e.cells.length := by
  induction late generalizing e with
  | nil => rfl
  | cons kv late ih =>
      rw [List.foldl_cons, ih, length_setCell]

theorem startWrite_tags (job : Job) (owner : String) (eligibleAt : Int) (remote : Bool) :
    e.TagChange (.startWrite job owner eligibleAt remote) (e.startWrite job owner eligibleAt remote).1
      (e.startWrite job owner eligibleAt remote).2 := by
  have hdesk : ∀ row, (e.updateJob row).2.running = e.running ∧ (e.updateJob row).2.cells = e.cells :=
    fun row => ⟨updateJob_running row, congrArg Desk.cells (updateJob_desk row)⟩
  unfold startWrite
  split
  · refine .old (fun x hx => holds_of_running (hdesk _).1 hx) (fun g hg x htag => ?_) (by rw [(hdesk _).2])
    simp only [Frame.tail, List.mem_cons, List.not_mem_nil, or_false] at hg
    rcases hg with rfl | rfl | rfl | rfl <;> cases htag
  · next hflag =>
      dsimp only
      cases hupd : e.updateJob (e.startedRow job owner eligibleAt remote) with
      | mk ok e₁ =>
          have hrun : e₁.running = e.running := by rw [← (hdesk (e.startedRow job owner eligibleAt remote)).1, hupd]
          have hcells : e₁.cells = e.cells := by rw [← (hdesk (e.startedRow job owner eligibleAt remote)).2, hupd]
          have hledger : e₁.ledger = e.ledger := by
            rw [← updateJob_ledger (e := e) (e.startedRow job owner eligibleAt remote), hupd]
          cases ok with
          | false =>
              have hfailed : ∀ job, (e₁.startFailed job).1.running = e.running := fun _ => hrun
              refine .old (fun x hx => holds_of_running (hfailed _) hx) (fun g hg x htag => ?_)
                (congrArg List.length hcells)
              rw [List.mem_singleton.mp hg] at htag
              cases htag
          | true =>
              let row := e.startedRow job owner eligibleAt remote
              let info := leaseOf row e₁.cells.length owner eligibleAt remote
              refine .issue (info.tag row.jobId) rfl (Bool.not_eq_true _ ▸ hflag) rfl (congrArg List.length hcells)
                (fun x hx => ?_) (fun g hg x htag => ?_) ?_ ?_
              · obtain ⟨held, hlookup, htag⟩ := hx
                simp only [startRunning] at hlookup
                by_cases hj : x.job = row.jobId
                · rw [hj, AList.lookup_insert, Option.some.injEq] at hlookup
                  left
                  rw [← htag, ← hlookup, hj]
                · rw [AList.lookup_insert_ne hj, hrun] at hlookup
                  exact .inr ⟨held, hlookup, htag⟩
              · simp only [startRunning] at hg
                split_ifs at hg
                · cases hg
                · rw [List.mem_singleton.mp hg] at htag
                  exact (Option.some.inj htag).symm
              · simp only [startRunning, List.length_append, hcells, List.length_singleton]
              · simp only [startRunning, hledger]
                rfl

theorem finish_tags (job : Job) (info : RunningInfo) (outcome : Outcome) (call : Option ℕ) :
    e.TagChange (.finish job info outcome call) (e.finish job info outcome call).1
      (e.finish job info outcome call).2 := by
  unfold finish
  (repeat' split)
  · refine .old (fun x hx => holds_erase rfl hx) (fun g hg x htag => .inr ?_) rfl
    rw [List.mem_singleton.mp hg] at htag
    exact htag
  all_goals exact .old (fun x hx => holds_of_running rfl hx) (fun g hg => by cases hg) rfl

theorem complete_tags (c : Completion) : e.TagChange (.complete c) (e.complete c).1 (e.complete c).2 := by
  unfold complete
  dsimp only
  (repeat' split)
  case h_2.isFalse info hlookup _ =>
    refine .old (fun x hx => holds_of_running rfl hx) (fun g hg x htag => .inl ?_) rfl
    rw [List.mem_singleton.mp hg] at htag
    cases htag
    exact holds_tag hlookup
  all_goals
    refine .old (fun x hx => holds_of_running rfl hx) (fun g hg x htag => ?_) rfl
    rw [List.mem_singleton.mp hg] at htag
    cases htag

theorem completeRead_tags (c : Completion) (info : RunningInfo) (call : ℕ) :
    e.TagChange (.completeRead c info call) (e.completeRead c info call).1 (e.completeRead c info call).2 := by
  unfold completeRead
  split
  · refine .old (fun x hx => hx) (fun g hg x htag => ?_) rfl
    rw [List.mem_singleton.mp hg] at htag
    cases htag
  · next job hget =>
      refine .old (fun x hx => ?_) (fun g hg x htag => ?_) ?_
      · dsimp only at hx
        split_ifs at hx <;> exact holds_of_running rfl hx
      · simp only [List.mem_cons, List.not_mem_nil, or_false] at hg
        rcases hg with rfl | rfl
        · right
          rw [← htag, Frame.tag, Frame.tag, getJob_jobId hget]
        · cases htag
      · dsimp only
        split_ifs
        · exact length_setCell _ _
        · exact length_setCell _ _
        · rfl

theorem handler_tags (outcome : Outcome) (job : Job) (info : RunningInfo) :
    e.TagChange (.handler job info) e (e.handler outcome job info) := by
  refine .old (fun x hx => hx) (fun g hg x htag => .inr ?_) rfl
  unfold handler at hg
  split_ifs at hg <;> rw [List.mem_singleton.mp hg] at htag <;> exact htag

theorem heartbeat_holds {workerId : WorkerId} {x : Tag} (h : (e.heartbeat workerId).Holds x) : e.Holds x := by
  unfold heartbeat at h
  split at h
  · exact h
  · obtain ⟨info, hlookup, htag⟩ := h
    dsimp only at hlookup
    rw [lookup_mapRunning, Option.map_eq_some_iff] at hlookup
    obtain ⟨old, hold, rfl⟩ := hlookup
    refine ⟨old, hold, htag ▸ ?_⟩
    unfold RunningInfo.tag
    split_ifs <;> rfl

/-- **Every step keeps the leases, or issues one with a new cell.** -/
theorem advance_tags (c : Choice) (f : Frame) : e.TagChange f (e.advance c f).1 (e.advance c f).2 := by
  cases f with
  | startWrite job owner eligibleAt remote => exact startWrite_tags job owner eligibleAt remote
  | finish job info outcome call => exact finish_tags job info outcome call
  | complete msg => exact complete_tags msg
  | completeRead msg info call => exact completeRead_tags msg info call
  | handler job info => exact handler_tags c.outcome job info
  | expire now jobId selected =>
      refine .plain rfl (fun x hx => ?_) ?_
      · simp only [advance, expire] at hx
        split at hx
        · exact hx
        · exact holds_erase rfl hx
      · simp only [advance, expire]
        split <;> rfl
  | heartbeat workerId =>
      refine .plain rfl (fun x hx => heartbeat_holds hx) ?_
      simp only [advance, heartbeat]
      split <;> rfl
  | watchdog =>
      obtain ⟨cells, ws, n, h⟩ := exists_watchdog (e := e)
      refine .plain rfl (fun x hx => ?_) ?_
      · simp only [advance, h] at hx
        exact holds_of_running rfl hx
      · exact length_setCells _ e.tick
  | cancelSignal jobId =>
      refine .plain rfl (fun x hx => ?_) ?_
      · simp only [advance, cancelSignal] at hx
        split at hx
        · exact hx
        · exact holds_of_running rfl hx
      · simp only [advance, cancelSignal]
        split
        · rfl
        · exact length_setCell _ _
  | claim workerId maxJobs =>
      refine .plain rfl (fun x hx => ?_) ?_
      · simp only [advance, claim] at hx
        split at hx <;> exact hx
      · simp only [advance, claim]
        split <;> rfl
  | finishRecord job info outcome =>
      refine .plain rfl (fun x hx => ?_) ?_
      · simp only [advance, finishRecord] at hx
        split_ifs at hx <;> exact holds_of_running rfl hx
      · simp only [advance, finishRecord]
        split_ifs <;> rfl
  | finishRetry job token =>
      exact .plain rfl (fun x hx => holds_of_running (persist_running job) hx)
        (congrArg List.length (congrArg Desk.cells (persist_desk job)))
  | finishTerminal job token =>
      exact .plain rfl (fun x hx => holds_of_running (persist_running job) hx)
        (congrArg List.length (congrArg Desk.cells (persist_desk job)))
  | account job skipped =>
      refine .plain rfl (fun x hx => ?_) ?_
      · simp only [advance, account] at hx
        (repeat' split at hx) <;> exact holds_of_running rfl hx
      · simp only [advance, account]
        (repeat' split) <;> rfl
  | slot jobId token => cases token <;> exact .plain rfl (fun x hx => holds_of_running rfl hx) rfl
  | enqueue job token =>
      cases token <;> exact .plain rfl (fun x hx => holds_of_running (enqueue_running job) hx)
        (congrArg List.length (congrArg Desk.cells (enqueue_desk job)))
  | registerWorker _ _ | reply _ _ | metric _ | callback _ | skipMetric _ | cancelWorkflowDone _ =>
      exact .plain rfl (fun x hx => holds_of_running rfl hx) rfl
  | _ => exact .aside rfl rfl

/-! ### Leases and cells -/

/-- The lease is in `running_` or a frame has a copy of it. -/
def Tagged (e : JobEngine) (F : Multiset Frame) (x : Tag) : Prop := e.Holds x ∨ ∃ f ∈ F, f.tag = some x

/-- Every lease has a cell of its own and, if no token was drawn twice, is known by its token. -/
structure Celled (e : JobEngine) (F : Multiset Frame) : Prop where
  bound : ∀ x, e.Tagged F x → x.cell < e.cells.length
  issued : ∀ x, e.Tagged F x → Receipt.issued x.token ∈ e.ledger
  cell : ∀ x y, e.Tagged F x → e.Tagged F y → x.cell = y.cell → x = y
  token : e.Distinct → ∀ x y, e.Tagged F x → e.Tagged F y → x.token = y.token → x = y

theorem Distinct.of_append {l : List Receipt} (hledger : e'.ledger = e.ledger ++ l) (h : e'.Distinct) :
    e.Distinct := by
  intro t
  have ht := h t
  rw [hledger, List.count_append] at ht
  omega

/-- A token that is issued now was not issued before. -/
theorem Distinct.notMem {t : UInt64} (hledger : e'.ledger = e.ledger ++ [.issued t]) (h : e'.Distinct) :
    Receipt.issued t ∉ e.ledger := by
  intro hmem
  have ht := h t
  have hpos := List.count_pos_iff.mpr hmem
  rw [hledger, List.count_append, List.count_singleton_self] at ht
  omega

theorem Celled.advance {c : Choice} {f : Frame} {O : Multiset Frame} (h : e.Celled (f ::ₘ O)) :
    (e.advance c f).1.Celled (((e.advance c f).2 : Multiset Frame) + O) := by
  have hother : ∀ x, (∃ g ∈ O, g.tag = some x) → e.Tagged (f ::ₘ O) x := fun x ⟨g, hg, htag⟩ =>
    .inr ⟨g, Multiset.mem_cons_of_mem hg, htag⟩
  obtain ⟨l, hl⟩ := advance_transfers (e := e) c f
  cases advance_tags (e := e) c f with
  | old hholds hframes hcells =>
      have hold : ∀ x, (e.advance c f).1.Tagged (((e.advance c f).2 : Multiset Frame) + O) x →
          e.Tagged (f ::ₘ O) x := by
        rintro x (hx | ⟨g, hg, htag⟩)
        · exact .inl (hholds x hx)
        · rcases Multiset.mem_add.mp hg with hg | hg
          · exact (hframes g hg x htag).imp_right fun hf => ⟨f, Multiset.mem_cons_self f O, hf⟩
          · exact hother x ⟨g, hg, htag⟩
      refine ⟨fun x hx => hcells ▸ h.bound x (hold x hx), fun x hx => ?_,
        fun x y hx hy => h.cell x y (hold x hx) (hold y hy),
        fun hd x y hx hy => h.token (hd.of_append hl.ledger) x y (hold x hx) (hold y hy)⟩
      rw [hl.ledger]
      exact List.mem_append_left l (h.issued x (hold x hx))
  | issue x₀ _ _ _ hcell hholds hframes hcells hledger =>
      have hold : ∀ x, (e.advance c f).1.Tagged (((e.advance c f).2 : Multiset Frame) + O) x →
          x = x₀ ∨ e.Tagged (f ::ₘ O) x := by
        rintro x (hx | ⟨g, hg, htag⟩)
        · exact (hholds x hx).imp_right .inl
        · rcases Multiset.mem_add.mp hg with hg | hg
          · exact .inl (hframes g hg x htag)
          · exact .inr (hother x ⟨g, hg, htag⟩)
      have hfresh : ∀ x, e.Tagged (f ::ₘ O) x → x.cell ≠ x₀.cell := fun x hx => by
        rw [hcell]
        exact Nat.ne_of_lt (h.bound x hx)
      refine ⟨fun x hx => ?_, fun x hx => ?_, fun x y hx hy hxy => ?_, fun hd x y hx hy hxy => ?_⟩
      · rcases hold x hx with rfl | hx
        · omega
        · have := h.bound x hx
          omega
      · rw [hledger]
        rcases hold x hx with rfl | hx
        · exact List.mem_append_right _ (List.mem_singleton.mpr rfl)
        · exact List.mem_append_left _ (h.issued x hx)
      · rcases hold x hx with rfl | hx <;> rcases hold y hy with rfl | hy
        · rfl
        · exact absurd hxy.symm (hfresh y hy)
        · exact absurd hxy (hfresh x hx)
        · exact h.cell x y hx hy hxy
      · have hnew := hd.notMem hledger
        rcases hold x hx with rfl | hx <;> rcases hold y hy with rfl | hy
        · rfl
        · exact absurd (hxy ▸ h.issued y hy) hnew
        · exact absurd (hxy ▸ h.issued x hx) hnew
        · exact h.token (hd.of_append hledger) x y hx hy hxy

theorem Celled.submits {F : Multiset Frame} (h : e.Celled F) (hsub : Submits e e') : e'.Celled F := by
  have hdesk := Submits.desk hsub
  have hold : ∀ x, e'.Tagged F x → e.Tagged F x := fun x hx =>
    hx.imp_left (holds_of_running (congrArg Desk.running hdesk))
  have hledger : e'.ledger = e.ledger := congrArg Desk.ledger hdesk
  refine ⟨fun x hx => ?_, fun x hx => hledger ▸ h.issued x (hold x hx),
    fun x y hx hy => h.cell x y (hold x hx) (hold y hy), fun hd x y hx hy => ?_⟩
  · rw [show e'.cells = e.cells from congrArg Desk.cells hdesk]
    exact h.bound x (hold x hx)
  · refine h.token (fun t => ?_) x y (hold x hx) (hold y hy)
    rw [← hledger]
    exact hd t

theorem Celled.spawn {f : Frame} {F : Multiset Frame} (h : e.Celled F) (hcall : Call f) : e.Celled (f ::ₘ F) := by
  have hold : ∀ x, e.Tagged (f ::ₘ F) x → e.Tagged F x := by
    rintro x (hx | ⟨g, hg, htag⟩)
    · exact .inl hx
    · rcases Multiset.mem_cons.mp hg with rfl | hg
      · have hnone : g.tag = none := by cases g <;> first | rfl | cases hcall
        rw [hnone] at htag
        cases htag
      · exact .inr ⟨g, hg, htag⟩
  exact ⟨fun x hx => h.bound x (hold x hx), fun x hx => h.issued x (hold x hx),
    fun x y hx hy => h.cell x y (hold x hx) (hold y hy), fun hd x y hx hy => h.token hd x y (hold x hx) (hold y hy)⟩

theorem boot_celled {cfg : EngineConfig} {types : List String} {world : World} :
    (boot cfg types world).Celled 0 := by
  have hnone : ∀ x, ¬ (boot cfg types world).Tagged 0 x := by
    rintro x (⟨info, hlookup, -⟩ | ⟨g, hg, -⟩)
    · cases hlookup
    · cases hg
  exact ⟨fun x hx => absurd hx (hnone x), fun x hx => absurd hx (hnone x), fun x y hx => absurd hx (hnone x),
    fun _ x y hx => absurd hx (hnone x)⟩

/-! ### Reasons -/

/-- The reason in a cell. -/
def reasonAt (e : JobEngine) (cell : ℕ) : CancelReason := (e.cells.getD cell {}).reason

/-- What becomes of the reason in a cell that is there. -/
inductive ReasonChange (e : JobEngine) (f : Frame) (cell : ℕ) (e' : JobEngine) : Prop
  | same (h : e'.reasonAt cell = e.reasonAt cell)
  | signal (j : JobId) (hf : f = .cancelSignal j) (h : e'.reasonAt cell = .user)
  | report (c : Completion) (info : RunningInfo) (call : ℕ) (hf : f = .completeRead c info call)
      (hcell : info.cell = cell) (h : e'.reasonAt cell = .timeout ∨ e'.reasonAt cell = .user)
  | late (hf : f = .watchdog) (hnone : e.reasonAt cell = .none) (h : e'.reasonAt cell = .timeout)

theorem reasonAt_setCell {cell cell' : ℕ} {g : CancelCell → CancelCell} (hcell : cell < e.cells.length) :
    (e.setCell cell' g).reasonAt cell = if cell' = cell then (g (e.cells.getD cell {})).reason
      else e.reasonAt cell := by
  rw [reasonAt, setCell, List.getD_eq_getElem?_getD, List.getElem?_modify, List.getElem?_eq_getElem hcell]
  split_ifs
  · rw [List.getD_eq_getElem?_getD, List.getElem?_eq_getElem hcell]
    rfl
  · rw [reasonAt, List.getD_eq_getElem?_getD, List.getElem?_eq_getElem hcell]
    rfl

theorem ReasonChange.of_cells {f : Frame} {cell : ℕ} (h : e'.cells = e.cells) : e.ReasonChange f cell e' :=
  .same (by rw [reasonAt, h, reasonAt])

theorem ReasonChange.aside {c : Choice} {f : Frame} {cell : ℕ} (hf : f.aside = true) :
    e.ReasonChange f cell (e.advance c f).1 :=
  .of_cells (congrArg Desk.cells (advance_desk c hf))

/-- The scan of the watchdog sets the reason of attempts that have none. -/
theorem reasonAt_setCells {cell : ℕ} (late : List (Σ _ : JobId, RunningInfo)) (hcell : cell < e.cells.length)
    (hlate : ∀ kv ∈ late, e.reasonAt kv.2.cell = .none ∨ e.reasonAt kv.2.cell = .timeout) :
    let e' := late.foldl (fun e kv => e.setCell kv.2.cell fun c => { c with reason := .timeout, flag := true }) e
    e'.reasonAt cell = e.reasonAt cell ∨ e.reasonAt cell = .none ∧ e'.reasonAt cell = .timeout := by
  induction late generalizing e with
  | nil => exact .inl rfl
  | cons kv late ih =>
      rw [List.forall_mem_cons] at hlate
      let e₁ := e.setCell kv.2.cell fun c => { c with reason := .timeout, flag := true }
      have hset : ∀ k, k < e.cells.length →
          e₁.reasonAt k = if kv.2.cell = k then .timeout else e.reasonAt k := fun k hk => reasonAt_setCell hk
      have hone : e₁.reasonAt cell = e.reasonAt cell ∨ e.reasonAt cell = .none ∧ e₁.reasonAt cell = .timeout := by
        rw [hset cell hcell]
        split_ifs with hkv
        · rcases hlate.1 with hnone | htimeout
          · exact .inr ⟨hkv ▸ hnone, rfl⟩
          · exact .inl (hkv ▸ htimeout.symm)
        · exact .inl rfl
      have hrest : ∀ x ∈ late, e₁.reasonAt x.2.cell = .none ∨ e₁.reasonAt x.2.cell = .timeout := by
        intro x hx
        by_cases hk : x.2.cell < e.cells.length
        · rw [hset _ hk]
          split_ifs
          · exact .inr rfl
          · exact hlate.2 x hx
        · left
          rw [reasonAt, List.getD_eq_getElem?_getD, List.getElem?_eq_none (by rw [length_setCell]; omega)]
          rfl
      have hih := ih (e := e₁) (by rwa [length_setCell]) hrest
      rw [List.foldl_cons]
      rcases hih with hsame | ⟨hnone, htimeout⟩
      · rcases hone with hold | ⟨hold, hnew⟩
        · exact .inl (hsame.trans hold)
        · exact .inr ⟨hold, hsame.trans hnew⟩
      · rcases hone with hold | ⟨-, hnew⟩
        · exact .inr ⟨hold ▸ hnone, htimeout⟩
        · rw [hnew] at hnone
          cases hnone

/-- **What a step does to the reasons.** -/
theorem advance_reason (c : Choice) (f : Frame) {cell : ℕ} (hcell : cell < e.cells.length) :
    e.ReasonChange f cell (e.advance c f).1 := by
  cases f with
  | cancelSignal jobId =>
      simp only [advance, cancelSignal]
      split
      · exact .same rfl
      · next info _ =>
          by_cases hinfo : info.cell = cell
          · exact .signal jobId rfl (by rw [reasonAt_setCell hcell, if_pos hinfo])
          · exact .same (by rw [reasonAt_setCell hcell, if_neg hinfo])
  | completeRead msg info call =>
      simp only [advance, completeRead]
      split
      · exact .same rfl
      · by_cases hinfo : info.cell = cell
        · dsimp only
          split_ifs
          · exact .report msg info call rfl hinfo (.inl (by rw [reasonAt_setCell hcell, if_pos hinfo]))
          · exact .report msg info call rfl hinfo (.inr (by rw [reasonAt_setCell hcell, if_pos hinfo]))
          · exact .same rfl
        · refine .same ?_
          dsimp only
          split_ifs <;> first | rfl | rw [reasonAt_setCell hcell, if_neg hinfo]
  | watchdog =>
      have hlate : ∀ kv ∈ e.running.entries.filter fun kv => decide (e.pastDeadline e.wallMs kv.2),
          e.tick.reasonAt kv.2.cell = .none ∨ e.tick.reasonAt kv.2.cell = .timeout := fun kv hkv =>
        .inl (of_decide_eq_true (List.mem_filter.mp hkv).2).2.2
      rcases reasonAt_setCells (e := e.tick) _ hcell hlate with hsame | ⟨hnone, htimeout⟩
      · exact .same hsame
      · exact .late rfl hnone htimeout
  | startWrite job owner eligibleAt remote =>
      have hcells : ∀ row, (e.updateJob row).2.cells = e.cells := fun row => congrArg Desk.cells (updateJob_desk row)
      simp only [advance, startWrite]
      split
      · exact .of_cells (hcells _)
      · cases hupd : e.updateJob (e.startedRow job owner eligibleAt remote) with
        | mk ok e₁ =>
            have he₁ : e₁.cells = e.cells := by rw [← hcells (e.startedRow job owner eligibleAt remote), hupd]
            cases ok with
            | false => exact .of_cells he₁
            | true =>
                refine .same ?_
                rw [reasonAt, reasonAt]
                simp only [startRunning, he₁, List.getD_eq_getElem?_getD]
                rw [List.getElem?_append_left hcell]
  | finish _ _ _ _ | complete _ | expire _ _ _ | heartbeat _ | claim _ _ | account _ _ =>
      refine .of_cells ?_
      simp only [advance, finish, complete, expire, heartbeat, claim, account]
      (repeat' split) <;> rfl
  | finishRecord job info outcome =>
      refine .of_cells ?_
      simp only [advance, finishRecord]
      split_ifs <;> rfl
  | finishRetry job token => exact .of_cells (congrArg Desk.cells (persist_desk job))
  | finishTerminal job token => exact .of_cells (congrArg Desk.cells (persist_desk job))
  | slot jobId token => cases token <;> exact .of_cells rfl
  | enqueue job token => cases token <;> exact .of_cells (congrArg Desk.cells (enqueue_desk job))
  | registerWorker _ _ | reply _ _ | metric _ | callback _ | skipMetric _ | cancelWorkflowDone _ =>
      exact .of_cells rfl
  | _ => exact .aside rfl

end JobEngine

end DistributedJobEngine
