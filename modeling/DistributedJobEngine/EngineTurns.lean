import DistributedJobEngine.EngineKinds
import DistributedJobEngine.EngineRaces
import DistributedJobEngine.BoardParents

/-! The engine when its operations run one at a time. A turn runs one call, or one attempt from the end of its
handler, until it is done; the frames that wait below the top of its stack, and those of the other threads, are
between no read and write of a row. So every job is in one place at the end of each turn. -/

namespace DistributedJobEngine

open LibPool Due Window

namespace Kind

/-- The kinds of an operation that takes entries from the queue. -/
def claims : Kind → Bool
  | workerPop | claim | claimFirst | claimRest | start | startWrite => true
  | _ => false

/-- The kinds of a cancellation. -/
def cancels : Kind → Bool
  | cancel | cancelFlag | cancelSignal | cancelRemove | cancelWrite | cancelWorkflow | cancelWorkflowWrite
  | cancelWorkflowNodes | cancelWorkflowDone => true
  | _ => false

theorem claims_of_next (k : Kind) : ∀ k' ∈ k.next, k'.claims = true → k.claims = true := by
  cases k <;> decide

theorem cancels_of_next (k : Kind) : ∀ k' ∈ k.next, k'.cancels = true → k.cancels = true := by
  cases k <;> decide

/-- The frame is between the read of a row and its write on behalf of a cancellation. -/
def cancelWindow : Kind → Bool
  | cancelFlag | cancelRemove | cancelWrite => true
  | _ => false

theorem cancelRemove_of_next (k : Kind) (h : k.cancelWindow = true) :
    ∀ k' ∈ k.next, k'.cancelWindow = true → k = cancelRemove := by
  cases k <;> first | decide | cases h

end Kind

/-- The dues that a frame never has together with others. -/
def Due.sole : Due → Bool
  | requeue _ | relabel _ | cancelling _ | verdict _ _ => true
  | _ => false

namespace Frame

theorem quiet_of_still {f : Frame} (h : f.kind.still = true) : f.overwrites = none ∧ f.holdsRun = false := by
  cases f <;> first | exact ⟨rfl, rfl⟩ | cases h

theorem still_of_parks {f : Frame} (h : f.parks = true) : f.kind.still = true := by
  cases f <;> first | rfl | cases h

theorem dues_of_call {f : Frame} (h : f.isCall = true) : f.dues = 0 := by
  cases f <;> first | rfl | cases h

/-- Only frames of a cancellation have a row read for it. -/
theorem cancelWindow_of_mem {f : Frame} {j : JobId} {r : Stub} (h : window .cancel j r ∈ f.dues) :
    f.kind.cancelWindow = true := by
  cases f with
  | cancelFlag | cancelRemove | cancelWrite => rfl
  | onTerminal job =>
      have hw := not_isWindow_nodeDues h
      cases hw
  | skipLoop w =>
      have hw := not_isWindow_walk h
      cases hw
  | skipRemove w job | skipWrite w job =>
      simp only [dues, Multiset.insert_eq_cons, Multiset.cons_add, Multiset.mem_cons, Multiset.singleton_add] at h
      rcases h with h | h | h
      · cases h
      · cases h
      · cases not_isWindow_walk h
  | skipChildren w jobId =>
      simp only [dues, Multiset.mem_add, Multiset.mem_singleton] at h
      rcases h with h | h
      · cases h
      · cases not_isWindow_walk h
  | _ => simp [dues] at h

/-- Only `start` waits below the top of a stack with an entry in its hands. -/
theorem claims_of_ticket {f : Frame} (h : f.kind.still = true) {j : JobId} {x : Due} (hx : x ∈ f.dues)
    (ht : x.ticket j = true) : f.kind.claims = true := by
  cases f with
  | start => rfl
  | onTerminal job =>
      simp only [dues, nodeDues] at hx
      split_ifs at hx <;> simp at hx
      · rcases hx with rfl | rfl <;> cases ht
      · rcases hx with rfl | rfl <;> cases ht
  | account job skipped =>
      obtain ⟨i, -, rfl⟩ := List.mem_map.mp hx
      cases ht
  | cancel | reply | expire => cases hx
  | cancelWorkflowDone | callback | slot | releaseGet | handler =>
      rw [Multiset.mem_singleton.mp hx] at ht
      cases ht
  | _ => cases h

/-- The frames of a job's end, which owe several things at once. -/
def composite : Frame → Bool
  | onTerminal _ | cancelWrite _ | skipLoop _ | skipRemove _ _ | skipWrite _ _ | skipChildren _ _ => true
  | _ => false

theorem not_sole_of_composite {f : Frame} {x : Due} (hf : f.composite = true) (h : x ∈ f.dues) : x.sole = false := by
  cases f with
  | onTerminal job =>
      simp only [dues, nodeDues] at h
      split_ifs at h <;> simp at h <;> rcases h with rfl | rfl <;> rfl
  | cancelWrite job =>
      rcases Multiset.mem_add.mp h with h | h
      · rw [Multiset.mem_singleton.mp h]
        rfl
      · rw [Board.mem_entry h]
        rfl
  | skipLoop | skipRemove | skipWrite | skipChildren =>
      cases x <;> first | rfl | simp [dues, SkipWalk.dues, skippedDues] at h
  | _ => cases hf

theorem eq_enqueue_of_mem {f : Frame} {j : JobId} (h : requeue j ∈ f.dues) :
    ∃ job token, f = .enqueue job token ∧ job.jobId = j := by
  cases f with
  | enqueue job token =>
      simp only [dues, Multiset.mem_singleton, requeue.injEq] at h
      exact ⟨job, token, rfl, h.symm⟩
  | onTerminal | cancelWrite | skipLoop | skipRemove | skipWrite | skipChildren =>
      cases not_sole_of_composite rfl h
  | _ => simp [dues] at h

end Frame

namespace Board

variable {b : Board} {D : Multiset Due} {j : JobId}

/-- The jobs that have not ended. -/
def openJobs (b : Board) : Finset JobId := b.ids.filter fun j => b.ended j = false

/-- Every job that has not ended has a slot. -/
theorem Accounted.card_openJobs_le (h : b.Accounted D) (hg : b.Graph) : b.openJobs.card ≤ b.outstanding := by
  have hslots : b.slots.card ≤ (b.ids.filter fun j => ¬ b.ended j = false).card := by
    refine card_le_of_count_le_one (fun i => ?_) fun i hi => ?_
    · have hcount := h.slot i
      have hle := Bool.toNat_le (b.ended i)
      omega
    · have hpos := Multiset.count_pos.mpr hi
      have hcount := h.slot i
      have hend : b.ended i = true := by
        cases hend : b.ended i
        · rw [hend, Bool.toNat_false] at hcount
          omega
        · rfl
      exact Finset.mem_filter.mpr ⟨hg.mem_ids_of_ended hend, by simp [hend]⟩
  have hsplit := Finset.card_filter_add_card_filter_not (s := b.ids) (fun j => b.ended j = false)
  have hout := h.outstanding
  rw [openJobs]
  omega

theorem Ticketed.mem_openJobs (h : b.Ticketed D) (hg : b.Graph) (hj : 0 < b.entries D j) : j ∈ b.openJobs := by
  have hcount := h j
  have hwait : b.waiting j = true := by
    cases hw : b.waiting j
    · rw [hw, Bool.toNat_false] at hcount
      omega
    · rfl
  obtain ⟨r, hrow, hw⟩ := waiting_iff.mp hwait
  refine Finset.mem_filter.mpr ⟨(hg.ids j).mpr (by rw [hrow]; rfl), ?_⟩
  rw [ended_of_row hrow]
  exact JobState.isTerminal_eq_false_of_isWaiting hw

theorem Ticketed.card_live_le (h : b.Ticketed D) (hg : b.Graph) (hopen : b.openJobs.card ≤ b.outstanding) :
    b.live.card ≤ b.outstanding := by
  refine le_trans (Finset.card_le_card fun j hj => ?_) hopen
  exact h.mem_openJobs hg (by rw [entries, if_pos hj]; omega)

/-- An entry that is about to be put on the queue has room there. -/
theorem Ticketed.card_live_lt (h : b.Ticketed D) (hg : b.Graph) (hopen : b.openJobs.card ≤ b.outstanding)
    (hj : requeue j ∈ D) : b.live.card + 1 ≤ b.outstanding := by
  have hticket : 0 < D.countP (·.ticket j) := Multiset.countP_pos.mpr ⟨_, hj, by simp [Due.ticket]⟩
  have hcount := h j
  have hnot : j ∉ b.live := by
    intro hin
    have hle := Bool.toNat_le (b.waiting j)
    rw [entries, if_pos hin] at hcount
    omega
  calc b.live.card + 1 = (insert j b.live).card := (Finset.card_insert_of_notMem hnot).symm
    _ ≤ b.openJobs.card := Finset.card_le_card fun i hi => by
        refine h.mem_openJobs hg ?_
        rw [entries]
        rcases Finset.mem_insert.mp hi with rfl | hi
        · omega
        · rw [if_pos hi]
          omega
    _ ≤ b.outstanding := hopen

theorem outstanding_of_move {b' : Board} {d d' : Multiset Due} (h : Move b d b' d') :
    b'.outstanding = b.outstanding ∨
      (∃ j, Due.slot j ∈ d) ∧ b'.outstanding = if b.outstanding = 0 then 2 ^ 64 - 1 else b.outstanding - 1 := by
  cases h with
  | @slot j => exact .inr ⟨⟨j, Multiset.mem_singleton_self _⟩, rfl⟩
  | _ => exact .inl rfl

end Board

namespace JobEngine

variable {e e' : JobEngine} {c : Choice} {f : Frame} {O : Multiset Frame}

/-- No thread takes entries from the queue while another cancels. -/
def Apart (F : Multiset Frame) : Prop := ∀ f ∈ F, ∀ g ∈ F, f.kind.claims = true → g.kind.cancels = false

/-- The invariant of operations that run one at a time. -/
structure Settled (e : JobEngine) (F : Multiset Frame) : Prop where
  books : e.Books F
  exact : e.board.Exact (duesIn F)
  ticketed : e.board.Ticketed (duesIn F)
  manned : e.board.Manned (duesIn F)
  counting : e.board.Counting (duesIn F)
  swept : e.board.Swept (duesIn F)
  apart : Apart F
  bounded : e.outstanding ≤ e.cfg.maxOutstandingJobs
  capacity : e.queue.capacity = e.cfg.maxOutstandingJobs
  opened : e.queue.closed = false

theorem raceFree_of_still (hO : ∀ g ∈ O, g.kind.still = true) :
    e.RaceFree c f O := by
  intro j _ _ g hg hj
  rw [(Frame.quiet_of_still (hO g hg)).1] at hj
  cases hj

theorem free_of_still {f : Frame} {O : Multiset Frame} (hO : ∀ g ∈ O, g.kind.still = true) :
    engineSystem.Free f O := fun _ g hg => (Frame.quiet_of_still (hO g hg)).2

theorem not_isWindow_of_still {O : Multiset Frame} (hO : ∀ g ∈ O, g.kind.still = true) {x : Due}
    (hx : x ∈ duesIn O) : x.isWindow = false := by
  obtain ⟨g, hg, hxg⟩ := mem_duesIn.mp hx
  rcases g.dues_window with hnone | ⟨k, i, s, rest, hover, -⟩
  · exact hnone x hxg
  · rw [(Frame.quiet_of_still (hO g hg)).1] at hover
    cases hover

theorem Apart.advance (h : Apart (f ::ₘ O)) :
    Apart (((e.advance c f).2 : Multiset Frame) + O) := by
  have hfollows := advance_follows (e := e) c f
  have hmem : ∀ {P : Kind → Bool}, (∀ k : Kind, ∀ k' ∈ k.next, P k' = true → P k = true) →
      ∀ g ∈ ((e.advance c f).2 : Multiset Frame) + O, P g.kind = true → ∃ g' ∈ f ::ₘ O, P g'.kind = true := by
    intro P hP g hg hk
    rcases Multiset.mem_add.mp hg with hg | hg
    · exact ⟨f, Multiset.mem_cons_self f O, hP _ _ (hfollows.next g hg) hk⟩
    · exact ⟨g, Multiset.mem_cons_of_mem hg, hk⟩
  intro g hg g' hg' hclaims
  by_contra hcancels
  rw [Bool.not_eq_false] at hcancels
  obtain ⟨x, hx, hxc⟩ := hmem Kind.claims_of_next g hg hclaims
  obtain ⟨y, hy, hyc⟩ := hmem Kind.cancels_of_next g' hg' hcancels
  rw [h x hx y hy hxc] at hyc
  cases hyc

/-- A cancellation that takes a job off the queue finds its entry there and nowhere else. -/
theorem Apart.ticket_of_cancel (h : Apart (f ::ₘ O))
    (hO : ∀ g ∈ O, g.kind.still = true) {d d' x : Multiset Due} (hd : f.dues = d + x)
    (hd' : duesOf (e.advance c f).2 = d' + x) {j : JobId} {r : Stub} (hwin : window .cancel j r ∈ d)
    (hwin' : window .cancel j r ∈ d') : (x + duesIn O).countP (·.ticket j) = 0 := by
  have hf : window .cancel j r ∈ f.dues := by rw [hd]; exact Multiset.mem_add.mpr (.inl hwin)
  have hkind := Frame.cancelWindow_of_mem hf
  obtain ⟨g, hg, hxg⟩ := mem_duesIn.mp (show window .cancel j r ∈ duesIn ((e.advance c f).2 : Multiset Frame) by
    rw [duesIn_coe, hd']; exact Multiset.mem_add.mpr (.inl hwin'))
  have hremove := Kind.cancelRemove_of_next f.kind hkind _ ((advance_follows c f).next g hg)
    (Frame.cancelWindow_of_mem hxg)
  have hx : x = 0 := by
    cases f with
    | cancelRemove job =>
        have hcard := congrArg Multiset.card hd
        have hpos := Multiset.card_pos_iff_exists_mem.mpr ⟨_, hwin⟩
        rw [Multiset.card_add, Frame.dues, Multiset.card_singleton] at hcard
        exact Multiset.card_eq_zero.mp (by omega)
    | _ => cases hremove
  subst hx
  rw [zero_add, Multiset.countP_eq_zero]
  intro y hy ht
  obtain ⟨g, hg, hyg⟩ := mem_duesIn.mp hy
  have hclaims := Frame.claims_of_ticket (hO g hg) hyg ht
  have hnot := h g (Multiset.mem_cons_of_mem hg) f (Multiset.mem_cons_self f O) hclaims
  rw [hremove] at hnot
  cases hnot

theorem board_requeue (job : Job) (token : Option UInt64) :
    (e.requeue job token).board = (e.enqueue job).board := by
  cases token with
  | none => rfl
  | some t => exact board_ledger_of_nil rfl rfl rfl rfl rfl

/-- A job that is put on the queue is on it: there is always room. -/
theorem live_of_requeue {c : Choice} {f : Frame} {j : JobId} (hq : e.queue.Consistent)
    (hopen : e.queue.closed = false)
    (hroom : e.queue.live.card + 1 ≤ e.queue.capacity) (hj : Due.requeue j ∈ f.dues) :
    j ∈ (e.advance c f).1.board.live := by
  obtain ⟨job, token, rfl, rfl⟩ := Frame.eq_enqueue_of_mem hj
  have hlive := ((enqueue_queued hq job).room hopen hroom).1
  change job.jobId ∈ (e.requeue job token).board.live
  rw [board_requeue]
  change job.jobId ∈ (e.enqueue job).queue.live
  rw [hlive]
  simp

theorem Settled.pushed {f : Frame} {O : Multiset Frame} (h : e.Settled (f ::ₘ O)) {c : Choice} {j : JobId}
    (hj : Due.requeue j ∈ f.dues) : j ∈ (e.advance c f).1.board.live := by
  have hgraph := h.books.sound.safe.graph
  have hroom := h.ticketed.card_live_lt hgraph (h.books.accounted.card_openJobs_le hgraph)
    (mem_duesIn.mpr ⟨f, Multiset.mem_cons_self _ _, hj⟩)
  exact live_of_requeue h.books.sound.queue h.opened (hroom.trans (h.bounded.trans_eq h.capacity.symm)) hj

/-- The number of slots only goes down, as long as none is given back that nobody has. -/
theorem outstanding_advance
    (hpos : ∀ j, Due.slot j ∈ f.dues → 0 < e.outstanding) (h : e.Sound (f ::ₘ O)) :
    (e.advance c f).1.outstanding ≤ e.outstanding := by
  obtain ⟨d, d', x, hd, -, -, -, hmove⟩ := h.step (c := c)
  rcases Board.outstanding_of_move hmove with hsame | ⟨⟨j, hj⟩, hless⟩
  · exact le_of_eq hsame
  · have hpos : 0 < e.board.outstanding := hpos j (by rw [hd]; exact Multiset.mem_add.mpr (.inl hj))
    have hless' : (e.advance c f).1.outstanding = _ := hless
    rw [hless', if_neg (Nat.pos_iff_ne_zero.mp hpos)]
    exact Nat.sub_le _ _

theorem Settled.outstanding_pos {f : Frame} {O : Multiset Frame} {j : JobId} (h : e.Settled (f ::ₘ O))
    (hj : Due.slot j ∈ f.dues) : 0 < e.outstanding := by
  have hacc := h.books.accounted
  obtain ⟨d₀, hd₀⟩ := Multiset.exists_cons_of_mem hj
  rw [duesIn_cons, hd₀, ← Multiset.singleton_add, add_assoc] at hacc
  exact (hacc.paySlot h.books.sound.safe.graph).1

/-- **One step of an operation that runs alone keeps the invariant.** -/
theorem Settled.advance (h : e.Settled (f ::ₘ O))
    (hO : ∀ g ∈ O, g.kind.still = true) :
    (e.advance c f).1.Settled (((e.advance c f).2 : Multiset Frame) + O) := by
  obtain ⟨d, d', x, hd, hd', hbefore, hafter, hmove⟩ := h.books.sound.step (c := c)
  have hstable := advance_stable h.books.sound.queue c f
  have hsafe := h.books.sound.safe
  have hexact := h.exact
  have hticketed := h.ticketed
  have hmanned := h.manned
  have hcounting := h.counting
  have hswept := h.swept
  rw [hbefore] at hsafe hexact hticketed hmanned hcounting hswept
  refine ⟨h.books.advance (free_of_still hO) (raceFree_of_still hO), ?_, ?_, ?_, ?_, ?_, h.apart.advance, ?_, ?_, ?_⟩
  · rw [hafter]
    refine hexact.move hmove fun hwin y hy => ?_
    rcases Multiset.mem_add.mp hy with hy | hy
    · exact rest_of_window hd hwin y hy
    · exact not_isWindow_of_still hO hy
  · rw [hafter]
    refine hticketed.move hsafe hexact hmove (fun j r hwin hwin' => h.apart.ticket_of_cancel hO hd hd' hwin hwin') ?_
    exact fun j hj => .inr (h.pushed (by rw [hd]; exact Multiset.mem_add.mpr (.inl hj)))
  · rw [hafter]
    exact hmanned.move hsafe hexact hmove
  · rw [hafter]
    exact hcounting.move hsafe hexact hmove
  · rw [hafter]
    exact hswept.move hsafe hexact hmove
  · rw [hstable.cfg]
    exact (outstanding_advance (fun _ hj => h.outstanding_pos hj) h.books.sound).trans h.bounded
  · rw [hstable.kept.capacity, hstable.cfg]
    exact h.capacity
  · rw [hstable.kept.closed]
    exact h.opened

/-! ### Turns -/

theorem duesIn_of_parks {F : Multiset Frame} (h : ∀ g ∈ F, g.parks = true) {x : Due} (hx : x ∈ duesIn F) :
    ∃ j s, x = .copy j s := by
  obtain ⟨g, hg, hxg⟩ := mem_duesIn.mp hx
  have hpark := h g hg
  cases g with
  | handler job info => exact ⟨_, _, Multiset.mem_singleton.mp hxg⟩
  | _ => cases hpark

theorem Apart.spawn {f : Frame} {F : Multiset Frame} (hF : ∀ g ∈ F, g.parks = true) (hcall : Call f) :
    Apart (f ::ₘ F) := by
  have hparked : ∀ g ∈ F, g.kind.claims = false ∧ g.kind.cancels = false := by
    intro g hg
    have hpark := hF g hg
    cases g <;> first | exact ⟨rfl, rfl⟩ | cases hpark
  intro x hx y hy hclaims
  rcases Multiset.mem_cons.mp hx with rfl | hx
  · rcases Multiset.mem_cons.mp hy with rfl | hy
    · cases y <;> first | rfl | cases hclaims
    · exact (hparked y hy).2
  · rw [(hparked x hx).1] at hclaims
    cases hclaims

theorem duesIn_spawn {f : Frame} {F : Multiset Frame} (hcall : Call f) : duesIn (f ::ₘ F) = duesIn F := by
  rw [duesIn_cons, Frame.dues_of_call hcall, zero_add]

theorem Settled.spawn {f : Frame} {F : Multiset Frame} (h : e.Settled F) (hF : ∀ g ∈ F, g.parks = true)
    (hcall : Call f) : e.Settled (f ::ₘ F) := by
  refine ⟨h.books.spawn hcall, ?_, ?_, ?_, ?_, ?_, .spawn hF hcall, h.bounded, h.capacity, h.opened⟩
  all_goals rw [duesIn_spawn hcall]
  · exact h.exact
  · exact h.ticketed
  · exact h.manned
  · exact h.counting
  · exact h.swept

/-- Jobs that got slots have room in the queue. -/
theorem Admitted.fits {N : Finset JobId} {w : WorkflowId} (hadm : e.Admitted e' N w)
    (hcapacity : e.queue.capacity = e.cfg.maxOutstandingJobs) (hlive : e.board.live.card ≤ e.board.outstanding) :
    e.queue.live.card + N.card ≤ e.queue.capacity := by
  have hout : e'.outstanding = e.outstanding + N.card := hadm.admits.outstanding
  calc e.queue.live.card + N.card ≤ e.outstanding + N.card := Nat.add_le_add_right hlive _
    _ = e'.outstanding := hout.symm
    _ ≤ e.cfg.maxOutstandingJobs := hadm.bounded
    _ = e.queue.capacity := hcapacity.symm

theorem Settled.room_of_admitted {F : Multiset Frame} {N : Finset JobId} {w : WorkflowId} (h : e.Settled F)
    (hadm : e.Admitted e' N w) : e.queue.live.card + N.card ≤ e.queue.capacity := by
  have hgraph := h.books.sound.safe.graph
  exact hadm.fits h.capacity (h.ticketed.card_live_le hgraph (h.books.accounted.card_openJobs_le hgraph))

theorem Settled.submits {F : Multiset Frame} (h : e.Settled F) (hF : ∀ g ∈ F, g.parks = true)
    (hsub : Submits e e') : e'.Settled F := by
  have hs := submits_submitted h.books.sound hsub
  have hgraph := h.books.sound.safe.graph
  have hbooks := h.books.submits hsub
  have hcapacity : e'.queue.capacity = e'.cfg.maxOutstandingJobs := by
    rw [hs.kept.capacity, hs.cfg]
    exact h.capacity
  have hopened : e'.queue.closed = false := hs.kept.closed.trans h.opened
  rcases hs.board with ⟨hb, -⟩ | ⟨N, w, hadm⟩
  · have hout : e'.outstanding = e.outstanding := congrArg Board.outstanding hb
    refine ⟨hbooks, ?_, ?_, ?_, ?_, ?_, h.apart, ?_, hcapacity, hopened⟩
    · rw [hb]
      exact h.exact
    · rw [hb]
      exact h.ticketed
    · rw [hb]
      exact h.manned
    · rw [hb]
      exact h.counting
    · rw [hb]
      exact h.swept
    · rw [hout, hs.cfg]
      exact h.bounded
  · have hroom := h.room_of_admitted hadm
    refine ⟨hbooks, h.exact.admits hadm.admits, h.ticketed.admits hadm.admits (hadm.room h.opened hroom).1,
      h.manned.admits h.books.sound.safe hadm.admits, h.counting.admits hgraph hadm.admits,
      h.swept.admits hgraph hadm.admits fun c hmem => ?_, h.apart, ?_, hcapacity, hopened⟩
    · obtain ⟨j, s, hx⟩ := duesIn_of_parks hF hmem
      cases hx
    · rw [hs.cfg]
      exact hadm.bounded

section Runs

variable {cfg : EngineConfig} {types : List String} {world : World} {p p' : Pool JobEngine Frame}

theorem boot_settled (hworld : ∀ n, world.fault n = false) : (boot cfg types world).Settled 0 where
  books := boot_books hworld
  exact k j r hmem := by cases hmem
  ticketed j := rfl
  manned := ⟨fun j t a r hl => (by cases hl), fun j r hr => (by cases hr)⟩
  counting := ⟨fun c r hr => (by cases hr), fun c r hr => (by cases hr)⟩
  swept := ⟨fun p c r hr => (by cases hr), fun c r hmem => (by cases hmem)⟩
  apart f hf := by cases hf
  bounded := Nat.zero_le _
  capacity := rfl
  opened := rfl

/-- Any number of operations, one at a time. -/
abbrev Serial : Pool JobEngine Frame → Pool JobEngine Frame → Prop := engineSystem.Turns Submits Call

theorem atRest_boot : engineSystem.AtRest ⟨boot cfg types world, []⟩ := fun t ht => by cases ht

variable {I : JobEngine → Multiset Frame → Prop} {p p' : Pool JobEngine Frame}

/-- What the steps of an operation that runs alone keep and every restart establishes anew. -/
theorem lives_invariant {R : JobEngine → JobEngine → Prop} (hrun : engineSystem.Lives Submits Call R p p')
    (hp : engineSystem.AtRest p)
    (hadvance : ∀ e c f O, (∀ g ∈ O, g.kind.still = true) → I e (f ::ₘ O) →
      I (e.advance c f).1 (((e.advance c f).2 : Multiset Frame) + O))
    (hsubmits : ∀ e e' F, (∀ g ∈ F, g.parks = true) → Submits e e' → I e F → I e' F)
    (hspawn : ∀ e f F, (∀ g ∈ F, g.parks = true) → Call f → I e F → I e (f ::ₘ F))
    (hrestart : ∀ e e' F, R e e' → I e F → I e' 0) (h : I p.state p.frames) : I p'.state p'.frames :=
  System.Lives.invariant hrun hp (fun _ c f => (advance_follows c f).tail) (fun _ => Frame.still_of_parks) hadvance
    hsubmits hspawn hrestart h

theorem serial_invariant (hrun : Serial p p') (hp : engineSystem.AtRest p)
    (hadvance : ∀ e c f O, (∀ g ∈ O, g.kind.still = true) → I e (f ::ₘ O) →
      I (e.advance c f).1 (((e.advance c f).2 : Multiset Frame) + O))
    (hsubmits : ∀ e e' F, (∀ g ∈ F, g.parks = true) → Submits e e' → I e F → I e' F)
    (hspawn : ∀ e f F, (∀ g ∈ F, g.parks = true) → Call f → I e F → I e (f ::ₘ F)) (h : I p.state p.frames) :
    I p'.state p'.frames :=
  lives_invariant (R := fun _ _ => False) hrun.lives hp hadvance hsubmits hspawn (fun _ _ _ hr => hr.elim) h

end Runs

end JobEngine

end DistributedJobEngine
