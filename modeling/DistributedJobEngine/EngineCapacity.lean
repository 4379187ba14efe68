import DistributedJobEngine.EngineEntries

/-! The slots of the jobs over the lives of the engine: every job that has not ended holds one, so the queue has room
for all of them as long as a restart finds no more of them than it admits. Then no entry is ever missing. -/

namespace DistributedJobEngine

open LibPool LibTable Due

namespace Due

def isSlot : Due → Bool
  | slot _ => true
  | _ => false

end Due

namespace Board

variable {b b' : Board} {D d d' O : Multiset Due} {j : JobId} {r s cur : Stub} {N : Finset JobId} {w : WorkflowId}

/-- Every job that has not ended has a slot, and so does every one that is yet to give its slot back. -/
def Slotted (b : Board) (D : Multiset Due) : Prop := b.openJobs.card + D.countP (·.isSlot) ≤ b.outstanding

theorem openJobs_congr (hids : b'.ids = b.ids) (hended : b'.ended = b.ended) : b'.openJobs = b.openJobs := by
  rw [openJobs, openJobs, hids, hended]

theorem Slotted.quiet (h : b.Slotted (d + O)) (hids : b'.ids = b.ids) (hended : b'.ended = b.ended)
    (hout : b'.outstanding = b.outstanding) (hd' : ∀ x ∈ d', x.isSlot = false) : b'.Slotted (d' + O) := by
  rw [Slotted, Multiset.countP_add] at h ⊢
  rw [openJobs_congr hids hended, hout, countP_eq_zero_of_forall hd']
  omega

theorem isSlot_endDues (s : Stub) (j : JobId) : (s.endDues j).countP (·.isSlot) = 1 := by
  have hthree : ({metric j, callback j, slot j} : Multiset Due).countP (·.isSlot) = 1 := by
    rw [Multiset.insert_eq_cons, Multiset.countP_cons, countP_pair]
    rfl
  rw [Stub.endDues, Multiset.countP_add, hthree, countP_eq_zero_of_forall]
  split_ifs <;> simp [isSlot]

/-- A job that ends keeps its slot until it gives it back. -/
theorem Slotted.ends (h : b.Slotted (d + O)) (hg : b.Graph) (hrow : b.row j = some cur)
    (hopen : cur.state.isTerminal = false) (hend : s.state.isTerminal = true) :
    (b.write j s).Slotted (s.endDues j + O) := by
  have hmem : j ∈ b.openJobs := Finset.mem_filter.mpr
    ⟨(hg.ids j).mpr (by rw [hrow]; rfl), by rw [ended_of_row hrow, hopen]⟩
  have herase : (b.write j s).openJobs = b.openJobs.erase j := by
    ext i
    rw [openJobs, Finset.mem_filter, Finset.mem_erase, openJobs, Finset.mem_filter]
    by_cases hij : i = j
    · subst hij
      simp [ended_of_row (write_row_self hrow), hend]
    · rw [ended_write_of_ne hij]
      simp only [ne_eq, hij, not_false_eq_true, true_and]
      rfl
  rw [Slotted, Multiset.countP_add] at h ⊢
  rw [herase, isSlot_endDues, Finset.card_erase_of_mem hmem]
  have hpos := Finset.card_pos.mpr ⟨j, hmem⟩
  change _ ≤ b.outstanding
  omega

theorem Slotted.move (h : b.Slotted (d + O)) (hs : b.Safe (d + O)) (hmove : Move b d b' d') :
    b'.Slotted (d' + O) := by
  have hwrite : ∀ {k : Window} {j : JobId} {r s : Stub}, window k j r ∈ d → s.state.isTerminal = false →
      s.workflowId = r.workflowId → (b.write j s).ended = b.ended := by
    intro k j r s hmem hst hwf
    obtain ⟨cur, hrow, hwf', ho⟩ := hs.open_of_mem hmem
    exact (sameAccounts_write hrow ho hst (hwf.trans hwf'.symm)).ended
  cases hmove with
  | idle => exact h
  | @flag j r hrun => exact h.quiet rfl (hwrite (k := .cancel) (by simp) (by rw [hrun]; rfl) rfl) rfl (by simp)
  | @launch j r s d' hstate hwf hdeps hd' =>
      refine h.quiet rfl (hwrite (k := .start) (by simp) (by rw [hstate]; rfl) hwf) rfl ?_
      rcases hd' with rfl | rfl <;> simp [isSlot]
  | @retry j r s hstate hwf =>
      exact h.quiet rfl (hwrite (k := .finish) (by simp) (by rw [hstate]; rfl) hwf) rfl (by simp [isSlot])
  | @reassign j r s hstate hwf =>
      exact h.quiet rfl (hwrite (k := .expire) (by simp) (by rw [hstate]; rfl) hwf) rfl (by simp [isSlot])
  | @release c r s hstate hwf =>
      refine h.quiet rfl (hwrite (k := .release) (by simp) ?_ hwf) rfl (by simp [isSlot])
      rcases hstate with hst | hst <;> rw [hst] <;> rfl
  | @conclude k j r s hends hwf =>
      obtain ⟨cur, hrow, -, ho⟩ := hs.open_of_mem (k := k) (j := j) (r := r) (by simp)
      exact h.ends hs.graph hrow ho (Ends.isTerminal hends)
  | @skip c w r s hstate hwf =>
      obtain ⟨cur, hrow, -, ho⟩ := hs.open_of_mem (k := .skip) (j := c) (r := r) (by simp)
      rw [hs.skip_dues hwf hstate]
      exact h.ends hs.graph hrow ho (by rw [hstate]; rfl)
  | @slot j =>
      rw [Slotted, Multiset.countP_add, countP_singleton, show (Due.slot j).isSlot = true from rfl] at h
      rw [Slotted, zero_add]
      change b.openJobs.card + _ ≤ if b.outstanding = 0 then _ else _
      simp only [Bool.toNat_true] at h
      rw [if_neg (by omega)]
      omega
  | @unqueue k j r hk =>
      refine h.quiet rfl rfl rfl fun x hx => ?_
      rcases eq_of_mem_window_entry hx with rfl | rfl <;> rfl
  | _ => exact h.quiet rfl rfl rfl (by simp [isSlot])

theorem Slotted.card_openJobs_le (h : b.Slotted D) : b.openJobs.card ≤ b.outstanding :=
    le_trans (Nat.le_add_right _ _) h

theorem Slotted.pos (h : b.Slotted D) (hj : slot j ∈ D) : 0 < b.outstanding := by
  have hpos : 0 < D.countP (·.isSlot) := Multiset.countP_pos.mpr ⟨_, hj, rfl⟩
  rw [Slotted] at h
  omega

/-- New jobs come with as many slots. -/
theorem Slotted.admits (h : b.Slotted D) (ha : b.Admits b' N w) : b'.Slotted D := by
  have hsub : b'.openJobs ⊆ b.openJobs ∪ N := by
    intro j hj
    rw [openJobs, Finset.mem_filter, ha.ids, Finset.mem_union] at hj
    by_cases hN : j ∈ N
    · exact Finset.mem_union_right _ hN
    · refine Finset.mem_union_left _ (Finset.mem_filter.mpr ⟨hj.1.resolve_right hN, ?_⟩)
      have hended := hj.2
      rwa [ended, ha.old j hN] at hended
  have hcard := (Finset.card_le_card hsub).trans (Finset.card_union_le _ _)
  have hout := ha.outstanding
  rw [Slotted] at h ⊢
  omega

end Board

namespace JobEngine

variable {e e' : JobEngine}

/-- The invariant of an engine whose queue has room for all jobs that have not ended. -/
structure Roomy (e : JobEngine) (F : Multiset Frame) : Prop where
  tended : e.Tended F
  ticketed : e.board.Ticketed (duesIn F)
  slotted : e.board.Slotted (duesIn F)
  bounded : e.outstanding ≤ e.cfg.maxOutstandingJobs
  capacity : e.queue.capacity = e.cfg.maxOutstandingJobs
  opened : e.queue.closed = false

theorem Roomy.pushed {c : Choice} {f : Frame} {O : Multiset Frame} {j : JobId} (h : e.Roomy (f ::ₘ O))
    (hj : Due.requeue j ∈ f.dues) : j ∈ (e.advance c f).1.board.live := by
  have hroom := h.ticketed.card_live_lt h.tended.steady.sound.safe.graph h.slotted.card_openJobs_le
    (mem_duesIn.mpr ⟨f, Multiset.mem_cons_self _ _, hj⟩)
  exact live_of_requeue h.tended.steady.sound.queue h.opened (hroom.trans (h.bounded.trans_eq h.capacity.symm)) hj

theorem Roomy.advance {c : Choice} {f : Frame} {O : Multiset Frame} (h : e.Roomy (f ::ₘ O))
    (hO : ∀ g ∈ O, g.kind.still = true) : (e.advance c f).1.Roomy (((e.advance c f).2 : Multiset Frame) + O) := by
  obtain ⟨d, d', x, hd, hd', hbefore, hafter, hmove⟩ := h.tended.steady.sound.step (c := c)
  have hstable := advance_stable h.tended.steady.sound.queue c f
  have hsafe := h.tended.steady.sound.safe
  have hexact := h.tended.steady.exact
  have hticketed := h.ticketed
  have hslotted := h.slotted
  rw [hbefore] at hsafe hexact hticketed hslotted
  refine ⟨h.tended.advance hO, ?_, ?_, ?_, ?_, hstable.kept.closed.trans h.opened⟩
  · rw [hafter]
    refine hticketed.move hsafe hexact hmove
      (fun j r hwin hwin' => h.tended.apart.ticket_of_cancel hO hd hd' hwin hwin') ?_
    exact fun j hj => .inr (h.pushed (by rw [hd]; exact Multiset.mem_add.mpr (.inl hj)))
  · rw [hafter]
    exact hslotted.move hsafe hmove
  · rw [hstable.cfg]
    refine (outstanding_advance (fun j hj => ?_) h.tended.steady.sound).trans h.bounded
    exact h.slotted.pos (mem_duesIn.mpr ⟨f, Multiset.mem_cons_self _ _, hj⟩)
  · rw [hstable.kept.capacity, hstable.cfg]
    exact h.capacity

theorem Roomy.spawn {f : Frame} {F : Multiset Frame} (h : e.Roomy F) (hF : ∀ g ∈ F, g.parks = true)
    (hcall : Call f) : e.Roomy (f ::ₘ F) := by
  refine ⟨h.tended.spawn hF hcall, ?_, ?_, h.bounded, h.capacity, h.opened⟩
  all_goals rw [duesIn_spawn hcall]
  · exact h.ticketed
  · exact h.slotted

theorem Roomy.submits {F : Multiset Frame} (h : e.Roomy F) (hF : ∀ g ∈ F, g.parks = true)
    (hsub : Submits e e') : e'.Roomy F := by
  have hs := submits_submitted h.tended.steady.sound hsub
  have htended := h.tended.submits hF hsub
  have hcapacity : e'.queue.capacity = e'.cfg.maxOutstandingJobs := by
    rw [hs.kept.capacity, hs.cfg]
    exact h.capacity
  rcases hs.board with ⟨hb, -⟩ | ⟨N, w, hadm⟩
  · have hout : e'.outstanding = e.outstanding := congrArg Board.outstanding hb
    refine ⟨htended, ?_, ?_, ?_, hcapacity, hs.kept.closed.trans h.opened⟩
    · rw [hb]
      exact h.ticketed
    · rw [hb]
      exact h.slotted
    · rw [hout, hs.cfg]
      exact h.bounded
  · have hroom := hadm.fits h.capacity
      (h.ticketed.card_live_le h.tended.steady.sound.safe.graph h.slotted.card_openJobs_le)
    refine ⟨htended, h.ticketed.admits hadm.admits (hadm.room h.opened hroom).1, h.slotted.admits hadm.admits, ?_,
      hcapacity, hs.kept.closed.trans h.opened⟩
    rw [hs.cfg]
    exact hadm.bounded

/-! ### Recovery -/

/-- A restart finds no more jobs that have not ended than the queue can hold. -/
def Fits (cfg : EngineConfig) (kept : List RowWrite) : Prop :=
  ((replay kept).jobs.filter fun job => !job.state.isTerminal).length ≤ cfg.maxOutstandingJobs

section Recovery

variable {cfg : EngineConfig} {types : List String} {world : World} {db : Database} {kept : List RowWrite}

theorem Fits.length_le (h : Fits cfg kept) (hdb : db.Holds kept) :
    db.loadNonTerminalJobs.length ≤ cfg.maxOutstandingJobs := by
  rw [(perm_loadNonTerminalJobs db).length_eq, hdb.jobs]
  exact h

theorem Fits.live_recover (h : Fits cfg kept) (hdb : db.Holds kept) :
    (restart cfg types world db kept).recover.2.queue.live =
      ((db.loadNonTerminalJobs.filter Job.recovers).map (·.jobId)).toFinset := by
  refine JobEngine.live_recover cfg types world db kept ?_
  rw [← (perm_recovers db).length_eq]
  exact (List.length_filter_le _ _).trans (h.length_le hdb)

theorem roomy_recover (h : (restart cfg types world db kept).Chronicle)
    (hst : (restart cfg types world db kept).Stored)
    (hworld : ∀ n, world.fault n = false) (hdb : db.Holds kept) (hfits : Fits cfg kept) :
    (restart cfg types world db kept).recover.2.Roomy 0 := by
  have htended := tended_recover h hst hworld
  have hrec := recover_recovered cfg types world db kept
  have hshape : (restart cfg types world db kept).recover.2.cfg = cfg ∧
      (restart cfg types world db kept).recover.2.outstanding = db.loadNonTerminalJobs.length := by
    obtain ⟨q, log, n, rows, journal, hshape⟩ := hrec.shape
    exact ⟨congrArg JobEngine.cfg hshape, (congrArg JobEngine.outstanding hshape).trans (Nat.zero_add _)⟩
  refine ⟨htended, fun j => ?_, ?_, ?_, ?_, hrec.kept.closed⟩
  · have hspare := htended.spare j
    rw [Board.entries, show (duesIn 0).countP (·.ticket j) = 0 from rfl, add_zero] at hspare ⊢
    by_cases hlive : j ∈ (restart cfg types world db kept).recover.2.board.live
    · rw [if_pos hlive] at hspare ⊢
      exact le_antisymm hspare (Bool.toNat_le _)
    · rw [if_neg hlive]
      cases hwait : (restart cfg types world db kept).recover.2.board.waiting j with
      | false => rfl
      | true =>
          -- a job that waits has recovered
          obtain ⟨r, hr, hw⟩ := Board.waiting_iff.mp hwait
          obtain ⟨row, hrow, rfl⟩ := Option.map_eq_some_iff.mp hr
          replace hw : row.state.isWaiting = true := hw
          refine absurd ?_ hlive
          change j ∈ (restart cfg types world db kept).recover.2.queue.live
          rw [hfits.live_recover hdb, List.mem_toFinset]
          rcases row_recover h hst hworld hrow with ⟨-, hend⟩ | ⟨job, hjob, e₀, -, hid, rfl⟩
          · rw [JobState.isTerminal_eq_false_of_isWaiting hw] at hend
            cases hend
          · exact List.mem_map.mpr ⟨job, List.mem_filter.mpr ⟨hjob, recovers_of_rowAfter hw⟩, hid⟩
  · have hsub : (restart cfg types world db kept).recover.2.board.openJobs ⊆
        (db.loadNonTerminalJobs.map Job.jobId).toFinset := by
      intro j hj
      obtain ⟨hid, hopen⟩ := Finset.mem_filter.mp hj
      obtain ⟨r, hr⟩ := Option.isSome_iff_exists.mp ((htended.steady.sound.safe.graph.ids j).mp hid)
      obtain ⟨row, hrow, rfl⟩ := Option.map_eq_some_iff.mp hr
      rw [Board.ended_of_row hr] at hopen
      rcases row_recover h hst hworld hrow with ⟨-, hend⟩ | ⟨job, hjob, -, -, hid, -⟩
      · rw [show row.state.isTerminal = false from hopen] at hend
        cases hend
      · exact List.mem_toFinset.mpr (List.mem_map.mpr ⟨job, hjob, hid⟩)
    rw [Board.Slotted, show (duesIn 0).countP (·.isSlot) = 0 from rfl, add_zero]
    change _ ≤ (restart cfg types world db kept).recover.2.outstanding
    rw [hshape.2, ← List.length_map (f := Job.jobId)]
    exact (Finset.card_le_card hsub).trans (List.toFinset_card_le _)
  · rw [hshape.1, hshape.2]
    exact hfits.length_le hdb
  · rw [hshape.1]
    exact hrec.kept.capacity

theorem Roomy.restarts {F : Multiset Frame} (h : e.Roomy F)
    (hr : RestartsWith (fun cfg _ kept => Fits cfg kept) e e') :
    e'.Roomy 0 := by
  obtain ⟨hkept, hdb, hworld, hfits⟩ := hr
  have hchronicle := h.tended.steady.chronicle
  exact roomy_recover (hchronicle.restart hkept hdb) (.restart hchronicle hkept hdb) hworld hdb hfits

theorem boot_roomy (hworld : ∀ n, world.fault n = false) : (boot cfg types world).Roomy 0 :=
  ⟨boot_tended hworld, fun _ => rfl, Nat.le_refl 0, Nat.zero_le _, rfl, rfl⟩

end Recovery

end JobEngine

end DistributedJobEngine
