import DistributedJobEngine.BoardSafety

/-! Every move keeps the board safe. The condition on a move that ends a job is that no other operation has
a window on its row; the moves under `run_mutex_` rely on there being one locked window at a time. -/

namespace DistributedJobEngine

open Due Window

namespace Board

variable {b b' : Board} {D d d' O : Multiset Due} {j p c : JobId} {r s cur old : Stub} {k : Window}

theorem Safe.agrees (h : b.Safe D) (hx : window k j old ∈ D) (hrow : b.row j = some cur) :
    cur.workflowId = old.workflowId ∧ b.Agrees j k old cur := by
  obtain ⟨x, hx, hwf, hag⟩ := h.fact _ hx
  rw [hrow, Option.some.injEq] at hx
  subst hx
  exact ⟨hwf, hag⟩

/-- Whoever has a locked window has the only one. -/
theorem Safe.not_locked (h : b.Safe (d + O)) {x : Due} (hx : x ∈ d) (hlocked : x.locked = true) :
    ∀ y ∈ O, y.locked = false := by
  intro y hy
  by_contra hc
  have h1 : 0 < d.countP (·.locked) := Multiset.countP_pos.mpr ⟨x, hx, hlocked⟩
  have h2 : 0 < O.countP (·.locked) := Multiset.countP_pos.mpr ⟨y, hy, by simpa using hc⟩
  have h3 := h.mutex
  rw [Multiset.countP_add] at h3
  omega

/-- At most one window ends the attempt of a job. -/
theorem Safe.not_finishing_other (h : b.Safe (d + O)) {x : Due} (hx : x ∈ d) (hfin : x.finishing j = true) :
    ∀ y ∈ O, y.finishing j = false := by
  intro y hy
  by_contra hc
  have h1 : 0 < d.countP (·.finishing j) := Multiset.countP_pos.mpr ⟨x, hx, hfin⟩
  have h2 : 0 < O.countP (·.finishing j) := Multiset.countP_pos.mpr ⟨y, hy, by simpa using hc⟩
  have h3 := h.finishing j
  rw [Multiset.countP_add] at h3
  omega

theorem Safe.not_releasing_other (h : b.Safe (d + O)) {x : Due} (hx : x ∈ d) (hrel : x.releasing c = true) :
    ∀ y ∈ O, y.releasing c = false := by
  intro y hy
  by_contra hc
  have h1 : 0 < d.countP (·.releasing c) := Multiset.countP_pos.mpr ⟨x, hx, hrel⟩
  have h2 : 0 < O.countP (·.releasing c) := Multiset.countP_pos.mpr ⟨y, hy, by simpa using hc⟩
  have h3 := h.releasing c
  rw [Multiset.countP_add] at h3
  omega

/-- Every window is on an open row. -/
theorem Agrees.open (h : b.Agrees j k old cur) : cur.state.isTerminal = false := by
  cases k with
  | cancel =>
      simp only [Agrees] at h
      split_ifs at h
      · rcases h.1 with h | h <;> rw [h] <;> rfl
      · exact h.1
  | start => exact JobState.isTerminal_eq_false_of_isWaiting h.2.1
  | finish => rw [h.1]; rfl
  | expire => rw [h.1]; rfl
  | release => rw [h.1]; rfl
  | skip => rw [h.1]; rfl

/-- The row that a due is about has not ended. -/
theorem Safe.open_of_mem {k : Window} (h : b.Safe (d + O)) (hmem : window k j r ∈ d) :
    ∃ cur, b.row j = some cur ∧ cur.workflowId = r.workflowId ∧ cur.state.isTerminal = false := by
  obtain ⟨cur, hrow, hwf, hag⟩ := h.of_mem hmem
  exact ⟨cur, hrow, hwf, hag.open⟩

theorem not_held_running : ¬ Held .running := by simp [Held]

/-! ### Writes -/

theorem Safe.flag (h : b.Safe ({window cancel j r} + O)) (hrun : r.state = .running) :
    (b.write j r).Safe (0 + O) := by
  obtain ⟨cur, hrow, hwf, hag⟩ := h.of_mem (Multiset.mem_singleton_self _)
  have hopen := hag.open
  simp only [Agrees, hrun, if_true] at hag
  have hnl := h.not_locked (Multiset.mem_singleton_self _) rfl
  refine (wrote_write b j r).safe h hrow hopen hwf.symm (by rw [hrun]; decide) (fun _ => hrun) ?_ (by simp)
    (by simp) (by simp) (by simp) ?_ (fun _ => hag.2)
  · intro k old hx
    have hag' := (h.agrees (Multiset.mem_add.mpr (.inr hx)) hrow).2
    cases k with
    | cancel => exact absurd (hnl _ hx) (by simp [Due.locked])
    | start => exact absurd (hnl _ hx) (by simp [Due.locked])
    | expire => exact absurd (hnl _ hx) (by simp [Due.locked])
    | finish => exact ⟨hrun, hag'.2⟩
    | release => rcases hag.1 with hc | hc <;> rw [hag'.1] at hc <;> cases hc
    | skip => rcases hag.1 with hc | hc <;> rw [hag'.1] at hc <;> cases hc
  · intro _ p hp
    refine h.parents j cur hrow ?_ p hp
    rcases hag.1 with hc | hc <;> rw [hc] <;> simp [Held]

theorem Safe.launch (h : b.Safe ({window start j r, held j} + O)) (hstate : s.state = .running)
    (hwf : s.workflowId = r.workflowId) (hdeps : s.deps = r.deps) (hd' : d' = 0 ∨ d' = {Due.copy j s.base}) :
    (b.grant j s).Safe (d' + O) := by
  have hmem : window start j r ∈ ({window start j r, held j} : Multiset Due) := by simp
  obtain ⟨cur, hrow, hwf', hag⟩ := h.of_mem hmem
  have hopen := hag.open
  obtain ⟨-, hwait, hnone, hle⟩ := hag
  rw [← hdeps] at hle
  have hw : b.Wrote (b.grant j s) j s :=
    ⟨rfl, fun i hi => by simp [grant, hi], rfl, rfl, rfl, rfl⟩
  have hrow' := hw.row_self hrow
  have hnl := h.not_locked hmem rfl
  have hd'' : ∀ x ∈ d', x = Due.copy j s.base := by
    intro x hx
    rcases hd' with rfl | rfl
    · cases Multiset.notMem_zero x hx
    · exact Multiset.mem_singleton.mp hx
  have hunr : ∀ p, d'.count (.unreleased p) = 0 := by
    intro p
    rw [Multiset.count_eq_zero]
    intro hx
    cases hd'' _ hx
  refine hw.safe h hrow hopen (by rw [hwf, hwf']) (by rw [hstate]; decide) (fun _ => hstate) ?_ ?_ ?_
    (fun p _ => by rw [hunr]; exact Nat.zero_le _) (by rw [hunr]; exact Nat.zero_le _)
    (fun _ p hp => h.parents j cur hrow (not_held_of_isWaiting hwait) p hp) (fun _ => hle)
  · intro k old hx
    have hag' := (h.agrees (Multiset.mem_add.mpr (.inr hx)) hrow).2
    cases k with
    | cancel => exact absurd (hnl _ hx) (by simp [Due.locked])
    | start => exact absurd (hnl _ hx) (by simp [Due.locked])
    | expire => exact absurd (hnl _ hx) (by simp [Due.locked])
    | finish => rw [hag'.1] at hwait; cases hwait
    | release => rw [hag'.1] at hwait; cases hwait
    | skip => rw [hag'.1] at hwait; cases hwait
  · intro x hx
    rw [hd'' x hx]
    exact ⟨s, hrow', rfl, .inl hle⟩
  · intro x hx
    rw [hd'' x hx]
    rfl

theorem plain_requeue : ∀ x ∈ ({requeue j} : Multiset Due), x.plain = true := by
  intro x hx
  rw [Multiset.mem_singleton.mp hx]
  rfl

/-- An attempt that is over, or whose lease has expired, and the row that puts its job back on the queue. -/
theorem Safe.rewait {k : Window} (h : b.Safe ({window k j r} + O)) (hk : k = finish ∨ k = expire)
    (hstate : s.state = .retrying ∨ s.state = .queued) (hwf : s.workflowId = r.workflowId) (hdeps : s.deps = r.deps)
    (hcancel : ∀ old, window cancel j old ∈ O → s.state = .retrying) : (b.write j s).Safe ({requeue j} + O) := by
  obtain ⟨cur, hrow, hwf', hag⟩ := h.of_mem (Multiset.mem_singleton_self _)
  have hopen := hag.open
  obtain ⟨hrun, hnone, hle⟩ : cur.state = .running ∧ b.lease j = none ∧ r.deps ≤ 0 := by
    rcases hk with rfl | rfl <;> exact hag
  have hnf := h.not_finishing_other (j := j) (Multiset.mem_singleton_self _)
    (by rcases hk with rfl | rfl <;> simp [Due.finishing])
  refine (wrote_write b j s).safe h hrow hopen (by rw [hwf, hwf']) (by rcases hstate with h | h <;> rw [h] <;> decide)
    ?_ ?_ (by simp [Fact]) plain_requeue (by simp) (by simp)
    (fun _ p hp => h.parents j cur hrow (by rw [hrun]; exact not_held_running) p hp)
    (fun _ => by rw [hdeps]; exact hle)
  · intro hsome
    rw [show (b.write j s).lease j = b.lease j from rfl, hnone] at hsome
    cases hsome
  · intro k old hx
    have hag' := (h.agrees (Multiset.mem_add.mpr (.inr hx)) hrow).2
    cases k with
    | cancel =>
        have hretry := hcancel old hx
        simp only [Agrees] at hag' ⊢
        split_ifs at hag' ⊢ with hold
        · exact ⟨.inr hretry, hag'.2⟩
        · exact absurd hrun hag'.2.1
    | start => exact absurd hag'.2.1 (by rw [hrun]; decide)
    | finish => exact absurd (hnf _ hx) (by simp [Due.finishing])
    | expire => exact absurd (hnf _ hx) (by simp [Due.finishing])
    | release => cases hag'.1.symm.trans hrun
    | skip => cases hag'.1.symm.trans hrun

theorem Safe.retry (h : b.Safe ({window finish j r} + O)) (hstate : s.state = .retrying)
    (hwf : s.workflowId = r.workflowId) (hdeps : s.deps = r.deps) : (b.write j s).Safe ({requeue j} + O) :=
  h.rewait (.inl rfl) (.inl hstate) hwf hdeps fun _ _ => hstate

theorem Safe.reassign (h : b.Safe ({window expire j r} + O)) (hstate : s.state = .queued)
    (hwf : s.workflowId = r.workflowId) (hdeps : s.deps = r.deps) : (b.write j s).Safe ({requeue j} + O) := by
  have hnl := h.not_locked (Multiset.mem_singleton_self _) rfl
  exact h.rewait (.inr rfl) (.inr hstate) hwf hdeps fun _ hx => absurd (hnl _ hx) (by simp [Due.locked])

theorem Safe.release (h : b.Safe ({window release c r} + O)) (hstate : s.state = .queued ∨ s.state = .scheduled)
    (hwf : s.workflowId = r.workflowId) (hdeps : s.deps = 0) : (b.write c s).Safe ({requeue c} + O) := by
  obtain ⟨cur, hrow, hwf', hag⟩ := h.of_mem (Multiset.mem_singleton_self _)
  have hopen := hag.open
  obtain ⟨hpend, hparents⟩ := hag
  have hnr := h.not_releasing_other (c := c) (Multiset.mem_singleton_self _) (by simp [Due.releasing])
  have hnone : b.lease c = none := by
    by_contra hc
    obtain ⟨x, hx, hrun⟩ := h.lease c (Option.isSome_iff_ne_none.mpr hc)
    rw [hrow, Option.some.injEq] at hx
    subst hx
    rw [hpend] at hrun
    cases hrun
  refine (wrote_write b c s).safe h hrow hopen (by rw [hwf, hwf']) (by rcases hstate with h | h <;> rw [h] <;> decide)
    ?_ ?_ (by simp [Fact]) plain_requeue (by simp) (by simp) (fun _ => hparents) (fun _ => by rw [hdeps])
  · intro hsome
    rw [show (b.write c s).lease c = b.lease c from rfl, hnone] at hsome
    cases hsome
  · intro k old hx
    have hag' := (h.agrees (Multiset.mem_add.mpr (.inr hx)) hrow).2
    cases k with
    | cancel =>
        simp only [Agrees] at hag' ⊢
        split_ifs at hag' ⊢ with hold
        · rcases hag'.1 with hc | hc <;> rw [hpend] at hc <;> cases hc
        · refine ⟨?_, ?_, hag'.2.2⟩ <;> rcases hstate with h | h <;> rw [h] <;> decide
    | start => exact absurd hag'.2.1 (by rw [hpend]; decide)
    | finish => cases hag'.1.symm.trans hpend
    | expire => cases hag'.1.symm.trans hpend
    | release => exact absurd (hnr _ hx) (by simp [Due.releasing])
    | skip =>
        obtain ⟨-, p, hp, x, hx, -, hbad⟩ := hag'
        obtain ⟨y, hy, hs⟩ := hparents p hp
        rw [hx, Option.some.injEq] at hy
        subst hy
        exact absurd hs hbad

/-! ### The end of a job -/

theorem mem_endDues {x : Due} (hx : x ∈ s.endDues j) :
    x = .metric j ∨ x = .callback j ∨ x = .slot j ∨
    (s.workflowId ≠ "" ∧ s.state = .succeeded ∧ (x = .unit j s.workflowId false ∨ x = .unreleased j)) ∨
    (s.workflowId ≠ "" ∧ s.state ≠ .succeeded ∧ (x = .unit j s.workflowId true ∨ x = .expand j s.workflowId)) := by
  unfold Stub.endDues at hx
  split_ifs at hx with hwf hs <;> simp at hx <;> tauto

theorem plain_endDues : ∀ x ∈ s.endDues j, x.plain = true := by
  intro x hx
  rcases mem_endDues hx with rfl | rfl | rfl | ⟨-, -, rfl | rfl⟩ | ⟨-, -, rfl | rfl⟩ <;> rfl

theorem count_unreleased_endDues (p : JobId) :
    (s.endDues j).count (.unreleased p) ≤ if p = j then 1 else 0 := by
  unfold Stub.endDues
  split_ifs <;> simp_all

theorem fact_endDues (hrow : b.row j = some s) (hend : s.state.isTerminal = true) : ∀ x ∈ s.endDues j, b.Fact x := by
  intro x hx
  rcases mem_endDues hx with rfl | rfl | rfl | ⟨hwf, hs, rfl | rfl⟩ | ⟨hwf, hs, rfl | rfl⟩
  · trivial
  · trivial
  · trivial
  · exact ⟨s, hrow, rfl, hwf, hend, by simp [hs]⟩
  · exact ⟨s, hrow, hs⟩
  · exact ⟨s, hrow, rfl, hwf, hend, by simp [hs]⟩
  · exact ⟨s, hrow, rfl, hend, hs⟩

theorem Ends.isTerminal {st : JobState} (h : k.Ends r st) : st.isTerminal = true := by
  cases k with
  | cancel => rw [h.2]; rfl
  | start => rw [show st = .cancelled from h]; rfl
  | finish => exact h.1
  | expire => rw [show st = .failed from h]; rfl
  | release => cases h
  | skip => cases h

/-- Whoever ends a job has a window on a row that is not leased. -/
theorem Safe.lease_of_ends (h : b.Safe (d + O)) (hx : window k j r ∈ d) {st : JobState} (hends : k.Ends r st) :
    b.lease j = none := by
  obtain ⟨cur, -, -, hag⟩ := h.of_mem hx
  cases k with
  | cancel =>
      simp only [Agrees, hends.1, if_false] at hag
      exact hag.2.2
  | start => exact hag.2.2.1
  | finish => exact hag.2.1
  | expire => exact hag.2.1
  | release => cases hends
  | skip => cases hends

theorem Safe.conclude (h : b.Safe ({window k j r} + k.entry j r + O)) (hends : k.Ends r s.state)
    (hwf : s.workflowId = r.workflowId) (hrace : ∀ x ∈ O, x.onRow j = false) :
    (b.write j s).Safe (s.endDues j + O) := by
  have hmem : window k j r ∈ ({window k j r} + k.entry j r : Multiset Due) := by simp
  have hend := Ends.isTerminal hends
  obtain ⟨cur, hrow, hwf', hag⟩ := h.of_mem hmem
  have hrow' : (b.write j s).row j = some s := write_row_self hrow
  refine (wrote_write b j s).safe h hrow hag.open (by rw [hwf, hwf']) ?_ ?_ ?_ (fact_endDues hrow' hend) plain_endDues
    ?_ ?_ ?_ (fun ho => by rw [hend] at ho; cases ho)
  · intro hp
    rw [hp] at hend
    cases hend
  · intro hsome
    rw [show (b.write j s).lease j = b.lease j from rfl, h.lease_of_ends hmem hends] at hsome
    cases hsome
  · intro k' old hx
    have hx' := hrace _ hx
    simp [Due.onRow] at hx'
  · intro p hp
    have hle := count_unreleased_endDues (s := s) (j := j) p
    rw [if_neg hp] at hle
    omega
  · have hle := count_unreleased_endDues (s := s) (j := j) j
    rwa [if_pos rfl] at hle
  · intro hheld p hp
    cases k with
    | cancel => exact absurd (.inr (.inl hends.2)) hheld
    | start => exact absurd (.inr (.inl hends)) hheld
    | finish => exact h.parents j cur hrow (by rw [hag.1]; exact not_held_running) p hp
    | expire => exact h.parents j cur hrow (by rw [hag.1]; exact not_held_running) p hp
    | release => cases hends
    | skip => cases hends

/-- What the walk owes for a descendant it skipped is what any operation owes for a job it ended. -/
theorem Safe.skip_dues {w : WorkflowId} (h : b.Safe ({window skip c r, doomed c w} + O))
    (hwf : s.workflowId = r.workflowId) (hstate : s.state = .skipped) :
    ({metric c, callback c, slot c, unit c w true, expand c w} : Multiset Due) = s.endDues c := by
  obtain ⟨cur, hrow, hwf', -⟩ := h.of_mem (x := window skip c r) (by simp)
  obtain ⟨⟨x, hx, hxw⟩, p, hpc, -⟩ := h.of_mem (x := doomed c w) (by simp)
  rw [hrow, Option.some.injEq] at hx
  subst hx
  have hw : s.workflowId = w := by rw [hwf, ← hwf', hxw]
  have hne : w ≠ "" := by
    obtain ⟨rp, rc, -, hrc, heq, hne⟩ := h.graph.edge p c hpc
    rw [hrow, Option.some.injEq] at hrc
    subst hrc
    rw [← hxw, ← heq]
    exact hne
  have hns : s.state ≠ .succeeded := by rw [hstate]; decide
  rw [Stub.endDues, hw, if_neg hne, if_neg hns]
  rfl

theorem Safe.skip {w : WorkflowId} (h : b.Safe ({window skip c r, doomed c w} + O)) (hstate : s.state = .skipped)
    (hwf : s.workflowId = r.workflowId) (hrace : ∀ x ∈ O, x.onRow c = false) :
    (b.write c s).Safe ({metric c, callback c, slot c, unit c w true, expand c w} + O) := by
  have hend : s.state.isTerminal = true := by rw [hstate]; rfl
  obtain ⟨cur, hrow, hwf', hpend, -⟩ := h.of_mem (x := window Window.skip c r) (by simp)
  have hrow' : (b.write c s).row c = some s := write_row_self hrow
  rw [h.skip_dues hwf hstate]
  refine (wrote_write b c s).safe h hrow (by rw [hpend]; rfl) (by rw [hwf, hwf']) (by rw [hstate]; decide) ?_ ?_
    (fact_endDues hrow' hend) plain_endDues ?_ ?_ (fun hheld => absurd (.inr (.inr hstate)) hheld)
    (fun ho => by rw [hend] at ho; cases ho)
  · intro hsome
    obtain ⟨y, hy, hrun⟩ := h.lease c hsome
    rw [hrow, Option.some.injEq] at hy
    subst hy
    cases hpend.symm.trans hrun
  · intro k' old hx
    have hx' := hrace _ hx
    simp [Due.onRow] at hx'
  · intro q hq
    have hle := count_unreleased_endDues (s := s) (j := c) q
    rw [if_neg hq] at hle
    omega
  · have hle := count_unreleased_endDues (s := s) (j := c) c
    rwa [if_pos rfl] at hle

/-! ### Reads -/

/-- New dues that are plain and not `unreleased` need only their facts. -/
theorem Safe.plain (h : b.Safe (d + O)) (hfact : ∀ x ∈ d', b.Fact x) (hplain : ∀ x ∈ d', x.plain = true)
    (hunr : ∀ p, Due.unreleased p ∉ d') : b.Safe (d' + O) := by
  refine h.reads rfl rfl rfl rfl rfl rfl hfact ?_ (fun j => ?_) (fun c => ?_) (fun p => ?_)
  · have h1 := h.mutex
    rw [Multiset.countP_add] at h1 ⊢
    rw [countP_eq_zero_of_forall fun x hx => locked_of_plain (hplain x hx)]
    omega
  · rw [countP_eq_zero_of_forall fun x hx => finishing_of_plain (hplain x hx) j]
    exact Nat.zero_le _
  · rw [countP_eq_zero_of_forall fun x hx => releasing_of_plain (hplain x hx) c]
    exact Nat.zero_le _
  · rw [Multiset.count_eq_zero_of_notMem (hunr p)]
    exact Nat.zero_le _

/-- A step that touches neither rows, leases, edges nor counters and leaves no new windows. -/
theorem Safe.elsewhere (h : b.Safe (d + O)) (hids : b'.ids = b.ids) (hrow : b'.row = b.row)
    (hdeps : b'.deps = b.deps) (hchildren : b'.children = b.children) (hpending : b'.pending = b.pending)
    (hlease : b'.lease = b.lease) (hfact : ∀ x ∈ d', b.Fact x) (hplain : ∀ x ∈ d', x.plain = true)
    (hunr : ∀ p, Due.unreleased p ∉ d') : b'.Safe (d' + O) := by
  have h1 := h.plain hfact hplain hunr
  refine h1.reads hids hrow hdeps hchildren hpending hlease hfact h1.mutex ?_ ?_ ?_ <;> intro <;> exact le_rfl

theorem Safe.openCancel (h : b.Safe (0 + O)) (hrow : b.row j = some r) (hopen : r.state.isTerminal = false)
    (hmutex : (({window cancel j r} : Multiset Due) + O).countP (·.locked) ≤ 1) :
    b.Safe ({window cancel j r} + O) := by
  refine h.reads rfl rfl rfl rfl rfl rfl ?_ hmutex ?_ ?_ (by simp)
  · intro x hx
    rw [Multiset.mem_singleton.mp hx]
    refine ⟨r, hrow, rfl, ?_⟩
    simp only [Agrees]
    split_ifs with hrun
    · exact ⟨.inl hrun, (h.column j r hrow).2 hopen (by rw [hrun]; decide)⟩
    · refine ⟨hopen, hrun, ?_⟩
      by_contra hc
      obtain ⟨y, hy, hs⟩ := h.lease j (Option.isSome_iff_ne_none.mpr hc)
      rw [hrow, Option.some.injEq] at hy
      subst hy
      exact hrun hs
  · intro i
    rw [countP_eq_zero_of_forall fun x hx => by rw [Multiset.mem_singleton.mp hx]; rfl]
    exact Nat.zero_le _
  · intro i
    rw [countP_eq_zero_of_forall fun x hx => by rw [Multiset.mem_singleton.mp hx]; rfl]
    exact Nat.zero_le _

theorem Safe.openStart (h : b.Safe ({held j} + O)) (hrow : b.row j = some r) (hwait : r.state.isWaiting = true)
    (hmutex : (({window start j r, held j} : Multiset Due) + O).countP (·.locked) ≤ 1) :
    b.Safe ({window start j r, held j} + O) := by
  have hmem : ∀ {x : Due}, x ∈ ({window start j r, held j} : Multiset Due) → x = window start j r ∨ x = held j := by
    intro x hx
    simpa using hx
  refine h.reads rfl rfl rfl rfl rfl rfl ?_ hmutex ?_ ?_ (by simp)
  · intro x hx
    rcases hmem hx with rfl | rfl
    · have hopen := JobState.isTerminal_eq_false_of_isWaiting hwait
      have hnp : r.state ≠ .pending := by
        intro hp
        rw [hp] at hwait
        cases hwait
      refine ⟨r, hrow, rfl, rfl, hwait, ?_, (h.column j r hrow).2 hopen hnp⟩
      by_contra hc
      obtain ⟨y, hy, hs⟩ := h.lease j (Option.isSome_iff_ne_none.mpr hc)
      rw [hrow, Option.some.injEq] at hy
      subst hy
      rw [hs] at hwait
      cases hwait
    · trivial
  · intro i
    rw [countP_eq_zero_of_forall fun x hx => by rcases hmem hx with rfl | rfl <;> rfl]
    exact Nat.zero_le _
  · intro i
    rw [countP_eq_zero_of_forall fun x hx => by rcases hmem hx with rfl | rfl <;> rfl]
    exact Nat.zero_le _

theorem Safe.openRelease (h : b.Safe ({ready c} + O)) (hrow : b.row c = some r) (hpend : r.state = .pending) :
    b.Safe ({window Window.release c r} + O) := by
  obtain ⟨-, hparents⟩ := h.of_mem (Multiset.mem_singleton_self _)
  refine h.reads rfl rfl rfl rfl rfl rfl ?_ ?_ ?_ ?_ (by simp)
  · intro x hx
    rw [Multiset.mem_singleton.mp hx]
    exact ⟨r, hrow, rfl, hpend, hparents⟩
  · have h1 := h.mutex
    rw [Multiset.countP_add] at h1 ⊢
    rw [countP_eq_zero_of_forall fun x hx => by rw [Multiset.mem_singleton.mp hx]; rfl]
    omega
  · intro i
    rw [countP_eq_zero_of_forall fun x hx => by rw [Multiset.mem_singleton.mp hx]; rfl]
    exact Nat.zero_le _
  · intro i
    rw [← Multiset.cons_zero, ← Multiset.cons_zero, Multiset.countP_cons, Multiset.countP_cons]
    exact le_rfl

theorem Safe.openSkip {w : WorkflowId} (h : b.Safe ({doomed c w} + O)) (hrow : b.row c = some r)
    (hopen : r.state.isTerminal = false) : b.Safe ({doomed c w, window Window.skip c r, closed c} + O) := by
  have hfact := h.of_mem (Multiset.mem_singleton_self (doomed c w))
  have hpend : r.state = .pending := by
    rcases h.held_of_doomed (Multiset.mem_add.mpr (.inl (Multiset.mem_singleton_self _))) hrow with hs | hs | hs
    · exact hs
    · rw [hs] at hopen
      cases hopen
    · rw [hs] at hopen
      cases hopen
  have hmem : ∀ {x : Due}, x ∈ ({doomed c w, window Window.skip c r, closed c} : Multiset Due) →
      x = doomed c w ∨ x = window Window.skip c r ∨ x = closed c := by
    intro x hx
    simpa using hx
  refine h.reads rfl rfl rfl rfl rfl rfl ?_ ?_ ?_ ?_ (by simp)
  · intro x hx
    rcases hmem hx with rfl | rfl | rfl
    · exact hfact
    · exact ⟨r, hrow, rfl, hpend, hfact.2⟩
    · trivial
  · have h1 := h.mutex
    rw [Multiset.countP_add] at h1 ⊢
    rw [countP_eq_zero_of_forall fun x hx => by rcases hmem hx with rfl | rfl | rfl <;> rfl]
    omega
  · intro i
    rw [countP_eq_zero_of_forall fun x hx => by rcases hmem hx with rfl | rfl | rfl <;> rfl]
    exact Nat.zero_le _
  · intro i
    rw [countP_eq_zero_of_forall fun x hx => by rcases hmem hx with rfl | rfl | rfl <;> rfl]
    exact Nat.zero_le _

theorem Safe.openExpire (h : b.Safe (0 + O)) (hlease : (b.lease j).isSome) (hrow : b.row j = some r)
    (hrun : r.state = .running) (hmutex : (({window expire j r} : Multiset Due) + O).countP (·.locked) ≤ 1) :
    (b.unlease j).Safe ({window expire j r} + O) := by
  refine h.unlease hlease ?_ hmutex ?_ ?_ (fun c => ?_) (by simp)
  · intro x hx
    rw [Multiset.mem_singleton.mp hx]
    exact ⟨r, hrow, rfl, hrun, by simp [Board.unlease],
      (h.column j r hrow).2 (by rw [hrun]; rfl) (by rw [hrun]; decide)⟩
  · intro i hi
    rw [countP_eq_zero_of_forall fun x hx => by rw [Multiset.mem_singleton.mp hx]; simp [Due.finishing, hi.symm]]
  · rw [← Multiset.cons_zero, Multiset.countP_cons]
    split_ifs <;> simp
  · rw [countP_eq_zero_of_forall fun x hx => by rw [Multiset.mem_singleton.mp hx]; rfl]

theorem Safe.fence (h : b.Safe ({Due.copy j s} + O)) (hlease : (b.lease j).isSome) :
    (b.unlease j).Safe ({window finish j s} + O) := by
  obtain ⟨r, hrow, hwf, hdeps⟩ := h.of_mem (Multiset.mem_singleton_self (Due.copy j s))
  obtain ⟨y, hy, hrun⟩ := h.lease j hlease
  rw [hrow, Option.some.injEq] at hy
  subst hy
  have hle : s.deps ≤ 0 := by
    rcases hdeps with hle | hend
    · exact hle
    · rw [hrun] at hend
      cases hend
  refine h.unlease hlease ?_ ?_ ?_ ?_ (fun c => ?_) (by simp)
  · intro x hx
    rw [Multiset.mem_singleton.mp hx]
    exact ⟨r, hrow, hwf, hrun, by simp [Board.unlease], hle⟩
  · have h1 := h.mutex
    rw [Multiset.countP_add] at h1 ⊢
    rw [countP_eq_zero_of_forall fun x hx => by rw [Multiset.mem_singleton.mp hx]; rfl]
    omega
  · intro i hi
    rw [countP_eq_zero_of_forall fun x hx => by rw [Multiset.mem_singleton.mp hx]; simp [Due.finishing, hi.symm]]
  · rw [← Multiset.cons_zero, Multiset.countP_cons]
    split_ifs <;> simp
  · rw [countP_eq_zero_of_forall fun x hx => by rw [Multiset.mem_singleton.mp hx]; rfl]

/-- A leased job has a row that is not `PENDING`. -/
theorem Safe.seek (h : b.Safe (0 + O)) (hlease : (b.lease j).isSome) : b.Safe ({Due.seek j} + O) := by
  obtain ⟨r, hrow, hrun⟩ := h.lease j hlease
  refine h.plain ?_ ?_ (by simp) <;> intro x hx <;> rw [Multiset.mem_singleton.mp hx]
  · exact ⟨r, hrow, by rw [hrun]; decide⟩
  · rfl

theorem Safe.readCopy (h : b.Safe ({Due.seek j} + O)) (hrow : b.row j = some r) :
    b.Safe ({Due.copy j r.base} + O) := by
  obtain ⟨y, hy, hne⟩ := h.of_mem (Multiset.mem_singleton_self (Due.seek j))
  rw [hrow, Option.some.injEq] at hy
  subst hy
  refine h.plain ?_ ?_ (by simp) <;> intro x hx <;> rw [Multiset.mem_singleton.mp hx]
  · refine ⟨r, hrow, rfl, ?_⟩
    cases hend : r.state.isTerminal with
    | true => exact .inr rfl
    | false => exact .inl ((h.column j r hrow).2 hend hne)
  · rfl

theorem Safe.passSkip {w : WorkflowId} (h : b.Safe ({doomed c w} + O)) (hrow : b.row c = some r)
    (hend : r.state.isTerminal = true) : b.Safe ({expand c w, closed c} + O) := by
  obtain ⟨⟨y, hy, hwf⟩, -⟩ := h.of_mem (Multiset.mem_singleton_self (doomed c w))
  rw [hrow, Option.some.injEq] at hy
  subst hy
  have hns : r.state ≠ .succeeded := by
    intro hs
    have hheld := h.held_of_doomed (Multiset.mem_add.mpr (.inl (Multiset.mem_singleton_self _))) hrow
    simp [Held, hs] at hheld
  have hmem : ∀ {x : Due}, x ∈ ({expand c w, closed c} : Multiset Due) → x = expand c w ∨ x = closed c := by
    intro x hx
    simpa using hx
  refine h.plain ?_ ?_ (by simp) <;> intro x hx <;> rcases hmem hx with rfl | rfl
  · exact ⟨r, hrow, hwf, hend, hns⟩
  · trivial
  · rfl
  · rfl

/-- The children of a job that did not succeed are doomed. -/
theorem Safe.expand {w : WorkflowId} (h : b.Safe ({Due.expand p w} + O)) :
    b.Safe (((b.children p).map (doomed · w) : List Due) + O) := by
  obtain ⟨r, hrow, hwf, hend, hns⟩ := h.of_mem (Multiset.mem_singleton_self (Due.expand p w))
  refine h.plain ?_ ?_ (by simp)
  · intro x hx
    obtain ⟨c, hc, rfl⟩ := List.mem_map.mp (Multiset.mem_coe.mp hx)
    have hpc := (h.graph.children p c).mp hc
    obtain ⟨rp, rc, hrp, hrc, heq, -⟩ := h.graph.edge p c hpc
    rw [hrow, Option.some.injEq] at hrp
    subst hrp
    exact ⟨⟨rc, hrc, by rw [← heq, hwf]⟩, p, hpc, r, hrow, hend, hns⟩
  · intro x hx
    obtain ⟨c, -, rfl⟩ := List.mem_map.mp (Multiset.mem_coe.mp hx)
    rfl

theorem mem_entry {x : Due} (hx : x ∈ k.entry j r) : x = held j := by
  cases k with
  | start => exact Multiset.mem_singleton.mp hx
  | cancel =>
      simp only [Window.entry] at hx
      split_ifs at hx
      · exact Multiset.mem_singleton.mp hx
      · cases Multiset.notMem_zero _ hx
  | finish => cases Multiset.notMem_zero _ hx
  | expire => cases Multiset.notMem_zero _ hx
  | release => cases Multiset.notMem_zero _ hx
  | skip => cases Multiset.notMem_zero _ hx

theorem eq_of_mem_window_entry {x : Due} (hx : x ∈ ({window k j r} + k.entry j r : Multiset Due)) :
    x = window k j r ∨ x = held j :=
  (Multiset.mem_add.mp hx).imp Multiset.mem_singleton.mp mem_entry

/-- Taking an entry off the queue changes nothing that windows are about. -/
theorem Safe.unqueue (h : b.Safe ({window k j r} + O)) :
    ({ b with live := b.live.erase j } : Board).Safe ({window k j r} + k.entry j r + O) := by
  have hplain : ∀ x ∈ k.entry j r, x.plain = true := by
    intro x hx
    rw [mem_entry hx]
    rfl
  refine h.reads rfl rfl rfl rfl rfl rfl ?_ ?_ (fun i => ?_) (fun c => ?_) (fun p => ?_)
  · intro x hx
    rcases Multiset.mem_add.mp hx with hx | hx
    · exact h.of_mem hx
    · rw [mem_entry hx]
      trivial
  · have h1 := h.mutex
    rw [Multiset.countP_add] at h1
    rw [Multiset.countP_add, Multiset.countP_add,
      countP_eq_zero_of_forall fun x hx => locked_of_plain (hplain x hx)]
    omega
  · rw [Multiset.countP_add, countP_eq_zero_of_forall fun x hx => finishing_of_plain (hplain x hx) i]
    exact le_rfl
  · rw [Multiset.countP_add, countP_eq_zero_of_forall fun x hx => releasing_of_plain (hplain x hx) c]
    exact le_rfl
  · rw [Multiset.count_add, Multiset.count_eq_zero_of_notMem (s := k.entry j r)]
    · exact le_rfl
    · intro hx
      cases mem_entry hx

/-- **Safety of every move.** A move that ends a job must not meet another operation's window on its row. -/
theorem Safe.move (h : b.Safe (d + O)) (hmove : Move b d b' d') (hmutex : (d' + O).countP (·.locked) ≤ 1)
    (hrace : ∀ j, ¬ b.Ended j → b'.Ended j → ∀ x ∈ O, x.onRow j = false) : b'.Safe (d' + O) := by
  cases hmove with
  | idle => exact h
  | openCancel hrow hopen => exact h.openCancel hrow hopen hmutex
  | openStart hrow hwait => exact h.openStart hrow hwait hmutex
  | dropStart => exact h.plain (by simp) (by simp) (by simp)
  | openRelease hrow hpend => exact h.openRelease hrow hpend
  | dropReady => exact h.plain (by simp) (by simp) (by simp)
  | openSkip hrow hopen => exact h.openSkip hrow hopen
  | passSkip hrow hend => exact h.passSkip hrow hend
  | missSkip => exact h.plain (by simp [Fact]) (by simp [Due.plain]) (by simp)
  | seenSkip => exact h.plain (by simp [Fact]) (by simp [Due.plain]) (by simp)
  | endSkip => exact h.plain (by simp) (by simp) (by simp)
  | accept hlease => exact h.seek hlease
  | readCopy hrow => exact h.readCopy hrow
  | dropSeek => exact h.plain (by simp) (by simp) (by simp)
  | dropCopy => exact h.plain (by simp) (by simp) (by simp)
  | fence hlease => exact h.fence hlease
  | openExpire hlease hrow hrun => exact h.openExpire hlease hrow hrun hmutex
  | dropLease hlease => exact h.unlease hlease (by simp) hmutex (by simp) (by simp) (by simp) (by simp)
  | flag hrun => exact h.flag hrun
  | launch hstate hwf hdeps hd' => exact h.launch hstate hwf hdeps hd'
  | retry hstate hwf hdeps => exact h.retry hstate hwf hdeps
  | reassign hstate hwf hdeps => exact h.reassign hstate hwf hdeps
  | release hstate hwf hdeps => exact h.release hstate hwf hdeps
  | @conclude k j r s hends hwf =>
      obtain ⟨cur, hrow, -, hag⟩ := h.of_mem (x := window k j r) (by simp)
      refine h.conclude hends hwf (hrace j ?_ ⟨s, write_row_self hrow, Ends.isTerminal hends⟩)
      rintro ⟨y, hy, hend⟩
      rw [hrow, Option.some.injEq] at hy
      subst hy
      rw [hag.open] at hend
      cases hend
  | @skip c w r s hstate hwf =>
      obtain ⟨cur, hrow, -, hag⟩ := h.of_mem (x := window Window.skip c r) (by simp)
      refine h.skip hstate hwf (hrace c ?_ ⟨s, write_row_self hrow, by rw [hstate]; rfl⟩)
      rintro ⟨y, hy, hend⟩
      rw [hrow, Option.some.injEq] at hy
      subst hy
      rw [Agrees.open hag] at hend
      cases hend
  | countDown => exact h.countDown hmutex
  | expand => exact h.expand
  | metric => exact h.elsewhere rfl rfl rfl rfl rfl rfl (by simp) (by simp) (by simp)
  | callback => exact h.elsewhere rfl rfl rfl rfl rfl rfl (by simp) (by simp) (by simp)
  | slot => exact h.elsewhere rfl rfl rfl rfl rfl rfl (by simp) (by simp) (by simp)
  | account => exact h.elsewhere rfl rfl rfl rfl rfl rfl (by simp) (by simp) (by simp)
  | accountLast => exact h.elsewhere rfl rfl rfl rfl rfl rfl (by simp [Fact]) (by simp [Due.plain]) (by simp)
  | accountLate => exact h.elsewhere rfl rfl rfl rfl rfl rfl (by simp) (by simp) (by simp)
  | unqueue => exact h.unqueue
  | pop => exact h.elsewhere rfl rfl rfl rfl rfl rfl (by simp [Fact]) (by simp [Due.plain]) (by simp)
  | push => exact h.elsewhere rfl rfl rfl rfl rfl rfl (by simp) (by simp) (by simp)
  | pushRefused => exact h.plain (by simp) (by simp) (by simp)
  | openRelabel => exact h.plain (by simp [Fact]) (by simp [Due.plain]) (by simp)
  | relabel => exact h.elsewhere rfl rfl rfl rfl rfl rfl (by simp [Fact]) (by simp [Due.plain]) (by simp)
  | cancelled => exact h.elsewhere rfl rfl rfl rfl rfl rfl (by simp) (by simp) (by simp)
  | dropVerdict => exact h.plain (by simp) (by simp) (by simp)
  | label => exact h.elsewhere rfl rfl rfl rfl rfl rfl (by simp) (by simp) (by simp)

/-- A move that writes a row has a window on it. -/
theorem row_of_move (hmove : Move b d b' d') :
    b'.row = b.row ∨ ∃ k j r s, window k j r ∈ d ∧ b'.row = (b.write j s).row := by
  cases hmove with
  | @flag j r => exact .inr ⟨cancel, j, r, r, by simp, rfl⟩
  | @launch j r s => exact .inr ⟨start, j, r, s, by simp, rfl⟩
  | @retry j r s => exact .inr ⟨finish, j, r, s, by simp, rfl⟩
  | @reassign j r s => exact .inr ⟨expire, j, r, s, by simp, rfl⟩
  | @release c r s => exact .inr ⟨Window.release, c, r, s, by simp, rfl⟩
  | @conclude k j r s => exact .inr ⟨k, j, r, s, by simp, rfl⟩
  | @skip c w r s => exact .inr ⟨Window.skip, c, r, s, by simp, rfl⟩
  | _ => exact .inl rfl

/-- Terminal rows stay as they are. -/
theorem Safe.absorbing (h : b.Safe (d + O)) (hmove : Move b d b' d') (hrow : b.row j = some r)
    (hend : r.state.isTerminal = true) : b'.row j = some r := by
  rcases row_of_move hmove with hsame | ⟨k, i, old, s, hwin, hwrite⟩
  · rw [hsame, hrow]
  · obtain ⟨cur, hcur, -, hag⟩ := h.of_mem hwin
    rw [hwrite]
    exact (wrote_write b i s).ended hcur hag.open hrow hend

end Board

end DistributedJobEngine
