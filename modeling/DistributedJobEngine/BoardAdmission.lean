import DistributedJobEngine.BoardAccounting

/-! New jobs on the board. A single job or all nodes of a workflow enter together, with their edges, their
dependency counters and the counters of their workflow; what held of the jobs that were there still holds,
whatever the running operations owe. -/

namespace DistributedJobEngine

open Due Window

namespace Board

variable {b b' : Board} {D d d' O : Multiset Due} {j p c : JobId} {r s : Stub} {w : WorkflowId}

/-- The row a job starts with, when `n` edges lead to it. -/
structure Starts (r : Stub) (w : WorkflowId) (n : ℕ) : Prop where
  workflowId : r.workflowId = w
  deps : r.deps = n
  state : if 0 < n then r.state = .pending else r.state = .queued ∨ r.state = .scheduled

theorem Starts.isTerminal {n : ℕ} (h : Starts r w n) : r.state.isTerminal = false := by
  have hs := h.state
  split_ifs at hs
  · rw [hs]
    rfl
  · rcases hs with hs | hs <;> rw [hs] <;> rfl

theorem Starts.pending_iff {n : ℕ} (h : Starts r w n) : r.state = .pending ↔ 0 < n := by
  have hs := h.state
  split_ifs at hs with hn
  · exact ⟨fun _ => hn, fun _ => hs⟩
  · refine ⟨fun hp => ?_, fun hp => absurd hp hn⟩
    rcases hs with hs | hs <;> rw [hs] at hp <;> cases hp

/-- The jobs `N` enter the board as the nodes of `w`, or as single jobs if `w` is empty. -/
structure Admits (b b' : Board) (N : Finset JobId) (w : WorkflowId) : Prop where
  fresh : ∀ j ∈ N, b.row j = none
  ids : b'.ids = b.ids ∪ N
  old : ∀ j, j ∉ N → b'.row j = b.row j
  new : ∀ j ∈ N, ∃ r, b'.row j = some r ∧ Starts r w (b'.parents j).card
  depsOld : b.deps ⊆ b'.deps
  depsNew : ∀ d ∈ b'.deps, d ∈ b.deps ∨ (d.1 ∈ N ∧ d.2 ∈ N ∧ w ≠ "")
  childrenOld : ∀ p, p ∉ N → b'.children p = b.children p
  childrenNew : ∀ p ∈ N, (b'.children p).Nodup ∧ ∀ c, c ∈ b'.children p ↔ (p, c) ∈ b'.deps
  pendingOld : ∀ c, c ∉ N → b'.pending c = b.pending c
  pendingNew : ∀ c ∈ N, 0 < (b'.parents c).card → b'.pending c = (b'.parents c).card
  lease : b'.lease = b.lease
  live : b.live ⊆ b'.live ∧ b'.live ⊆ b.live ∪ N
  outstanding : b'.outstanding = b.outstanding + N.card
  tally : b'.tally = b.tally
  slots : b'.slots = b.slots
  callbacks : b'.callbacks = b.callbacks
  counted : b'.counted = b.counted
  units : b'.units = b.units
  cancelled : b'.cancelled = b.cancelled
  single : w = "" → b'.remaining = b.remaining ∧ b'.failures = b.failures ∧ b'.record = b.record
  registered : w ≠ "" → N.Nonempty ∧ b.record w = none ∧ b'.remaining = Function.update b.remaining w (some N.card) ∧
    b'.failures = Function.update b.failures w 0 ∧ b'.record = Function.update b.record w (some .running)

namespace Admits

variable {N : Finset JobId}

theorem notMem_of_row (h : b.Admits b' N w) (hrow : b.row j = some r) : j ∉ N := fun hj => by
  rw [h.fresh j hj] at hrow
  cases hrow

theorem row_of_some (h : b.Admits b' N w) (hrow : b.row j = some r) : b'.row j = some r := by
  rw [h.old j (h.notMem_of_row hrow), hrow]

theorem deps_iff (h : b.Admits b' N w) (hc : c ∉ N) : (p, c) ∈ b'.deps ↔ (p, c) ∈ b.deps := by
  refine ⟨fun hd => ?_, fun hd => h.depsOld hd⟩
  rcases h.depsNew _ hd with hd | ⟨-, hc', -⟩
  · exact hd
  · exact absurd hc' hc

theorem parents_of_old (h : b.Admits b' N w) (hc : c ∉ N) : b'.parents c = b.parents c := by
  ext p
  rw [mem_parents, mem_parents, h.deps_iff hc]

theorem succ_iff (h : b.Admits b' N w) (hj : j ∉ N) : b'.Succ j ↔ b.Succ j := by
  rw [Succ, Succ, h.old j hj]

theorem bad_of (h : b.Admits b' N w) (hj : b.Bad j) : b'.Bad j := by
  obtain ⟨r, hrow, hbad⟩ := hj
  exact ⟨r, h.row_of_some hrow, hbad⟩

theorem succ_of (h : b.Admits b' N w) (hj : b.Succ j) : b'.Succ j := by
  obtain ⟨r, hrow, hs⟩ := hj
  exact ⟨r, h.row_of_some hrow, hs⟩

theorem succ_parents (h : b.Admits b' N w) (hc : c ∉ N) (hp : ∀ p, (p, c) ∈ b.deps → b.Succ p) :
    ∀ p, (p, c) ∈ b'.deps → b'.Succ p := fun p hd => h.succ_of (hp p ((h.deps_iff hc).mp hd))

theorem bad_parent (h : b.Admits b' N w) (hp : ∃ p, (p, c) ∈ b.deps ∧ b.Bad p) :
    ∃ p, (p, c) ∈ b'.deps ∧ b'.Bad p := by
  obtain ⟨p, hd, hbad⟩ := hp
  exact ⟨p, h.depsOld hd, h.bad_of hbad⟩

/-- What the running operations know stays true. -/
theorem fact (h : b.Admits b' N w) {x : Due} (hx : b.Fact x) : b'.Fact x := by
  cases x with
  | window k j old =>
      obtain ⟨cur, hrow, hwf, hag⟩ := hx
      have hj := h.notMem_of_row hrow
      refine ⟨cur, h.row_of_some hrow, hwf, ?_⟩
      cases k with
      | cancel | start | finish | expire =>
          simp only [Agrees, h.lease] at hag ⊢
          exact hag
      | release => exact ⟨hag.1, h.succ_parents hj hag.2⟩
      | skip => exact ⟨hag.1, h.bad_parent hag.2⟩
  | seek j =>
      obtain ⟨r, hrow, hs⟩ := hx
      exact ⟨r, h.row_of_some hrow, hs⟩
  | copy j old =>
      obtain ⟨r, hrow, hs⟩ := hx
      exact ⟨r, h.row_of_some hrow, hs⟩
  | unreleased p => exact h.succ_of hx
  | ready c =>
      obtain ⟨⟨r, hrow⟩, hp⟩ := hx
      exact ⟨⟨r, h.row_of_some hrow⟩, h.succ_parents (h.notMem_of_row hrow) hp⟩
  | expand p w =>
      obtain ⟨r, hrow, hs⟩ := hx
      exact ⟨r, h.row_of_some hrow, hs⟩
  | doomed c w =>
      obtain ⟨⟨r, hrow, hs⟩, hp⟩ := hx
      exact ⟨⟨r, h.row_of_some hrow, hs⟩, h.bad_parent hp⟩
  | unit j w failed =>
      obtain ⟨r, hrow, hs⟩ := hx
      exact ⟨r, h.row_of_some hrow, hs⟩
  | _ => trivial

theorem graph (h : b.Admits b' N w) (hg : b.Graph) : b'.Graph where
  ids j := by
    rw [h.ids, Finset.mem_union, hg.ids]
    by_cases hj : j ∈ N
    · obtain ⟨r, hrow, -⟩ := h.new j hj
      simp [hj, hrow]
    · simp [hj, h.old j hj]
  edge p c hd := by
    rcases h.depsNew _ hd with hd | ⟨hp, hc, hw⟩
    · obtain ⟨rp, rc, hrp, hrc, hwf⟩ := hg.edge p c hd
      exact ⟨rp, rc, h.row_of_some hrp, h.row_of_some hrc, hwf⟩
    · obtain ⟨rp, hrp, hsp⟩ := h.new p hp
      obtain ⟨rc, hrc, hsc⟩ := h.new c hc
      refine ⟨rp, rc, hrp, hrc, by rw [hsp.workflowId, hsc.workflowId], ?_⟩
      rw [hsp.workflowId]
      exact hw
  children p c := by
    by_cases hp : p ∈ N
    · exact (h.childrenNew p hp).2 c
    · rw [h.childrenOld p hp, hg.children]
      refine ⟨fun hd => h.depsOld hd, fun hd => ?_⟩
      rcases h.depsNew _ hd with hd | ⟨hp', -⟩
      · exact hd
      · exact absurd hp' hp
  nodup p := by
    by_cases hp : p ∈ N
    · exact (h.childrenNew p hp).1
    · rw [h.childrenOld p hp]
      exact hg.nodup p

/-- No due is about a job that was not there. -/
theorem not_releasing (h : b.Admits b' N w) (hc : c ∈ N) (hfact : ∀ x ∈ D, b.Fact x) :
    D.countP (·.releasing c) = 0 := by
  refine countP_eq_zero_of_forall fun x hx => ?_
  have hno : ∀ r, b.row c ≠ some r := fun r hrow => h.notMem_of_row hrow hc
  have hf := hfact x hx
  cases x with
  | ready i =>
      obtain ⟨⟨r, hrow⟩, -⟩ := hf
      simp only [Due.releasing, decide_eq_false_iff_not]
      rintro rfl
      exact hno r hrow
  | window k i old =>
      obtain ⟨cur, hrow, -⟩ := hf
      cases k with
      | release =>
          simp only [Due.releasing, decide_eq_false_iff_not]
          rintro rfl
          exact hno cur hrow
      | _ => rfl
  | _ => rfl

end Admits

/-- **New jobs keep the board safe**, whatever the running operations owe. -/
theorem Safe.admits {N : Finset JobId} (hs : b.Safe D) (h : b.Admits b' N w) : b'.Safe D where
  graph := h.graph hs.graph
  fact x hx := h.fact (hs.fact x hx)
  mutex := hs.mutex
  lease j hj := by
    rw [h.lease] at hj
    obtain ⟨r, hrow, hrun⟩ := hs.lease j hj
    exact ⟨r, h.row_of_some hrow, hrun⟩
  finishing := hs.finishing
  parents c r hrow hheld := by
    by_cases hc : c ∈ N
    · obtain ⟨r', hrow', hst⟩ := h.new c hc
      rw [hrow, Option.some.injEq] at hrow'
      subst hrow'
      have hnone : (b'.parents c).card = 0 := by
        by_contra hpos
        exact hheld (.inl (hst.pending_iff.mpr (Nat.pos_of_ne_zero hpos)))
      intro p hd
      rw [Finset.card_eq_zero] at hnone
      have hp := mem_parents.mpr hd
      rw [hnone] at hp
      cases hp
    · rw [h.old c hc] at hrow
      exact h.succ_parents hc (hs.parents c r hrow hheld)
  pending c hpos := by
    by_cases hc : c ∈ N
    · have hle : (b'.openParents D c).card ≤ (b'.parents c).card :=
        Finset.card_le_card fun p hp => mem_parents.mpr (mem_openParents.mp hp).1
      have hcount := h.pendingNew c hc
      omega
    · rw [h.pendingOld c hc] at hpos ⊢
      refine le_trans (Int.ofNat_le.mpr (Finset.card_le_card fun p hp => ?_)) (hs.pending c hpos)
      obtain ⟨hd, hu⟩ := mem_openParents.mp hp
      have hd' := (h.deps_iff hc).mp hd
      refine mem_openParents.mpr ⟨hd', hu.imp_left fun hns hsucc => hns (h.succ_of hsucc)⟩
  releasing c := by
    by_cases hc : c ∈ N
    · rw [h.not_releasing hc hs.fact]
      split_ifs <;> simp
    · rw [h.pendingOld c hc]
      exact hs.releasing c
  unreleased := hs.unreleased
  column c r hrow := by
    by_cases hc : c ∈ N
    · obtain ⟨r', hrow', hst⟩ := h.new c hc
      rw [hrow, Option.some.injEq] at hrow'
      subst hrow'
      refine ⟨fun _ => hst.deps.ge, fun _ hnp => ?_⟩
      rw [hst.deps]
      have hnot : ¬ 0 < (b'.parents c).card := fun hpos => hnp (hst.pending_iff.mpr hpos)
      omega
    · rw [h.old c hc] at hrow
      rw [h.parents_of_old hc]
      exact hs.column c r hrow

/-- A single job enters. -/
theorem Safe.single (h : b.Safe D) (hnew : b.row j = none) (hst : Starts r "" 0) {live : Finset JobId}
    (hlive : b.live ⊆ live ∧ live ⊆ b.live ∪ {j}) :
    b.Admits { b with
      ids := b.ids ∪ {j}
      row := Function.update b.row j (some r)
      outstanding := b.outstanding + 1
      live := live } {j} "" := by
  have hparents : b.parents j = ∅ := by
    rw [Finset.eq_empty_iff_forall_notMem]
    intro p hp
    obtain ⟨-, rc, -, hrc, -⟩ := h.graph.edge p j (mem_parents.mp hp)
    rw [hnew] at hrc
    cases hrc
  have hcard : (b.parents j).card = 0 := by rw [hparents, Finset.card_empty]
  refine
    { fresh := fun i hi => by rw [Finset.mem_singleton.mp hi, hnew]
      ids := rfl
      old := fun i hi => Function.update_of_ne (fun hij => hi (Finset.mem_singleton.mpr hij)) _ _
      new := fun i hi => ?_
      depsOld := subset_rfl
      depsNew := fun d hd => .inl hd
      childrenOld := fun _ _ => rfl
      childrenNew := fun p _ => ⟨h.graph.nodup p, h.graph.children p⟩
      pendingOld := fun _ _ => rfl
      pendingNew := fun c hc => ?_
      lease := rfl
      live := hlive
      outstanding := rfl
      tally := rfl
      slots := rfl
      callbacks := rfl
      counted := rfl
      units := rfl
      cancelled := rfl
      single := fun _ => ⟨rfl, rfl, rfl⟩
      registered := fun hw => absurd rfl hw }
  · rw [Finset.mem_singleton.mp hi]
    exact ⟨r, Function.update_self .., hcard.symm ▸ hst⟩
  · rw [Finset.mem_singleton.mp hc]
    exact fun hpos => absurd hcard (Nat.pos_iff_ne_zero.mp hpos)

/-! ### Accounting -/

/-- Every node of a workflow has the record of the workflow. -/
def Filed (b : Board) : Prop :=
  ∀ j r, b.row j = some r → r.workflowId ≠ "" → (b.record r.workflowId).isSome

theorem Accounted.ended_of_unit (h : b.Accounted D) (hj : j ∈ b.units) : b.ended j = true := by
  have hpos := Multiset.count_pos.mpr hj
  have hunit := h.unit j
  by_contra hend
  rw [Bool.not_eq_true] at hend
  rw [hend, Bool.false_and, Bool.toNat_false] at hunit
  omega

theorem Filed.nodes_eq_empty (h : b.Filed) (hg : b.Graph) (hw : w ≠ "") (hrec : b.record w = none) :
    b.nodes w = ∅ := by
  rw [Finset.eq_empty_iff_forall_notMem]
  intro j hj
  obtain ⟨hmem, hwf⟩ := Finset.mem_filter.mp hj
  obtain ⟨r, hrow⟩ := Option.isSome_iff_exists.mp ((hg.ids j).mp hmem)
  rw [workflow_of_row hrow] at hwf
  have hsome := h j r hrow (hwf ▸ hw)
  rw [hwf, hrec] at hsome
  cases hsome

namespace Admits

variable {N : Finset JobId}

theorem ended_eq (h : b.Admits b' N w) (j : JobId) : b'.ended j = b.ended j := by
  by_cases hj : j ∈ N
  · obtain ⟨r, hrow, hst⟩ := h.new j hj
    rw [ended_of_row hrow, hst.isTerminal, ended, h.fresh j hj]
    rfl
  · rw [ended, ended, h.old j hj]

theorem failed_eq (h : b.Admits b' N w) (j : JobId) : b'.failed j = b.failed j := by
  by_cases hj : j ∈ N
  · obtain ⟨r, hrow, hst⟩ := h.new j hj
    rw [failed_of_row hrow, hst.isTerminal, failed, h.fresh j hj]
    rfl
  · rw [failed, failed, h.old j hj]

theorem workflow_of_old (h : b.Admits b' N w) (hj : j ∉ N) : b'.workflow j = b.workflow j := by
  rw [workflow, workflow, h.old j hj]

theorem workflow_of_new (h : b.Admits b' N w) (hj : j ∈ N) : b'.workflow j = w := by
  obtain ⟨r, hrow, hst⟩ := h.new j hj
  rw [workflow_of_row hrow, hst.workflowId]

theorem notMem_of_ended (h : b.Admits b' N w) (hj : b.ended j = true) : j ∉ N := fun hmem => by
  rw [ended, h.fresh j hmem] at hj
  cases hj

theorem notMem_of_unit (h : b.Admits b' N w) (ha : b.Accounted D) (hj : j ∈ b.units) : j ∉ N :=
  h.notMem_of_ended (ha.ended_of_unit hj)

theorem nodes_eq (h : b.Admits b' N w) (hg : b.Graph) (v : WorkflowId) :
    b'.nodes v = b.nodes v ∪ if v = w then N else ∅ := by
  ext j
  rw [Finset.mem_union, Board.nodes, Board.nodes, Finset.mem_filter, Finset.mem_filter, h.ids, Finset.mem_union]
  by_cases hj : j ∈ N
  · have hid : j ∉ b.ids := by
      rw [hg.ids, h.fresh j hj]
      simp
    rw [h.workflow_of_new hj]
    by_cases hv : v = w
    · simp [hv, hj]
    · simp [hv, hid, Ne.symm hv]
  · rw [h.workflow_of_old hj]
    split_ifs <;> simp [hj]

theorem disjoint_ids (h : b.Admits b' N w) (hg : b.Graph) : Disjoint b.ids N := by
  rw [Finset.disjoint_left]
  intro j hmem hj
  rw [hg.ids, h.fresh j hj] at hmem
  cases hmem

theorem used_eq (h : b.Admits b' N w) (ha : b.Accounted D) (v : WorkflowId) : b'.used v = b.used v := by
  rw [used, used, h.units]
  apply Multiset.countP_congr rfl
  intro j hj
  rw [h.workflow_of_old (h.notMem_of_unit ha hj)]

theorem usedFailed_eq (h : b.Admits b' N w) (ha : b.Accounted D) (v : WorkflowId) :
    b'.usedFailed v = b.usedFailed v := by
  rw [usedFailed, usedFailed, h.units]
  apply Multiset.countP_congr rfl
  intro j hj
  rw [h.workflow_of_old (h.notMem_of_unit ha hj), h.failed_eq]

end Admits

/-- The units of a workflow are subtracted for its nodes. -/
theorem Accounted.used_le (h : b.Accounted D) (hg : b.Graph) (w : WorkflowId) : b.used w ≤ (b.nodes w).card := by
  rw [used, Multiset.countP_eq_card_filter]
  refine card_le_of_count_le_one (fun i => ?_) fun i hi => ?_
  · refine le_trans (Multiset.count_le_of_le i (Multiset.filter_le _ _)) ?_
    have hunit := h.unit i
    have hle := Bool.toNat_le (b.ended i && decide (b.workflow i ≠ ""))
    omega
  · obtain ⟨hmem, hwf⟩ := Multiset.mem_filter.mp hi
    exact Finset.mem_filter.mpr ⟨hg.mem_ids_of_ended (h.ended_of_unit hmem), hwf⟩

/-- **New jobs keep the accounts.** -/
theorem Accounted.admits {N : Finset JobId} (ha : b.Accounted D) (h : b.Admits b' N w) (hg : b.Graph)
    (hf : b.Filed) : b'.Accounted D where
  slot j := by
    rw [h.slots, h.ended_eq]
    exact ha.slot j
  callback j := by
    rw [h.callbacks, h.ended_eq]
    exact ha.callback j
  metric j := by
    rw [h.counted, h.ended_eq]
    exact ha.metric j
  unit j := by
    rw [h.units, h.ended_eq, ha.unit j]
    cases hend : b.ended j with
    | false => rfl
    | true => rw [h.workflow_of_old (h.notMem_of_ended hend)]
  outstanding := by
    rw [h.outstanding, h.slots, h.ids, Finset.card_union_of_disjoint (h.disjoint_ids hg), ← ha.outstanding]
    omega
  tally := by
    rw [h.tally, h.counted]
    exact ha.tally
  remaining v hv := by
    rw [h.used_eq ha, h.nodes_eq hg]
    by_cases hvw : v = w
    · subst hvw
      obtain ⟨⟨i, hi⟩, hrec, hrem, -⟩ := h.registered hv
      have hempty := hf.nodes_eq_empty hg hv hrec
      have hused := ha.used_le hg v
      rw [hempty, Finset.card_empty] at hused
      have hpos := Finset.card_pos.mpr ⟨i, hi⟩
      rw [hrem, Function.update_self, if_pos rfl, hempty, Finset.empty_union, if_neg (by omega)]
      congr 1
      omega
    · rw [if_neg hvw, Finset.union_empty, ← ha.remaining v hv]
      by_cases hw : w = ""
      · rw [(h.single hw).1]
      · rw [(h.registered hw).2.2.1, Function.update_of_ne hvw]
  failures v hv := by
    rw [h.usedFailed_eq ha]
    by_cases hvw : v = w
    · subst hvw
      obtain ⟨-, hrec, hrem, hfail, -⟩ := h.registered hv
      have hempty := hf.nodes_eq_empty hg hv hrec
      have hused := ha.used_le hg v
      have hle : b.usedFailed v ≤ b.used v := by
        rw [usedFailed, used, Multiset.countP_eq_card_filter, Multiset.countP_eq_card_filter]
        exact Multiset.card_le_card (Multiset.monotone_filter_right _ fun _ hp => hp.1)
      rw [hempty, Finset.card_empty] at hused
      rw [hfail, hrem, Function.update_self, Function.update_self, if_neg (by simp)]
      omega
    · by_cases hw : w = ""
      · rw [(h.single hw).1, (h.single hw).2.1]
        exact ha.failures v hv
      · obtain ⟨-, -, hrem, hfail, -⟩ := h.registered hw
        rw [hrem, hfail, Function.update_of_ne hvw, Function.update_of_ne hvw]
        exact ha.failures v hv

/-- Rows stay, and stay in their workflow. -/
theorem Safe.row_after_move (h : b.Safe (d + O)) (hmove : Move b d b' d') (hrow : b.row j = some r) :
    ∃ s, b'.row j = some s ∧ s.workflowId = r.workflowId := by
  have hwrite : ∀ k i old s, window k i old ∈ d → s.workflowId = old.workflowId → b'.row = (b.write i s).row →
      ∃ s', b'.row j = some s' ∧ s'.workflowId = r.workflowId := by
    intro k i old s hwin hwf hb
    obtain ⟨cur, hcur, hcwf, -⟩ := h.of_mem hwin
    rw [hb]
    by_cases hji : j = i
    · subst hji
      rw [hrow, Option.some.injEq] at hcur
      subst hcur
      exact ⟨s, write_row_self hrow, hwf.trans hcwf.symm⟩
    · exact ⟨r, by rw [write_row_of_ne hji, hrow], rfl⟩
  cases hmove with
  | flag _ => exact hwrite cancel _ _ _ (by simp) rfl rfl
  | launch _ hwf => exact hwrite start _ _ _ (by simp) hwf rfl
  | retry _ hwf => exact hwrite finish _ _ _ (by simp) hwf rfl
  | reassign _ hwf => exact hwrite expire _ _ _ (by simp) hwf rfl
  | release _ hwf => exact hwrite Window.release _ _ _ (by simp) hwf rfl
  | @conclude k i old s _ hwf => exact hwrite k i old s (by simp) hwf rfl
  | skip _ hwf => exact hwrite Window.skip _ _ _ (by simp) hwf rfl
  | _ => exact ⟨r, hrow, rfl⟩

theorem ids_of_move (hmove : Move b d b' d') : b'.ids = b.ids := by
  cases hmove <;> rfl

theorem isSome_row_of_move (hmove : Move b d b' d') : (b'.row j).isSome = (b.row j).isSome := by
  rcases row_of_move hmove with hsame | ⟨k, i, old, s, -, hwrite⟩
  · rw [hsame]
  · rw [hwrite]
    by_cases hji : j = i
    · subst hji
      simp [write]
    · rw [write_row_of_ne hji]

theorem isSome_record_of_move (hmove : Move b d b' d') : (b'.record w).isSome = (b.record w).isSome := by
  have hupd : ∀ v s, (Function.update b.record v ((b.record v).map fun _ => s) w).isSome = (b.record w).isSome := by
    intro v s
    by_cases hwv : w = v
    · subst hwv
      simp
    · rw [Function.update_of_ne hwv]
  cases hmove with
  | relabel => exact hupd _ _
  | label => exact hupd _ _
  | _ => rfl

theorem Filed.move (hf : b.Filed) (h : b.Safe (d + O)) (hmove : Move b d b' d') : b'.Filed := by
  intro j s hrow hw
  have hsome : (b.row j).isSome := by
    rw [← isSome_row_of_move hmove, hrow]
    rfl
  obtain ⟨r, hr⟩ := Option.isSome_iff_exists.mp hsome
  obtain ⟨s', hs', hwf⟩ := h.row_after_move hmove hr
  rw [hrow, Option.some.injEq] at hs'
  subst hs'
  rw [isSome_record_of_move hmove, hwf]
  exact hf j r hr (hwf ▸ hw)

theorem Filed.admits {N : Finset JobId} (hf : b.Filed) (h : b.Admits b' N w) : b'.Filed := by
  intro j r hrow hw
  by_cases hj : j ∈ N
  · obtain ⟨r', hrow', hst⟩ := h.new j hj
    rw [hrow, Option.some.injEq] at hrow'
    subst hrow'
    rw [hst.workflowId] at hw ⊢
    rw [(h.registered hw).2.2.2.2, Function.update_self]
    rfl
  · rw [h.old j hj] at hrow
    have hsome := hf j r hrow hw
    by_cases hwN : w = ""
    · rw [(h.single hwN).2.2]
      exact hsome
    · rw [(h.registered hwN).2.2.2.2]
      by_cases hrw : r.workflowId = w
      · rw [hrw, Function.update_self]
        rfl
      · rw [Function.update_of_ne hrw]
        exact hsome

/-! ### The board of a fresh engine -/

def empty : Board where
  ids := ∅
  row _ := none
  deps := ∅
  children _ := []
  pending _ := 0
  lease _ := none
  live := ∅
  outstanding := 0
  remaining _ := none
  failures _ := 0
  tally := 0
  slots := 0
  callbacks := 0
  counted := 0
  units := 0
  record _ := none
  cancelled := 0

theorem safe_empty : empty.Safe 0 where
  graph := ⟨by simp [empty], by simp [empty], by simp [empty], fun _ => List.nodup_nil⟩
  fact x hx := by cases hx
  mutex := Nat.zero_le 1
  lease j h := by cases h
  finishing j := Nat.zero_le 1
  parents c r h := by cases h
  pending c hpos := by cases hpos
  releasing c := Nat.zero_le 1
  unreleased p := Nat.zero_le 1
  column c r h := by cases h

theorem accounted_empty : empty.Accounted 0 where
  slot _ := rfl
  callback _ := rfl
  metric _ := rfl
  unit _ := rfl
  outstanding := rfl
  tally := rfl
  remaining _ _ := rfl
  failures _ _ := rfl

theorem filed_empty : empty.Filed := by
  intro j r h
  cases h

end Board

end DistributedJobEngine
