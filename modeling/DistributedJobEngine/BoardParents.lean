import DistributedJobEngine.BoardTurns

/-! What jobs in `PENDING` wait for while operations run one at a time: their counter is the number of parents
that are still to succeed, and none of these has ended, except where an operation is about to release the job
or to skip it. -/

namespace DistributedJobEngine

open Due Window

namespace Board

variable {b b' : Board} {D d d' O : Multiset Due} {j p c : JobId} {r s cur : Stub} {w : WorkflowId}

/-! ### Counters -/

/-- The counter of a job in `PENDING` is the number of its parents that are not counted down yet, and a job
whose counter reached zero is being released. -/
structure Counting (b : Board) (D : Multiset Due) : Prop where
  counter : ∀ c r, b.row c = some r → r.state = .pending → b.pending c = (b.openParents D c).card
  ready : ∀ c r, b.row c = some r → r.state = .pending → 0 < b.pending c ∨ 0 < D.countP (·.releasing c)

/-- A step that counts nothing down. -/
theorem Counting.keep (h : b.Counting (d + O))
    (hback : ∀ c r, b'.row c = some r → r.state = .pending → b.row c = some r) (hdeps : b'.deps = b.deps)
    (hpending : b'.pending = b.pending)
    (hun : ∀ p c, (p, c) ∈ b.deps → (b'.Unreleased (d' + O) p ↔ b.Unreleased (d + O) p))
    (hrel : ∀ c r, b'.row c = some r → r.state = .pending →
      d.countP (·.releasing c) ≤ d'.countP (·.releasing c)) : b'.Counting (d' + O) where
  counter c r hrow hpend := by
    have hopen : b'.openParents (d' + O) c = b.openParents (d + O) c := by
      ext p
      rw [mem_openParents, mem_openParents, hdeps]
      exact and_congr_right fun hpc => hun p c hpc
    rw [hpending, hopen]
    exact h.counter c r (hback c r hrow hpend) hpend
  ready c r hrow hpend := by
    have hle := hrel c r hrow hpend
    rw [hpending]
    refine (h.ready c r (hback c r hrow hpend) hpend).imp_right fun hpos => ?_
    rw [Multiset.countP_add] at hpos ⊢
    omega

theorem unreleased_congr (hsucc : b'.Succ p ↔ b.Succ p) (hd : Due.unreleased p ∈ d' ↔ Due.unreleased p ∈ d) :
    b'.Unreleased (d' + O) p ↔ b.Unreleased (d + O) p := by
  rw [Unreleased, Unreleased, hsucc, Multiset.mem_add, Multiset.mem_add, hd]

theorem succ_write_iff (hrow : b.row j = some cur) (hcur : cur.state ≠ .succeeded) (hs : s.state ≠ .succeeded) :
    (b.write j s).Succ p ↔ b.Succ p := by
  by_cases hpj : p = j
  · subst hpj
    simp only [Succ, write_row_self hrow, hrow, Option.some.injEq, exists_eq_left', hcur, hs]
  · rw [Succ, write_row_of_ne hpj, Succ]

/-- When a job ends, it goes on to be counted as an open parent until its children are counted down. -/
theorem Safe.unreleased_conclude {k : Window} (hs : b.Safe (d + O)) (hwin : window k j r ∈ d)
    (hwf : s.workflowId = r.workflowId) (hd : ∀ q, Due.unreleased q ∉ d) (hpc : (p, c) ∈ b.deps) :
    (b.write j s).Unreleased (s.endDues j + O) p ↔ b.Unreleased (d + O) p := by
  obtain ⟨cur, hrow, hwf', hag⟩ := hs.of_mem hwin
  have hopen : ¬ b.Succ j := by
    rintro ⟨x, hx, hsucc⟩
    rw [hrow, Option.some.injEq] at hx
    subst hx
    have hterm := hag.open
    rw [hsucc] at hterm
    cases hterm
  by_cases hpj : p = j
  · subst hpj
    obtain ⟨rp, rc, hrp, -, -, hne⟩ := hs.graph.edge p c hpc
    rw [hrow, Option.some.injEq] at hrp
    subst hrp
    refine ⟨fun _ => .inl hopen, fun _ => ?_⟩
    by_cases hsucc : s.state = .succeeded
    · refine .inr (Multiset.mem_add.mpr (.inl ?_))
      rw [Stub.endDues, if_neg (by rw [hwf, ← hwf']; exact hne), if_pos hsucc]
      simp
    · refine .inl ?_
      rintro ⟨x, hx, hx'⟩
      rw [write_row_self hrow, Option.some.injEq] at hx
      subst hx
      exact hsucc hx'
  · refine unreleased_congr (by rw [Succ, write_row_of_ne hpj, Succ]) ⟨fun hmem => ?_, fun hmem => absurd hmem (hd p)⟩
    have hle := count_unreleased_endDues (j := j) (s := s) p
    rw [if_neg hpj, Nat.le_zero, Multiset.count_eq_zero] at hle
    exact absurd hmem hle

/-- Only the released parent leaves the open parents. -/
theorem Graph.card_openParents_le (hg : b.Graph) (d' : Multiset Due) (c : JobId) :
    (b.openParents ({Due.unreleased p} + O) c).card ≤
      (b.openParents (d' + O) c).card + if c ∈ b.children p then 1 else 0 := by
  have hsub : ∀ q ∈ b.openParents ({Due.unreleased p} + O) c, q = p ∨ q ∈ b.openParents (d' + O) c := by
    intro q hq
    obtain ⟨hqc, hq⟩ := mem_openParents.mp hq
    by_cases hqp : q = p
    · exact .inl hqp
    · refine .inr (mem_openParents.mpr ⟨hqc, hq.imp_right fun hmem => ?_⟩)
      rcases Multiset.mem_add.mp hmem with hmem | hmem
      · rw [Multiset.mem_singleton, Due.unreleased.injEq] at hmem
        exact absurd hmem hqp
      · exact Multiset.mem_add.mpr (.inr hmem)
  by_cases hc : c ∈ b.children p
  · rw [if_pos hc]
    calc (b.openParents ({Due.unreleased p} + O) c).card
        ≤ (insert p (b.openParents (d' + O) c)).card :=
          Finset.card_le_card fun q hq => Finset.mem_insert.mpr (hsub q hq)
      _ ≤ (b.openParents (d' + O) c).card + 1 := Finset.card_insert_le _ _
  · rw [if_neg hc]
    refine Finset.card_le_card fun q hq => ?_
    rcases hsub q hq with rfl | hq'
    · exact absurd ((hg.children q c).mpr (mem_openParents.mp hq).1) hc
    · exact hq'

theorem Counting.countDown (h : b.Counting ({Due.unreleased p} + O)) (hs : b.Safe ({Due.unreleased p} + O)) :
    ({ b with pending := b.countedDown p } : Board).Counting (((b.newlyReady p).map Due.ready : List Due) + O) := by
  have hnone : ∀ q, Due.unreleased q ∉ (((b.newlyReady p).map Due.ready : List Due) : Multiset Due) := by simp
  refine ⟨fun c r hrow hpend => ?_, fun c r hrow hpend => ?_⟩
  · have hcount := h.counter c r hrow hpend
    have hle := hs.card_openParents hnone c
    have hge := hs.graph.card_openParents_le (O := O) (p := p) ((b.newlyReady p).map Due.ready : List Due) c
    change b.countedDown p c = ((b.openParents (((b.newlyReady p).map Due.ready : List Due) + O) c).card : Int)
    unfold countedDown
    by_cases hc : c ∈ b.children p
    · rw [if_pos hc] at hle hge
      rw [if_pos ⟨hc, by omega⟩]
      omega
    · rw [if_neg hc] at hle hge
      rw [if_neg fun hand => hc hand.1]
      omega
  · change 0 < b.countedDown p c ∨ _
    rw [Multiset.countP_add, hs.graph.countP_newlyReady]
    rcases h.ready c r hrow hpend with hpos | hpos
    · unfold countedDown
      by_cases hc : c ∈ b.children p ∧ b.pending c = 1
      · exact .inr (by rw [if_pos hc]; omega)
      · refine .inl ?_
        split_ifs with hdown
        · have hne : b.pending c ≠ 1 := fun hone => hc ⟨hdown.1, hone⟩
          omega
        · exact hpos
    · rw [Multiset.countP_add, countP_singleton, show (Due.unreleased p).releasing c = false from rfl,
        Bool.toNat_false] at hpos
      exact .inr (by omega)

/-- **The counters go with the parents.** -/
theorem Counting.move (h : b.Counting (d + O)) (hs : b.Safe (d + O)) (hx : b.Exact (d + O))
    (hmove : Move b d b' d') : b'.Counting (d' + O) := by
  have hback := fun c r => hs.pending_of_move (c := c) (r := r) hx hmove
  have hquiet : b'.row = b.row → b'.deps = b.deps → b'.pending = b.pending →
      (∀ p, Due.unreleased p ∈ d' ↔ Due.unreleased p ∈ d) →
      (∀ c r, b.row c = some r → r.state = .pending → d.countP (·.releasing c) ≤ d'.countP (·.releasing c)) →
      b'.Counting (d' + O) := fun hrow hdeps hpending hun hrel =>
    h.keep hback hdeps hpending (fun p c _ => unreleased_congr (by rw [Succ, hrow, Succ]) (hun p))
      fun c r hr hpend => hrel c r (hrow ▸ hr) hpend
  have hplain : b'.row = b.row → b'.deps = b.deps → b'.pending = b.pending →
      (∀ p, Due.unreleased p ∈ d' ↔ Due.unreleased p ∈ d) → (∀ x ∈ d, ∀ c, x.releasing c = false) →
      b'.Counting (d' + O) := fun hrow hdeps hpending hun hd =>
    hquiet hrow hdeps hpending hun fun c r _ _ => by
      rw [countP_eq_zero_of_forall fun x hx => hd x hx c]
      exact Nat.zero_le _
  -- a write over an open row that ends no job with success
  have hwrite : ∀ {k j r cur s}, window k j r ∈ d → b.row j = some cur → cur.state.isTerminal = false →
      s.state ≠ .succeeded → b'.row = (b.write j s).row → b'.deps = b.deps → b'.pending = b.pending →
      (∀ p, Due.unreleased p ∈ d' ↔ Due.unreleased p ∈ d) → (∀ x ∈ d, ∀ c, c ≠ j → x.releasing c = false) →
      s.state ≠ .pending → b'.Counting (d' + O) := by
    intro k j r cur s hwin hcur hopen hsucc hrow hdeps hpending hun hd hpend
    have hne : cur.state ≠ .succeeded := fun heq => by rw [heq] at hopen; cases hopen
    refine h.keep hback hdeps hpending (fun p c _ => unreleased_congr ?_ (hun p)) fun c x hr hpend' => ?_
    · rw [show b'.Succ p ↔ (b.write j s).Succ p by rw [Succ, hrow, Succ]]
      exact succ_write_iff hcur hne hsucc
    · have hcj : c ≠ j := by
        rintro rfl
        rw [hrow, write_row_self hcur, Option.some.injEq] at hr
        subst hr
        exact hpend hpend'
      rw [countP_eq_zero_of_forall fun x hx => hd x hx c hcj]
      exact Nat.zero_le _
  cases hmove with
  | idle => exact h
  | countDown => exact h.countDown hs
  | @flag j r hrun =>
      have hrow := hx Window.cancel j r (by simp) (by simp)
      exact hwrite (Multiset.mem_singleton_self _) hrow (by rw [hrun]; rfl) (by rw [hrun]; simp) rfl rfl rfl
        (by simp) (by simp [Due.releasing]) (by rw [hrun]; simp)
  | @launch j r s d' hstate _ _ hd' =>
      have hwin : window start j r ∈ ({window start j r, held j} : Multiset Due) := by simp
      obtain ⟨cur, hrow, -, hag⟩ := hs.of_mem hwin
      exact hwrite hwin hrow hag.open (by rw [hstate]; simp) rfl rfl rfl
        (by rcases hd' with rfl | rfl <;> simp) (by simp [Due.releasing]) (by rw [hstate]; simp)
  | @retry j r s hstate =>
      obtain ⟨cur, hrow, -, hag⟩ := hs.of_mem (x := window finish j r) (by simp)
      exact hwrite (Multiset.mem_singleton_self _) hrow hag.open (by rw [hstate]; simp) rfl rfl rfl
        (by simp) (by simp [Due.releasing]) (by rw [hstate]; simp)
  | @reassign j r s hstate =>
      obtain ⟨cur, hrow, -, hag⟩ := hs.of_mem (x := window expire j r) (by simp)
      exact hwrite (Multiset.mem_singleton_self _) hrow hag.open (by rw [hstate]; simp) rfl rfl rfl
        (by simp) (by simp [Due.releasing]) (by rw [hstate]; simp)
  | @release j r s hstate =>
      obtain ⟨cur, hrow, -, hag⟩ := hs.of_mem (x := window Window.release j r) (by simp)
      refine hwrite (Multiset.mem_singleton_self _) hrow hag.open ?_ rfl rfl rfl (by simp) ?_ ?_
      · rcases hstate with hst | hst <;> rw [hst] <;> simp
      · intro x hx c hcj
        rw [Multiset.mem_singleton.mp hx]
        simp [Due.releasing, Ne.symm hcj]
      · rcases hstate with hst | hst <;> rw [hst] <;> simp
  | @skip j w r s hstate =>
      have hwin : window Window.skip j r ∈ ({window Window.skip j r, doomed j w} : Multiset Due) := by simp
      obtain ⟨cur, hrow, -, hag⟩ := hs.of_mem hwin
      exact hwrite hwin hrow hag.open (by rw [hstate]; simp) rfl rfl rfl (by simp) (by simp [Due.releasing])
        (by rw [hstate]; simp)
  | @conclude k j r s hends hwf =>
      have hwin : window k j r ∈ ({window k j r} + k.entry j r : Multiset Due) := by simp
      have hnone : ∀ q, Due.unreleased q ∉ ({window k j r} + k.entry j r : Multiset Due) := by
        intro q hq
        rcases Multiset.mem_add.mp hq with hq | hq
        · simp at hq
        · cases mem_entry hq
      refine h.keep hback rfl rfl
        (fun p c hpc => hs.unreleased_conclude hwin hwf hnone hpc) fun c x _ _ => ?_
      rw [countP_eq_zero_of_forall]
      · exact Nat.zero_le _
      · intro y hy
        rcases Multiset.mem_add.mp hy with hy | hy
        · rw [Multiset.mem_singleton.mp hy]
          cases k with
          | release => cases hends
          | _ => rfl
        · rw [mem_entry hy]
          rfl
  | @openRelease c r hrow =>
      exact hquiet rfl rfl rfl (by simp) fun i _ _ _ => by rw [countP_singleton, countP_singleton]; exact le_rfl
  | @dropReady c hrow =>
      refine hquiet rfl rfl rfl (by simp) fun i r hr hpend => ?_
      have hic : c ≠ i := by
        rintro rfl
        exact hrow r hr hpend
      rw [countP_singleton]
      simp [Due.releasing, hic]
  | @unqueue k j r hk =>
      refine hquiet rfl rfl rfl (fun p => ?_) fun i _ _ _ => ?_
      · unfold Window.entry
        rcases hk with rfl | rfl
        · dsimp only
          split_ifs <;> simp
        · simp
      · rw [Multiset.countP_add]
        exact Nat.le_add_right _ _
  | _ => exact hplain rfl rfl rfl (by simp) (by simp [Due.releasing])

/-! ### Descendants of a failure -/

/-- The walk that skips the descendants of `p` is on its way to `c`. -/
def Reaching (D : Multiset Due) (p c : JobId) : Prop :=
  (∃ w, Due.expand p w ∈ D) ∨ (∃ w, doomed c w ∈ D) ∨ ∃ r, window Window.skip c r ∈ D

/-- A job in `PENDING` below a parent that did not succeed is about to be skipped. -/
structure Swept (b : Board) (D : Multiset Due) : Prop where
  doomed : ∀ p c r, b.row c = some r → r.state = .pending → (p, c) ∈ b.deps → b.Bad p → Reaching D p c
  closed : ∀ c r, closed c ∈ D → b.row c = some r → r.state = .pending → ∃ s, window Window.skip c s ∈ D

theorem Reaching.mono {D' : Multiset Due} (h : Reaching D p c)
    (hd : ∀ x ∈ D, (∃ w, x = Due.expand p w) ∨ (∃ w, x = doomed c w) ∨ (∃ r, x = window Window.skip c r) → x ∈ D') :
    Reaching D' p c := by
  rcases h with ⟨w, hx⟩ | ⟨w, hx⟩ | ⟨r, hx⟩
  · exact .inl ⟨w, hd _ hx (.inl ⟨w, rfl⟩)⟩
  · exact .inr (.inl ⟨w, hd _ hx (.inr (.inl ⟨w, rfl⟩))⟩)
  · exact .inr (.inr ⟨r, hd _ hx (.inr (.inr ⟨r, rfl⟩))⟩)

/-- The dues of the walk that skips descendants. -/
def sweeping : Due → Bool
  | Due.expand _ _ | Due.doomed _ _ | Due.closed _ | window Window.skip _ _ => true
  | _ => false

/-- A step that has nothing to do with such a walk. -/
theorem Swept.keep (h : b.Swept (d + O))
    (hback : ∀ c r, b'.row c = some r → r.state = .pending → b.row c = some r) (hdeps : b'.deps = b.deps)
    (hbad : ∀ p c, (p, c) ∈ b.deps → b'.Bad p → b.Bad p ∨ ∃ w, Due.expand p w ∈ d')
    (hd : ∀ x ∈ d, sweeping x = false) (hd' : ∀ c, Due.closed c ∉ d') : b'.Swept (d' + O) where
  doomed p c r hrow hpend hpc hp := by
    rw [hdeps] at hpc
    rcases hbad p c hpc hp with hp | ⟨w, hw⟩
    · refine (h.doomed p c r (hback c r hrow hpend) hpend hpc hp).mono fun x hx hkind => ?_
      rcases Multiset.mem_add.mp hx with hx | hx
      · have hfalse := hd x hx
        rcases hkind with ⟨w, rfl⟩ | ⟨w, rfl⟩ | ⟨r, rfl⟩ <;> cases hfalse
      · exact Multiset.mem_add.mpr (.inr hx)
    · exact .inl ⟨w, Multiset.mem_add.mpr (.inl hw)⟩
  closed c r hmem hrow hpend := by
    rcases Multiset.mem_add.mp hmem with hmem | hmem
    · exact absurd hmem (hd' c)
    · obtain ⟨s, hs⟩ := h.closed c r (Multiset.mem_add.mpr (.inr hmem)) (hback c r hrow hpend) hpend
      rcases Multiset.mem_add.mp hs with hs | hs
      · cases hd _ hs
      · exact ⟨s, Multiset.mem_add.mpr (.inr hs)⟩

/-- A step of the walk itself, which changes no row. -/
theorem Swept.walk (h : b.Swept (d + O))
    (hreach : ∀ p c r, b.row c = some r → r.state = .pending → (p, c) ∈ b.deps → Reaching (d + O) p c →
      Reaching (d' + O) p c)
    (hclosed : ∀ c r, Due.closed c ∈ d' → b.row c = some r → r.state = .pending →
      Due.closed c ∈ d ∨ ∃ s, window Window.skip c s ∈ d')
    (hwin : ∀ c s, window Window.skip c s ∉ d) : b.Swept (d' + O) where
  doomed p c r hrow hpend hpc hp := hreach p c r hrow hpend hpc (h.doomed p c r hrow hpend hpc hp)
  closed c r hmem hrow hpend := by
    have hold : Due.closed c ∈ d + O → ∃ s, window Window.skip c s ∈ d' + O := by
      intro hmem
      obtain ⟨s, hs⟩ := h.closed c r hmem hrow hpend
      rcases Multiset.mem_add.mp hs with hs | hs
      · exact absurd hs (hwin c s)
      · exact ⟨s, Multiset.mem_add.mpr (.inr hs)⟩
    rcases Multiset.mem_add.mp hmem with hmem | hmem
    · rcases hclosed c r hmem hrow hpend with hd | ⟨s, hs⟩
      · exact hold (Multiset.mem_add.mpr (.inl hd))
      · exact ⟨s, Multiset.mem_add.mpr (.inl hs)⟩
    · exact hold (Multiset.mem_add.mpr (.inr hmem))

theorem Swept.grow {D' : Multiset Due} (h : b.Swept D) (hrow : b'.row = b.row) (hdeps : b'.deps = b.deps)
    (hsub : ∀ x ∈ D, x ∈ D') (hclosed : ∀ c, Due.closed c ∈ D' → Due.closed c ∈ D) : b'.Swept D' where
  doomed p c r hr hpend hpc hp := by
    rw [hrow] at hr
    rw [hdeps] at hpc
    rw [Bad, hrow] at hp
    exact (h.doomed p c r hr hpend hpc hp).mono fun x hx _ => hsub x hx
  closed c r hmem hr hpend := by
    rw [hrow] at hr
    obtain ⟨s, hs⟩ := h.closed c r (hclosed c hmem) hr hpend
    exact ⟨s, hsub _ hs⟩

theorem bad_of_write (hrow : b.row j = some cur) (hp : (b.write j s).Bad p) (hs : s.state.isTerminal = false) :
    b.Bad p := by
  obtain ⟨x, hx, hend, hne⟩ := hp
  by_cases hpj : p = j
  · subst hpj
    rw [write_row_self hrow, Option.some.injEq] at hx
    subst hx
    rw [hs] at hend
    cases hend
  · rw [write_row_of_ne hpj] at hx
    exact ⟨x, hx, hend, hne⟩

theorem Swept.skip (h : b.Swept ({window Window.skip c r, Due.doomed c w} + O))
    (hs : b.Safe ({window Window.skip c r, Due.doomed c w} + O)) (hstate : s.state = .skipped) :
    (b.write c s).Swept ({metric c, callback c, slot c, unit c w true, Due.expand c w} + O) := by
  obtain ⟨cur, hrow, -⟩ := hs.of_mem (x := window Window.skip c r) (by simp)
  have hother : ∀ {c' x}, (b.write c s).row c' = some x → x.state = .pending → c' ≠ c ∧ b.row c' = some x := by
    intro c' x hx hpend
    by_cases hcc : c' = c
    · subst hcc
      rw [write_row_self hrow, Option.some.injEq] at hx
      subst hx
      rw [hstate] at hpend
      cases hpend
    · rw [write_row_of_ne hcc] at hx
      exact ⟨hcc, hx⟩
  refine ⟨fun p c' x hx hpend hpc hp => ?_, fun c' x hmem hx hpend => ?_⟩
  · obtain ⟨hcc, hx⟩ := hother hx hpend
    by_cases hpc' : p = c
    · subst hpc'
      exact .inl ⟨w, by simp⟩
    · rw [Bad, write_row_of_ne hpc'] at hp
      refine (h.doomed p c' x hx hpend hpc hp).mono fun y hy hkind => ?_
      rcases Multiset.mem_add.mp hy with hy | hy
      · simp only [Multiset.insert_eq_cons, Multiset.mem_cons, Multiset.mem_singleton] at hy
        rcases hkind with ⟨w', rfl⟩ | ⟨w', rfl⟩ | ⟨r', rfl⟩ <;> simp [hcc] at hy
      · exact Multiset.mem_add.mpr (.inr hy)
  · obtain ⟨hcc, hx⟩ := hother hx hpend
    have hmem' : Due.closed c' ∈ O := by simpa using hmem
    obtain ⟨y, hy⟩ := h.closed c' x (Multiset.mem_add.mpr (.inr hmem')) hx hpend
    refine ⟨y, Multiset.mem_add.mpr (.inr ?_)⟩
    rcases Multiset.mem_add.mp hy with hy | hy
    · simp [hcc] at hy
    · exact hy

theorem Swept.conclude {k : Window} (h : b.Swept ({window k j r} + k.entry j r + O))
    (hs : b.Safe ({window k j r} + k.entry j r + O)) (hends : k.Ends r s.state) (hwf : s.workflowId = r.workflowId)
    (hback : ∀ c x, (b.write j s).row c = some x → x.state = .pending → b.row c = some x) :
    (b.write j s).Swept (s.endDues j + O) := by
  obtain ⟨cur, hrow, hwf', -⟩ := hs.of_mem (x := window k j r) (by simp)
  refine h.keep hback rfl (fun p c hpc hp => ?_) (fun x hx => ?_) fun c hmem => ?_
  · by_cases hpj : p = j
    · subst hpj
      obtain ⟨rp, rc, hrp, -, -, hne⟩ := hs.graph.edge p c hpc
      rw [hrow, Option.some.injEq] at hrp
      subst hrp
      obtain ⟨x, hx, -, hsucc⟩ := hp
      rw [write_row_self hrow, Option.some.injEq] at hx
      subst hx
      refine .inr ⟨s.workflowId, ?_⟩
      rw [Stub.endDues, if_neg (by rw [hwf, ← hwf']; exact hne), if_neg hsucc]
      simp
    · rw [Bad, write_row_of_ne hpj] at hp
      exact .inl hp
  · rcases Multiset.mem_add.mp hx with hx | hx
    · rw [Multiset.mem_singleton.mp hx]
      cases k with
      | skip => cases hends
      | _ => rfl
    · rw [mem_entry hx]
      rfl
  · rcases mem_endDues hmem with hx | hx | hx | ⟨-, -, hx | hx⟩ | ⟨-, -, hx | hx⟩ <;> cases hx

/-- **No job below a failure is forgotten.** -/
theorem Swept.move (h : b.Swept (d + O)) (hs : b.Safe (d + O)) (hx : b.Exact (d + O)) (hmove : Move b d b' d') :
    b'.Swept (d' + O) := by
  have hback := fun c r => hs.pending_of_move (c := c) (r := r) hx hmove
  have hquiet : b'.row = b.row → b'.deps = b.deps → (∀ x ∈ d, sweeping x = false) → (∀ c, Due.closed c ∉ d') →
      b'.Swept (d' + O) := fun hrow hdeps hd hd' =>
    h.keep hback hdeps (fun p c _ hp => .inl (by rw [Bad, hrow] at hp; exact hp)) hd hd'
  have hwrite : ∀ {j cur s}, b.row j = some cur → s.state.isTerminal = false → b'.row = (b.write j s).row →
      b'.deps = b.deps → (∀ x ∈ d, sweeping x = false) → (∀ c, Due.closed c ∉ d') → b'.Swept (d' + O) :=
    fun hcur hopen hrow hdeps hd hd' => h.keep hback hdeps
      (fun p c _ hp => .inl (bad_of_write hcur (by rw [Bad, hrow] at hp; exact hp) hopen)) hd hd'
  cases hmove with
  | idle => exact h
  | @flag j r hrun =>
      exact hwrite (hx Window.cancel j r (by simp) (by simp)) (by rw [hrun]; rfl) rfl rfl (by simp [sweeping])
        (by simp)
  | @launch j r s d' hstate _ _ hd' =>
      obtain ⟨cur, hrow, -⟩ := hs.of_mem (x := window start j r) (by simp)
      exact hwrite hrow (by rw [hstate]; rfl) rfl rfl (by simp [sweeping]) (by rcases hd' with rfl | rfl <;> simp)
  | @retry j r s hstate =>
      obtain ⟨cur, hrow, -⟩ := hs.of_mem (x := window finish j r) (by simp)
      exact hwrite hrow (by rw [hstate]; rfl) rfl rfl (by simp [sweeping]) (by simp)
  | @reassign j r s hstate =>
      obtain ⟨cur, hrow, -⟩ := hs.of_mem (x := window expire j r) (by simp)
      exact hwrite hrow (by rw [hstate]; rfl) rfl rfl (by simp [sweeping]) (by simp)
  | @release j r s hstate =>
      obtain ⟨cur, hrow, -⟩ := hs.of_mem (x := window Window.release j r) (by simp)
      exact hwrite hrow (by rcases hstate with hst | hst <;> rw [hst] <;> rfl) rfl rfl (by simp [sweeping]) (by simp)
  | conclude hends hwf => exact h.conclude hs hends hwf hback
  | skip hstate => exact h.skip hs hstate
  | @unqueue k j r hk =>
      refine h.grow rfl rfl (fun x hmem => ?_) fun c hmem => ?_
      · rcases Multiset.mem_add.mp hmem with hmem | hmem
        · exact Multiset.mem_add.mpr (.inl (Multiset.mem_add.mpr (.inl hmem)))
        · exact Multiset.mem_add.mpr (.inr hmem)
      · rcases Multiset.mem_add.mp hmem with hmem | hmem
        · rcases Multiset.mem_add.mp hmem with hmem | hmem
          · simp at hmem
          · cases mem_entry hmem
        · exact Multiset.mem_add.mpr (.inr hmem)
  | @expand q w =>
      refine h.walk (fun p c r _ _ hpc hreach => ?_) (by simp) (by simp)
      rcases hreach with ⟨w', hmem⟩ | ⟨w', hmem⟩ | ⟨r', hmem⟩ <;> rcases Multiset.mem_add.mp hmem with hmem | hmem
      · simp only [Multiset.mem_singleton, Due.expand.injEq] at hmem
        obtain ⟨rfl, rfl⟩ := hmem
        refine .inr (.inl ⟨w', Multiset.mem_add.mpr (.inl ?_)⟩)
        exact List.mem_map.mpr ⟨c, (hs.graph.children p c).mpr hpc, rfl⟩
      · exact .inl ⟨w', Multiset.mem_add.mpr (.inr hmem)⟩
      · simp at hmem
      · exact .inr (.inl ⟨w', Multiset.mem_add.mpr (.inr hmem)⟩)
      · simp at hmem
      · exact .inr (.inr ⟨r', Multiset.mem_add.mpr (.inr hmem)⟩)
  | @openSkip c w r hrow =>
      refine h.walk (fun p c' r' _ _ _ hreach => ?_) (fun c' r' hmem _ _ => ?_) (by simp)
      · refine hreach.mono fun x hmem _ => ?_
        rcases Multiset.mem_add.mp hmem with hmem | hmem
        · exact Multiset.mem_add.mpr (.inl (by simp [Multiset.mem_singleton.mp hmem]))
        · exact Multiset.mem_add.mpr (.inr hmem)
      · obtain rfl : c' = c := by simpa using hmem
        exact .inr ⟨r, by simp⟩
  | @passSkip c w r hrow hend =>
      have hne : ∀ c' r', b.row c' = some r' → r'.state = .pending → c' ≠ c := by
        rintro c' r' hr hpend rfl
        rw [hrow, Option.some.injEq] at hr
        subst hr
        rw [hpend] at hend
        cases hend
      refine h.walk (fun p c' r' hr hpend _ hreach => ?_) (fun c' r' hmem hr hpend => ?_) (by simp)
      · refine hreach.mono fun x hmem hkind => ?_
        rcases Multiset.mem_add.mp hmem with hmem | hmem
        · rw [Multiset.mem_singleton.mp hmem] at hkind
          simp [Ne.symm (hne c' r' hr hpend)] at hkind
        · exact Multiset.mem_add.mpr (.inr hmem)
      · exact absurd (by simpa using hmem) (hne c' r' hr hpend)
  | @missSkip c w hrow =>
      have hne : ∀ c' r', b.row c' = some r' → c' ≠ c := by
        rintro c' r' hr rfl
        rw [hrow] at hr
        cases hr
      refine h.walk (fun p c' r' hr _ _ hreach => ?_) (fun c' r' hmem hr _ => ?_) (by simp)
      · refine hreach.mono fun x hmem hkind => ?_
        rcases Multiset.mem_add.mp hmem with hmem | hmem
        · rw [Multiset.mem_singleton.mp hmem] at hkind
          simp [Ne.symm (hne c' r' hr)] at hkind
        · exact Multiset.mem_add.mpr (.inr hmem)
      · exact absurd (by simpa using hmem) (hne c' r' hr)
  | @seenSkip c w =>
      refine h.walk (fun p c' r' hr hpend _ hreach => ?_) (fun c' r' hmem _ _ => .inl (by simpa using hmem)) (by simp)
      by_cases hcc : c' = c
      · subst hcc
        -- the walk met `c` before and has not written its row yet
        obtain ⟨s, hwin⟩ := h.closed c' r' (by simp) hr hpend
        exact .inr (.inr ⟨s, by simpa using hwin⟩)
      · refine hreach.mono fun x hmem hkind => ?_
        rcases Multiset.mem_add.mp hmem with hmem | hmem
        · simp only [Multiset.insert_eq_cons, Multiset.mem_cons, Multiset.mem_singleton] at hmem
          rcases hmem with rfl | rfl <;> simp [Ne.symm hcc] at hkind
        · exact Multiset.mem_add.mpr (.inr hmem)
  | @endSkip seen =>
      refine h.walk (fun p c' r' _ _ _ hreach => ?_) (by simp) (by simp)
      refine hreach.mono fun x hmem hkind => ?_
      rcases Multiset.mem_add.mp hmem with hmem | hmem
      · obtain ⟨i, -, rfl⟩ := List.mem_map.mp hmem
        simp at hkind
      · exact Multiset.mem_add.mpr (.inr hmem)
  | _ => exact hquiet rfl rfl (by simp [sweeping]) (by simp)

/-! ### New jobs -/

section Admission

variable {N : Finset JobId}

theorem Exact.admits (h : b.Exact D) (ha : b.Admits b' N w) : b'.Exact D := fun k j r hmem hk =>
  ha.row_of_some (h k j r hmem hk)

/-- A job that is not new keeps its entry. -/
theorem Admits.live_iff (ha : b.Admits b' N w) (hmem : j ∉ N) : j ∈ b'.live ↔ j ∈ b.live := by
  refine ⟨fun hin => ?_, fun hin => ha.live.1 hin⟩
  rcases Finset.mem_union.mp (ha.live.2 hin) with hin | hin
  · exact hin
  · exact absurd hin hmem

theorem Ticketed.admits (h : b.Ticketed D) (ha : b.Admits b' N w)
    (hlive : ∀ j ∈ N, ∀ r, b'.row j = some r → (j ∈ b'.live ↔ j ∈ b.live ∨ r.state ≠ .pending)) :
    b'.Ticketed D := by
  intro j
  have hj := h j
  by_cases hmem : j ∈ N
  · obtain ⟨r, hrow, hst⟩ := ha.new j hmem
    have hnone : b.waiting j = false := by rw [waiting, ha.fresh j hmem]; rfl
    rw [entries, hnone, Bool.toNat_false] at hj
    have hold : j ∉ b.live := fun hin => by
      rw [if_pos hin] at hj
      omega
    rw [if_neg hold] at hj
    rw [entries, waiting_of_row hrow]
    have hiff := hlive j hmem r hrow
    have hstate := hst.state
    split_ifs at hstate
    · rw [if_neg (by rw [hiff, hstate]; simp [hold]), hstate]
      exact hj
    · have hwait : r.state.isWaiting = true := by rcases hstate with hs | hs <;> rw [hs] <;> rfl
      have hin : j ∈ b'.live := hiff.mpr (.inr (by rcases hstate with hs | hs <;> rw [hs] <;> simp))
      rw [if_pos hin, hwait, Bool.toNat_true]
      omega
  · simp only [entries, waiting, ha.old j hmem, ha.live_iff hmem] at hj ⊢
    exact hj

/-- The queue may refuse the entry of a new job. -/
theorem Spare.admits (h : b.Spare D) (ha : b.Admits b' N w)
    (hlive : ∀ j ∈ N, ∀ r, b'.row j = some r → j ∈ b'.live → r.state ≠ .pending) : b'.Spare D := by
  intro j
  have hj := h j
  by_cases hmem : j ∈ N
  · obtain ⟨r, hrow, hst⟩ := ha.new j hmem
    have hnone : b.waiting j = false := by rw [waiting, ha.fresh j hmem]; rfl
    rw [entries, hnone, Bool.toNat_false] at hj
    rw [entries, waiting_of_row hrow]
    have hstate := hst.state
    split_ifs with hin
    · have hne := hlive j hmem r hrow hin
      have hwait : r.state.isWaiting = true := by
        split_ifs at hstate
        · exact absurd hstate hne
        · rcases hstate with hs | hs <;> rw [hs] <;> rfl
      rw [hwait, Bool.toNat_true]
      omega
    · omega
  · simp only [entries, waiting, ha.old j hmem, ha.live_iff hmem] at hj ⊢
    exact hj

theorem Manned.admits (h : b.Manned D) (hs : b.Safe D) (ha : b.Admits b' N w) : b'.Manned D where
  lease j t a r hl hr := by
    rw [ha.lease] at hl
    obtain ⟨x, hx, -⟩ := hs.lease j (by rw [hl]; rfl)
    rw [ha.old j (ha.notMem_of_row hx)] at hr
    exact h.lease j t a r hl hr
  running j r hr hrun := by
    by_cases hmem : j ∈ N
    · obtain ⟨x, hx, hst⟩ := ha.new j hmem
      rw [hr, Option.some.injEq] at hx
      subst hx
      have hstate := hst.state
      rw [hrun] at hstate
      simp at hstate
    · rw [ha.old j hmem] at hr
      rw [ha.lease]
      exact h.running j r hr hrun

/-- The parents of a new job are new, and open. -/
theorem Admits.parent_of_new (ha : b.Admits b' N w) (hg : b.Graph) (hc : c ∈ N) (hpc : (p, c) ∈ b'.deps) :
    ∃ r, b'.row p = some r ∧ r.state.isTerminal = false := by
  rcases ha.depsNew _ hpc with hold | ⟨hp, -, -⟩
  · obtain ⟨-, rc, -, hrc, -⟩ := hg.edge p c hold
    exact absurd hc (ha.notMem_of_row hrc)
  · obtain ⟨r, hr, hst⟩ := ha.new p hp
    exact ⟨r, hr, hst.isTerminal⟩

theorem Counting.admits (h : b.Counting D) (hg : b.Graph) (ha : b.Admits b' N w) : b'.Counting D := by
  have hnew : ∀ {c r}, c ∈ N → b'.row c = some r → r.state = .pending →
      0 < (b'.parents c).card ∧ b'.pending c = (b'.parents c).card := by
    intro c r hc hrow hpend
    obtain ⟨x, hx, hst⟩ := ha.new c hc
    rw [hrow, Option.some.injEq] at hx
    subst hx
    have hpos := hst.pending_iff.mp hpend
    exact ⟨hpos, ha.pendingNew c hc hpos⟩
  refine ⟨fun c r hrow hpend => ?_, fun c r hrow hpend => ?_⟩
  · by_cases hc : c ∈ N
    · rw [(hnew hc hrow hpend).2]
      have hall : b'.openParents D c = b'.parents c := by
        ext p
        rw [mem_openParents, mem_parents]
        refine and_iff_left_of_imp fun hpc => .inl ?_
        rintro ⟨x, hx, hsucc⟩
        obtain ⟨y, hy, hopen⟩ := ha.parent_of_new hg hc hpc
        rw [hx, Option.some.injEq] at hy
        subst hy
        rw [hsucc] at hopen
        cases hopen
      rw [hall]
    · rw [ha.old c hc] at hrow
      have hsame : b'.openParents D c = b.openParents D c := by
        ext p
        rw [mem_openParents, mem_openParents, ha.deps_iff hc]
        refine and_congr_right fun hpc => ?_
        obtain ⟨rp, -, hrp, -⟩ := hg.edge p c hpc
        rw [Unreleased, Unreleased, ha.succ_iff (ha.notMem_of_row hrp)]
      rw [ha.pendingOld c hc, hsame]
      exact h.counter c r hrow hpend
  · by_cases hc : c ∈ N
    · obtain ⟨hpos, hpending⟩ := hnew hc hrow hpend
      exact .inl (by rw [hpending]; exact_mod_cast hpos)
    · rw [ha.old c hc] at hrow
      rw [ha.pendingOld c hc]
      exact h.ready c r hrow hpend

theorem Swept.admits (h : b.Swept D) (hg : b.Graph) (ha : b.Admits b' N w) (hrest : ∀ c, Due.closed c ∉ D) :
    b'.Swept D := by
  refine ⟨fun p c r hrow hpend hpc hp => ?_, fun c r hmem => absurd hmem (hrest c)⟩
  obtain ⟨x, hx, hend, hne⟩ := hp
  by_cases hc : c ∈ N
  · obtain ⟨y, hy, hopen⟩ := ha.parent_of_new hg hc hpc
    rw [hx, Option.some.injEq] at hy
    subst hy
    rw [hend] at hopen
    cases hopen
  · have hpc' := (ha.deps_iff hc).mp hpc
    obtain ⟨rp, -, hrp, -⟩ := hg.edge p c hpc'
    rw [ha.old c hc] at hrow
    rw [ha.old p (ha.notMem_of_row hrp)] at hx
    exact h.doomed p c r hrow hpend hpc' ⟨x, hx, hend, hne⟩

end Admission

end Board

end DistributedJobEngine
