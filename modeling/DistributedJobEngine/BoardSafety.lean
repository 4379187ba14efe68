import DistributedJobEngine.Board

/-! The invariant of the board under interleaved moves, as long as no row becomes terminal while another
operation is between its read of that row and its write. Rows that are read for a write are never terminal,
a leased job is running, and only jobs whose parents all succeeded leave `PENDING` other than by being
cancelled or skipped. -/

namespace DistributedJobEngine

open Due Window

namespace Board

variable {b b' : Board} {D d d' O : Multiset Due} {j p c : JobId} {r s : Stub}

def Succ (b : Board) (p : JobId) : Prop := ∃ r, b.row p = some r ∧ r.state = .succeeded

/-- `p` ended without success. -/
def Bad (b : Board) (p : JobId) : Prop :=
  ∃ r, b.row p = some r ∧ r.state.isTerminal = true ∧ r.state ≠ .succeeded

def Ended (b : Board) (j : JobId) : Prop := ∃ r, b.row j = some r ∧ r.state.isTerminal = true

def parents (b : Board) (c : JobId) : Finset JobId := (b.deps.filter fun d => d.2 = c).image Prod.fst

theorem mem_parents : p ∈ b.parents c ↔ (p, c) ∈ b.deps := by
  simp [parents]

/-- The edges join rows of one workflow, and `children_` lists them. -/
structure Graph (b : Board) : Prop where
  ids : ∀ j, j ∈ b.ids ↔ (b.row j).isSome
  edge : ∀ p c, (p, c) ∈ b.deps → ∃ rp rc, b.row p = some rp ∧ b.row c = some rc ∧
    rp.workflowId = rc.workflowId ∧ rp.workflowId ≠ ""
  children : ∀ p c, c ∈ b.children p ↔ (p, c) ∈ b.deps
  nodup : ∀ p, (b.children p).Nodup

/-- The row `cur` of `j` is still one over which the operation may write. -/
def Agrees (b : Board) (j : JobId) : Window → Stub → Stub → Prop
  | .cancel, old, cur =>
      if old.state = .running then (cur.state = .running ∨ cur.state = .retrying) ∧ old.deps ≤ 0
      else cur.state.isTerminal = false ∧ cur.state ≠ .running ∧ b.lease j = none
  | .start, old, cur =>
      cur.state = old.state ∧ cur.state.isWaiting = true ∧ b.lease j = none ∧ old.deps ≤ 0
  | .finish, old, cur | .expire, old, cur => cur.state = .running ∧ b.lease j = none ∧ old.deps ≤ 0
  | .release, _, cur => cur.state = .pending ∧ ∀ p, (p, j) ∈ b.deps → b.Succ p
  | .skip, _, cur => cur.state = .pending ∧ ∃ p, (p, j) ∈ b.deps ∧ b.Bad p

/-- What a due says about the board. -/
def Fact (b : Board) : Due → Prop
  | .window k j old => ∃ cur, b.row j = some cur ∧ cur.workflowId = old.workflowId ∧ b.Agrees j k old cur
  | .seek j => ∃ r, b.row j = some r ∧ r.state ≠ .pending
  | .copy j old => ∃ r, b.row j = some r ∧ r.workflowId = old.workflowId ∧
      (old.deps ≤ 0 ∨ r.state.isTerminal = true)
  | .unreleased p => b.Succ p
  | .ready c => (∃ r, b.row c = some r) ∧ ∀ p, (p, c) ∈ b.deps → b.Succ p
  | .expand p w => ∃ r, b.row p = some r ∧ r.workflowId = w ∧ r.state.isTerminal = true ∧ r.state ≠ .succeeded
  | .doomed c w => (∃ r, b.row c = some r ∧ r.workflowId = w) ∧ ∃ p, (p, c) ∈ b.deps ∧ b.Bad p
  | .unit j w failed => ∃ r, b.row j = some r ∧ r.workflowId = w ∧ w ≠ "" ∧ r.state.isTerminal = true ∧
      (failed = true ↔ r.state ≠ .succeeded)
  | _ => True

/-- `p` did not succeed, or its children have not been counted down yet. -/
def Unreleased (b : Board) (D : Multiset Due) (p : JobId) : Prop := ¬ b.Succ p ∨ Due.unreleased p ∈ D

open Classical in
/-- The parents that `pending_deps_` still has to count. -/
noncomputable def openParents (b : Board) (D : Multiset Due) (c : JobId) : Finset JobId :=
  (b.parents c).filter (b.Unreleased D)

theorem mem_openParents : p ∈ b.openParents D c ↔ (p, c) ∈ b.deps ∧ b.Unreleased D p := by
  classical
  simp [openParents, mem_parents]

/-- The states a job can be in while some parent has not succeeded. -/
def Held (s : JobState) : Prop := s = .pending ∨ s = .cancelled ∨ s = .skipped

structure Safe (b : Board) (D : Multiset Due) : Prop where
  graph : b.Graph
  fact : ∀ x ∈ D, b.Fact x
  mutex : D.countP (·.locked) ≤ 1
  lease : ∀ j, (b.lease j).isSome → ∃ r, b.row j = some r ∧ r.state = .running
  finishing : ∀ j, D.countP (·.finishing j) ≤ 1
  parents : ∀ c r, b.row c = some r → ¬ Held r.state → ∀ p, (p, c) ∈ b.deps → b.Succ p
  pending : ∀ c, 0 < b.pending c → ((b.openParents D c).card : Int) ≤ b.pending c
  releasing : ∀ c, D.countP (·.releasing c) + (if 0 < b.pending c then 1 else 0) ≤ 1
  unreleased : ∀ p, D.count (.unreleased p) ≤ 1
  column : ∀ c r, b.row c = some r → (r.state = .pending → ((b.parents c).card : Int) ≤ r.deps) ∧
    (r.state.isTerminal = false → r.state ≠ .pending → r.deps ≤ 0)

/-! ### The same rows -/

theorem fact_congr {x : Due} (hrow : b'.row = b.row) (hdeps : b'.deps = b.deps) (hlease : b'.lease = b.lease) :
    b'.Fact x ↔ b.Fact x := by
  cases x with
  | window k j old => cases k <;> simp only [Fact, Agrees, Succ, Bad, hrow, hdeps, hlease]
  | _ => simp only [Fact, Succ, Bad, hrow, hdeps]

theorem openParents_subset (hdeps : b'.deps = b.deps)
    (h : ∀ p, (p, c) ∈ b.deps → b'.Unreleased d' p → b.Unreleased D p) :
    b'.openParents d' c ⊆ b.openParents D c := by
  intro p hp
  rw [mem_openParents, hdeps] at hp
  exact mem_openParents.mpr ⟨hp.1, h p hp.1 hp.2⟩

/-- A step that leaves the rows, leases and counters alone has only its new dues to justify. -/
theorem Safe.reads (h : b.Safe (d + O)) (hids : b'.ids = b.ids) (hrow : b'.row = b.row)
    (hdeps : b'.deps = b.deps) (hchildren : b'.children = b.children) (hpending : b'.pending = b.pending)
    (hlease : b'.lease = b.lease) (hfact : ∀ x ∈ d', b.Fact x) (hmutex : (d' + O).countP (·.locked) ≤ 1)
    (hfin : ∀ j, d'.countP (·.finishing j) ≤ d.countP (·.finishing j))
    (hrel : ∀ c, d'.countP (·.releasing c) ≤ d.countP (·.releasing c))
    (hunr : ∀ p, d'.count (.unreleased p) ≤ d.count (.unreleased p)) : b'.Safe (d' + O) where
  graph := by
    refine ⟨?_, ?_, ?_, ?_⟩
    · rw [hids, hrow]
      exact h.graph.ids
    · rw [hdeps, hrow]
      exact h.graph.edge
    · rw [hdeps, hchildren]
      exact h.graph.children
    · rw [hchildren]
      exact h.graph.nodup
  fact x hx := by
    rw [fact_congr hrow hdeps hlease]
    rcases Multiset.mem_add.mp hx with hx | hx
    · exact hfact x hx
    · exact h.fact x (Multiset.mem_add.mpr (.inr hx))
  mutex := hmutex
  lease := by
    rw [hlease, hrow]
    exact h.lease
  finishing j := by
    have h1 := h.finishing j
    have h2 := hfin j
    rw [Multiset.countP_add] at h1 ⊢
    omega
  parents := by
    rw [hrow, hdeps]
    simp only [Succ, hrow]
    exact h.parents
  pending c := by
    rw [hpending]
    refine fun hpos => le_trans ?_ (h.pending c hpos)
    apply Int.ofNat_le.mpr (Finset.card_le_card (openParents_subset hdeps ?_))
    rintro p - (hp | hp)
    · exact .inl (by simpa only [Succ, hrow] using hp)
    · right
      have hle := hunr p
      rw [← Multiset.count_pos, Multiset.count_add] at hp ⊢
      omega
  releasing c := by
    have h1 := h.releasing c
    have h2 := hrel c
    rw [hpending]
    rw [Multiset.countP_add] at h1 ⊢
    omega
  unreleased p := by
    have h1 := h.unreleased p
    have h2 := hunr p
    rw [Multiset.count_add] at h1 ⊢
    omega
  column := by
    rw [hrow]
    simp only [Board.parents, hdeps]
    exact h.column

/-! ### Writing a row -/

theorem write_row_self (h : b.row j = some r) : (b.write j s).row j = some s := by
  simp [write, h]

theorem write_row_of_ne {i : JobId} (h : i ≠ j) : (b.write j s).row i = b.row i := by
  simp [write, h]

/-- `b'` is `b` with the row of `j` written and perhaps its lease changed. -/
structure Wrote (b b' : Board) (j : JobId) (s : Stub) : Prop where
  row : b'.row = (b.write j s).row
  lease : ∀ i, i ≠ j → b'.lease i = b.lease i
  ids : b'.ids = b.ids
  deps : b'.deps = b.deps
  children : b'.children = b.children
  pending : b'.pending = b.pending

theorem wrote_write (b : Board) (j : JobId) (s : Stub) : b.Wrote (b.write j s) j s :=
  ⟨rfl, fun _ _ => rfl, rfl, rfl, rfl, rfl⟩

namespace Wrote

theorem row_self (hw : b.Wrote b' j s) (h : b.row j = some r) : b'.row j = some s := by
  rw [hw.row, write_row_self h]

theorem row_of_ne (hw : b.Wrote b' j s) {i : JobId} (h : i ≠ j) : b'.row i = b.row i := by
  rw [hw.row, write_row_of_ne h]

/-- Every row is still there, with its workflow. -/
theorem keeps (hw : b.Wrote b' j s) {i : JobId} {x : Stub} (hrow : b.row j = some r)
    (hwf : s.workflowId = r.workflowId) (hx : b.row i = some x) :
    ∃ y, b'.row i = some y ∧ y.workflowId = x.workflowId := by
  by_cases hij : i = j
  · subst hij
    rw [hrow, Option.some.injEq] at hx
    subst hx
    exact ⟨s, hw.row_self hrow, hwf⟩
  · exact ⟨x, by rw [hw.row_of_ne hij, hx], rfl⟩

/-- A write over an open row leaves the terminal rows alone. -/
theorem ended (hw : b.Wrote b' j s) {i : JobId} {x : Stub} (hrow : b.row j = some r)
    (hopen : r.state.isTerminal = false) (hx : b.row i = some x) (hend : x.state.isTerminal = true) :
    b'.row i = some x := by
  have hne : i ≠ j := by
    rintro rfl
    rw [hrow, Option.some.injEq] at hx
    subst hx
    rw [hend] at hopen
    cases hopen
  rw [hw.row_of_ne hne, hx]

theorem succ (hw : b.Wrote b' j s) (hrow : b.row j = some r) (hopen : r.state.isTerminal = false)
    (h : b.Succ p) : b'.Succ p := by
  obtain ⟨x, hx, hs⟩ := h
  exact ⟨x, hw.ended hrow hopen hx (by rw [hs]; rfl), hs⟩

theorem bad (hw : b.Wrote b' j s) (hrow : b.row j = some r) (hopen : r.state.isTerminal = false)
    (h : b.Bad p) : b'.Bad p := by
  obtain ⟨x, hx, hend, hs⟩ := h
  exact ⟨x, hw.ended hrow hopen hx hend, hend, hs⟩

theorem graph (hw : b.Wrote b' j s) (h : b.Graph) (hrow : b.row j = some r)
    (hwf : s.workflowId = r.workflowId) : b'.Graph where
  ids i := by
    rw [hw.ids, h.ids]
    by_cases hij : i = j
    · subst hij
      rw [hw.row_self hrow, hrow]
      rfl
    · rw [hw.row_of_ne hij]
  edge p c hpc := by
    rw [hw.deps] at hpc
    obtain ⟨rp, rc, hp, hc, heq, hne⟩ := h.edge p c hpc
    obtain ⟨yp, hyp, hwp⟩ := hw.keeps hrow hwf hp
    obtain ⟨yc, hyc, hwc⟩ := hw.keeps hrow hwf hc
    exact ⟨yp, yc, hyp, hyc, by rw [hwp, hwc, heq], by rw [hwp]; exact hne⟩
  children := by
    rw [hw.children, hw.deps]
    exact h.children
  nodup := by
    rw [hw.children]
    exact h.nodup

/-- Only the windows on the written row need another look. -/
theorem fact (hw : b.Wrote b' j s) {x : Due} (hrow : b.row j = some r) (hopen : r.state.isTerminal = false)
    (hwf : s.workflowId = r.workflowId) (hpend : s.state ≠ .pending)
    (hwin : ∀ k old, x = window k j old → b'.Agrees j k old s) (h : b.Fact x) : b'.Fact x := by
  cases x with
  | window k i old =>
      obtain ⟨cur, hcur, hwid, hag⟩ := h
      by_cases hij : i = j
      · subst hij
        rw [hrow, Option.some.injEq] at hcur
        subst hcur
        exact ⟨s, hw.row_self hrow, by rw [hwf, hwid], hwin k old rfl⟩
      · refine ⟨cur, by rw [hw.row_of_ne hij, hcur], hwid, ?_⟩
        cases k <;> simp only [Agrees, hw.lease i hij, hw.deps] at hag ⊢
        case release => exact ⟨hag.1, fun p hp => hw.succ hrow hopen (hag.2 p hp)⟩
        case skip =>
          obtain ⟨hpd, p, hp, hbad⟩ := hag
          exact ⟨hpd, p, hp, hw.bad hrow hopen hbad⟩
        all_goals exact hag
  | seek i =>
      obtain ⟨y, hy, hne⟩ := h
      by_cases hij : i = j
      · subst hij
        exact ⟨s, hw.row_self hrow, hpend⟩
      · exact ⟨y, by rw [hw.row_of_ne hij, hy], hne⟩
  | copy i old =>
      obtain ⟨y, hy, hwid, hd⟩ := h
      rcases hd with hd | hd
      · obtain ⟨y', hy', hw'⟩ := hw.keeps hrow hwf hy
        exact ⟨y', hy', hw'.trans hwid, .inl hd⟩
      · exact ⟨y, hw.ended hrow hopen hy hd, hwid, .inr hd⟩
  | unreleased p => exact hw.succ hrow hopen h
  | ready c =>
      obtain ⟨⟨y, hy⟩, hp⟩ := h
      obtain ⟨y', hy', -⟩ := hw.keeps hrow hwf hy
      refine ⟨⟨y', hy'⟩, fun p hpc => hw.succ hrow hopen (hp p ?_)⟩
      rwa [hw.deps] at hpc
  | expand p w =>
      obtain ⟨y, hy, hwid, hend, hs⟩ := h
      exact ⟨y, hw.ended hrow hopen hy hend, hwid, hend, hs⟩
  | doomed c w =>
      obtain ⟨⟨y, hy, hwid⟩, p, hpc, hbad⟩ := h
      obtain ⟨y', hy', hw'⟩ := hw.keeps hrow hwf hy
      exact ⟨⟨y', hy', hw'.trans hwid⟩, p, by rwa [hw.deps], hw.bad hrow hopen hbad⟩
  | unit i w failed =>
      obtain ⟨y, hy, hwid, hne, hend, hf⟩ := h
      exact ⟨y, hw.ended hrow hopen hy hend, hwid, hne, hend, hf⟩
  | _ => trivial

/-- **Writing an open row.** The dues besides the writer's own keep what they say; the writer has to
justify the new state of the row and the dues it leaves. -/
theorem safe (hw : b.Wrote b' j s) (h : b.Safe (d + O)) (hrow : b.row j = some r)
    (hopen : r.state.isTerminal = false) (hwf : s.workflowId = r.workflowId) (hpend : s.state ≠ .pending)
    (hlease : (b'.lease j).isSome → s.state = .running)
    (hwin : ∀ k old, window k j old ∈ O → b'.Agrees j k old s) (hfact : ∀ x ∈ d', b'.Fact x)
    (hplain : ∀ x ∈ d', x.plain = true)
    (hunr : ∀ p, p ≠ j → d'.count (.unreleased p) ≤ d.count (.unreleased p))
    (hunr_self : d'.count (.unreleased j) ≤ 1)
    (hparents : ¬ Held s.state → ∀ p, (p, j) ∈ b.deps → b.Succ p)
    (hcol : s.state.isTerminal = false → s.deps ≤ 0) : b'.Safe (d' + O) where
  graph := hw.graph h.graph hrow hwf
  fact x hx := by
    rcases Multiset.mem_add.mp hx with hx | hx
    · exact hfact x hx
    · refine hw.fact hrow hopen hwf hpend ?_ (h.fact x (Multiset.mem_add.mpr (.inr hx)))
      rintro k old rfl
      exact hwin k old hx
  mutex := by
    have h1 := h.mutex
    rw [Multiset.countP_add] at h1 ⊢
    rw [countP_eq_zero_of_forall fun x hx => locked_of_plain (hplain x hx)]
    omega
  lease i hi := by
    by_cases hij : i = j
    · subst hij
      exact ⟨s, hw.row_self hrow, hlease hi⟩
    · rw [hw.lease i hij] at hi
      rw [hw.row_of_ne hij]
      exact h.lease i hi
  finishing i := by
    have h1 := h.finishing i
    rw [Multiset.countP_add] at h1 ⊢
    rw [countP_eq_zero_of_forall fun x hx => finishing_of_plain (hplain x hx) i]
    omega
  parents c x hx hheld p hp := by
    rw [hw.deps] at hp
    apply hw.succ hrow hopen
    by_cases hcj : c = j
    · subst hcj
      rw [hw.row_self hrow, Option.some.injEq] at hx
      subst hx
      exact hparents hheld p hp
    · rw [hw.row_of_ne hcj] at hx
      exact h.parents c x hx hheld p hp
  pending c := by
    rw [hw.pending]
    refine fun hpos => le_trans ?_ (h.pending c hpos)
    apply Int.ofNat_le.mpr (Finset.card_le_card (openParents_subset hw.deps ?_))
    rintro p - (hp | hp)
    · exact .inl fun hsucc => hp (hw.succ hrow hopen hsucc)
    · by_cases hpj : p = j
      · subst hpj
        left
        rintro ⟨x, hx, hs⟩
        rw [hrow, Option.some.injEq] at hx
        subst hx
        rw [hs] at hopen
        cases hopen
      · right
        have hle := hunr p hpj
        rw [← Multiset.count_pos, Multiset.count_add] at hp ⊢
        omega
  releasing c := by
    have h1 := h.releasing c
    rw [hw.pending]
    rw [Multiset.countP_add] at h1 ⊢
    rw [countP_eq_zero_of_forall fun x hx => releasing_of_plain (hplain x hx) c]
    omega
  unreleased p := by
    by_cases hpj : p = j
    · subst hpj
      have hnot : Due.unreleased p ∉ O := by
        intro hmem
        obtain ⟨x, hx, hs⟩ := h.fact _ (Multiset.mem_add.mpr (.inr hmem))
        rw [hrow, Option.some.injEq] at hx
        subst hx
        rw [hs] at hopen
        cases hopen
      rw [Multiset.count_add, Multiset.count_eq_zero_of_notMem hnot]
      exact hunr_self
    · have h1 := h.unreleased p
      have h2 := hunr p hpj
      rw [Multiset.count_add] at h1 ⊢
      omega
  column c x hx := by
    simp only [Board.parents, hw.deps]
    by_cases hcj : c = j
    · subst hcj
      rw [hw.row_self hrow, Option.some.injEq] at hx
      subst hx
      exact ⟨fun hp => absurd hp hpend, fun ho _ => hcol ho⟩
    · rw [hw.row_of_ne hcj] at hx
      exact h.column c x hx

end Wrote

/-! ### Taking a lease back -/

theorem Fact.unlease {x : Due} (h : b.Fact x) (j : JobId) : (b.unlease j).Fact x := by
  have hnone : ∀ i, b.lease i = none → (b.unlease j).lease i = none := by
    intro i hi
    by_cases hij : i = j
    · simp [Board.unlease, hij]
    · simp [Board.unlease, hij, hi]
  cases x with
  | window k i old =>
      obtain ⟨cur, hcur, hwf, hag⟩ := h
      refine ⟨cur, hcur, hwf, ?_⟩
      cases k with
      | cancel =>
          simp only [Agrees] at hag ⊢
          split_ifs at hag ⊢ with hrun
          · exact hag
          · exact ⟨hag.1, hag.2.1, hnone i hag.2.2⟩
      | start => exact ⟨hag.1, hag.2.1, hnone i hag.2.2.1, hag.2.2.2⟩
      | finish => exact ⟨hag.1, hnone i hag.2.1, hag.2.2⟩
      | expire => exact ⟨hag.1, hnone i hag.2.1, hag.2.2⟩
      | release => exact hag
      | skip => exact hag
  | _ => exact h

/-- No attempt of a leased job is being finished. -/
theorem Safe.not_finishing (h : b.Safe D) (hlease : (b.lease j).isSome) : ∀ x ∈ D, x.finishing j = false := by
  intro x hx
  have hfact := h.fact x hx
  cases x with
  | window k i old =>
      by_contra hc
      have hc : Due.finishing j (window k i old) = true := by simpa using hc
      obtain ⟨cur, -, -, hag⟩ := hfact
      cases k <;> simp only [Due.finishing, decide_eq_true_eq, Bool.false_eq_true] at hc
      all_goals
        subst hc
        rw [hag.2.1] at hlease
        cases hlease
  | _ => rfl

theorem Safe.unlease (h : b.Safe (d + O)) (hlease : (b.lease j).isSome)
    (hfact : ∀ x ∈ d', (b.unlease j).Fact x) (hmutex : (d' + O).countP (·.locked) ≤ 1)
    (hfin : ∀ i, i ≠ j → d'.countP (·.finishing i) = 0) (hfin_self : d'.countP (·.finishing j) ≤ 1)
    (hrel : ∀ c, d'.countP (·.releasing c) = 0) (hunr : ∀ p, d'.count (.unreleased p) = 0) :
    (b.unlease j).Safe (d' + O) where
  graph := ⟨h.graph.ids, h.graph.edge, h.graph.children, h.graph.nodup⟩
  fact x hx := by
    rcases Multiset.mem_add.mp hx with hx | hx
    · exact hfact x hx
    · exact (h.fact x (Multiset.mem_add.mpr (.inr hx))).unlease j
  mutex := hmutex
  lease i hi := by
    apply h.lease
    by_cases hij : i = j
    · simp [Board.unlease, hij] at hi
    · simpa [Board.unlease, hij] using hi
  finishing i := by
    rw [Multiset.countP_add]
    by_cases hij : i = j
    · subst hij
      have hO : O.countP (·.finishing i) = 0 := by
        rw [Multiset.countP_eq_zero]
        intro x hx
        simp [h.not_finishing hlease x (Multiset.mem_add.mpr (.inr hx))]
      omega
    · have h1 := h.finishing i
      rw [Multiset.countP_add] at h1
      rw [hfin i hij]
      omega
  parents := h.parents
  pending c hpos := by
    refine le_trans ?_ (h.pending c hpos)
    apply Int.ofNat_le.mpr (Finset.card_le_card (openParents_subset rfl ?_))
    rintro p - (hp | hp)
    · exact .inl hp
    · right
      have h1 := hunr p
      rw [← Multiset.count_pos, Multiset.count_add] at hp ⊢
      omega
  releasing c := by
    have h1 := h.releasing c
    rw [Multiset.countP_add] at h1 ⊢
    have h2 := hrel c
    change _ + (if 0 < b.pending c then 1 else 0) ≤ 1
    omega
  unreleased p := by
    have h1 := h.unreleased p
    have h2 := hunr p
    rw [Multiset.count_add] at h1 ⊢
    omega
  column := h.column

/-! ### Counting down the children of a parent that succeeded -/

/-- The released parent leaves the open parents of each of its children. -/
theorem Safe.card_openParents (h : b.Safe ({Due.unreleased p} + O)) (hd' : ∀ q, Due.unreleased q ∉ d') (c : JobId) :
    (b.openParents (d' + O) c).card + (if c ∈ b.children p then 1 else 0) ≤
      (b.openParents ({Due.unreleased p} + O) c).card := by
  have hsub : b.openParents (d' + O) c ⊆ b.openParents ({Due.unreleased p} + O) c := by
    apply openParents_subset rfl
    rintro q - (hq | hq)
    · exact .inl hq
    · rcases Multiset.mem_add.mp hq with hq | hq
      · exact absurd hq (hd' q)
      · exact .inr (Multiset.mem_add.mpr (.inr hq))
  split_ifs with hc
  · have hpc := (h.graph.children p c).mp hc
    have hsucc : b.Succ p := h.fact _ (Multiset.mem_add.mpr (.inl (Multiset.mem_singleton_self _)))
    have hmem : p ∈ b.openParents ({Due.unreleased p} + O) c :=
      mem_openParents.mpr ⟨hpc, .inr (Multiset.mem_add.mpr (.inl (Multiset.mem_singleton_self _)))⟩
    have hnot : p ∉ b.openParents (d' + O) c := by
      intro hp
      rcases (mem_openParents.mp hp).2 with hp | hp
      · exact hp hsucc
      · rcases Multiset.mem_add.mp hp with hp | hp
        · exact hd' p hp
        · have hone := h.unreleased p
          have hpos := Multiset.count_pos.mpr hp
          rw [Multiset.count_add, Multiset.count_singleton_self] at hone
          omega
    exact Finset.card_lt_card (Finset.ssubset_iff_subset_ne.mpr ⟨hsub, fun heq => hnot (heq ▸ hmem)⟩)
  · exact Finset.card_le_card hsub

/-- A counter that reaches zero stops being positive. -/
theorem countedDown_turn (b : Board) (p c : JobId) :
    (if c ∈ b.children p ∧ b.pending c = 1 then 1 else 0) + (if 0 < b.countedDown p c then 1 else 0) ≤
      if 0 < b.pending c then 1 else 0 := by
  unfold countedDown
  by_cases hc : c ∈ b.children p
  · by_cases hpos : 0 < b.pending c
    · simp only [hc, hpos, true_and, if_true]
      split_ifs <;> omega
    · simp only [hc, hpos, true_and, if_false]
      split_ifs <;> omega
  · simp [hc]

theorem Graph.countP_newlyReady (h : b.Graph) (p c : JobId) :
    (((b.newlyReady p).map Due.ready : List Due) : Multiset Due).countP (·.releasing c) =
      if c ∈ b.children p ∧ b.pending c = 1 then 1 else 0 := by
  have hfun : ((fun x : Due => decide (x.releasing c = true)) ∘ Due.ready) = (· == c) := by
    funext i
    exact Bool.decide_eq_true
  rw [Multiset.coe_countP, List.countP_map, hfun]
  change (b.newlyReady p).count c = _
  rw [newlyReady]
  split_ifs with hc
  · exact List.count_eq_one_of_mem ((h.nodup p).filter _) (List.mem_filter.mpr ⟨hc.1, by simp [hc.2]⟩)
  · apply List.count_eq_zero_of_not_mem
    intro hmem
    obtain ⟨hm, hp⟩ := List.mem_filter.mp hmem
    exact hc ⟨hm, by simpa using hp⟩

theorem Safe.countDown (h : b.Safe ({Due.unreleased p} + O))
    (hmutex : (((b.newlyReady p).map Due.ready : List Due) + O).countP (·.locked) ≤ 1) :
    ({ b with pending := b.countedDown p } : Board).Safe (((b.newlyReady p).map Due.ready : List Due) + O) := by
  have hmem : ∀ {x : Due}, x ∈ ((b.newlyReady p).map Due.ready : List Due) →
      ∃ c, x = .ready c ∧ c ∈ b.children p ∧ b.pending c = 1 := by
    intro x hx
    obtain ⟨c, hc, rfl⟩ := List.mem_map.mp hx
    rw [newlyReady, List.mem_filter, decide_eq_true_eq] at hc
    exact ⟨c, rfl, hc⟩
  have hnone : ∀ q, Due.unreleased q ∉ (((b.newlyReady p).map Due.ready : List Due) : Multiset Due) := by
    intro q hq
    obtain ⟨c, hc, -⟩ := hmem hq
    cases hc
  have hcard := fun c => h.card_openParents hnone c
  have hpend : ∀ c, 0 < b.pending c →
      ((b.openParents (((b.newlyReady p).map Due.ready : List Due) + O) c).card : Int) ≤ b.countedDown p c := by
    intro c hpos
    have h1 := h.pending c hpos
    have h2 := hcard c
    unfold countedDown
    by_cases hc : c ∈ b.children p
    · rw [if_pos hc] at h2
      rw [if_pos ⟨hc, hpos⟩]
      omega
    · rw [if_neg hc] at h2
      rw [if_neg fun hand => hc hand.1]
      omega
  have hless : ∀ c, b.countedDown p c ≤ b.pending c := by
    intro c
    unfold countedDown
    split_ifs <;> omega
  refine ⟨⟨h.graph.ids, h.graph.edge, h.graph.children, h.graph.nodup⟩, ?_, hmutex, h.lease, ?_, h.parents,
    fun c hpos => hpend c (lt_of_lt_of_le hpos (hless c)), ?_, ?_, h.column⟩
  · intro x hx
    rcases Multiset.mem_add.mp hx with hx | hx
    · obtain ⟨c, rfl, hc, hone⟩ := hmem hx
      have hpc := (h.graph.children p c).mp hc
      obtain ⟨-, rc, -, hrc, -⟩ := h.graph.edge p c hpc
      refine ⟨⟨rc, hrc⟩, fun q hq => ?_⟩
      by_contra hns
      have hq' : q ∈ b.openParents (((b.newlyReady p).map Due.ready : List Due) + O) c :=
        mem_openParents.mpr ⟨hq, .inl hns⟩
      have hpos := Finset.card_pos.mpr ⟨q, hq'⟩
      have hle := hpend c (by omega)
      rw [countedDown, if_pos ⟨hc, by omega⟩, hone] at hle
      omega
    · exact (fact_congr rfl rfl rfl).mpr (h.fact x (Multiset.mem_add.mpr (.inr hx)))
  · intro i
    have h1 := h.finishing i
    rw [Multiset.countP_add] at h1 ⊢
    rw [countP_eq_zero_of_forall fun x hx => by obtain ⟨c, rfl, -⟩ := hmem hx; rfl]
    omega
  · intro c
    have h1 := h.releasing c
    have h2 := h.graph.countP_newlyReady p c
    have h3 := b.countedDown_turn p c
    rw [Multiset.countP_add] at h1 ⊢
    change _ + (if 0 < b.countedDown p c then 1 else 0) ≤ 1
    omega
  · intro q
    have h1 := h.unreleased q
    rw [Multiset.count_add] at h1 ⊢
    rw [Multiset.count_eq_zero_of_notMem (hnone q)]
    omega

/-! ### Every move -/

theorem Safe.of_mem (h : b.Safe (d + O)) {x : Due} (hx : x ∈ d) : b.Fact x :=
  h.fact x (Multiset.mem_add.mpr (.inl hx))

/-- A job met by the walk that skips descendants is `PENDING`, `CANCELLED` or `SKIPPED`. -/
theorem Safe.held_of_doomed (h : b.Safe D) {w : WorkflowId} (hx : doomed c w ∈ D) (hrow : b.row c = some r) :
    Held r.state := by
  by_contra hheld
  obtain ⟨-, p, hpc, x, hx, -, hbad⟩ := h.fact _ hx
  obtain ⟨y, hy, hs⟩ := h.parents c r hrow hheld p hpc
  rw [hx, Option.some.injEq] at hy
  subst hy
  exact hbad hs

theorem not_held_of_isWaiting {st : JobState} (h : st.isWaiting = true) : ¬ Held st := by
  rcases JobState.isWaiting_iff.mp h with rfl | rfl | rfl <;> simp [Held]

end Board

end DistributedJobEngine
