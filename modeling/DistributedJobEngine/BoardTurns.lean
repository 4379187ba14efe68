import DistributedJobEngine.BoardAdmission

/-! Where a job is while operations run one at a time. A waiting job has one entry, in the queue or in the
hands of the operation that took it or is to put it back; a running job has the lease its row names, or is
being finished. The moves keep this as long as no second operation is between its read of a row and its
write. -/

namespace DistributedJobEngine

open Due Window

namespace Due

/-- The entry of `j` outside the queue. -/
def ticket (j : JobId) : Due → Bool
  | held i | requeue i => i = j
  | _ => false

end Due

namespace Board

variable {b b' : Board} {D d d' O : Multiset Due} {j p c : JobId} {r s cur : Stub} {w : WorkflowId}

/-! ### What a step does to a row -/

/-- The ways in which a step may change the state of a row. -/
inductive Shift : JobState → JobState → Prop
  | flag : Shift .running .running
  | launch {s : JobState} (h : s.isWaiting = true) : Shift s .running
  | retry : Shift .running .retrying
  | reassign : Shift .running .queued
  | release {s : JobState} (h : s = .queued ∨ s = .scheduled) : Shift .pending s
  | cancel {s : JobState} (h : s.isWaiting = true ∨ s = .pending) : Shift s .cancelled
  | finish {s : JobState} (h : s.isTerminal = true) (hs : s ≠ .skipped) : Shift .running s
  | skip : Shift .pending .skipped

theorem Shift.ne_pending {s t : JobState} (h : Shift s t) : t ≠ .pending := by
  cases h with
  | release h => rcases h with rfl | rfl <;> simp
  | finish h => rintro rfl; cases h
  | _ => simp

/-- Every window but that of `finish_attempt` is on the row as it was read. -/
def Exact (b : Board) (D : Multiset Due) : Prop :=
  ∀ k j r, window k j r ∈ D → k ≠ finish → b.row j = some r

theorem write_self (h : b.row j = some r) : b.write j r = b := by
  have hrow : Function.update b.row j (some r) = b.row := by
    rw [← h]
    exact Function.update_eq_self j b.row
  simp only [write, h, Option.map_some]
  apply Board.ext <;> first | rfl | exact hrow

/-- A move changes at most the row it has a window on, in one of the ways above. -/
theorem Safe.shift (h : b.Safe (d + O)) (hx : b.Exact (d + O)) (hmove : Move b d b' d') :
    b'.row = b.row ∨ ∃ k j r cur s, window k j r ∈ d ∧ b.row j = some cur ∧ cur.workflowId = s.workflowId ∧
      b'.row = (b.write j s).row ∧ Shift cur.state s.state := by
  have hexact : ∀ {k j r}, window k j r ∈ d → k ≠ finish → b.row j = some r :=
    fun hmem hk => hx _ _ _ (Multiset.mem_add.mpr (.inl hmem)) hk
  cases hmove with
  | @flag j r hrun =>
      have hrow := hexact (Multiset.mem_singleton_self _) (by simp)
      exact .inr ⟨Window.cancel, j, r, r, r, by simp, hrow, rfl, rfl, hrun ▸ .flag⟩
  | @launch j r s _ hstate hwf =>
      obtain ⟨cur, hrow, hwf', -, hwait, -⟩ := h.of_mem (x := window start j r) (by simp)
      exact .inr ⟨start, j, r, cur, s, by simp, hrow, hwf'.trans hwf.symm, rfl, hstate ▸ .launch hwait⟩
  | @retry j r s hstate hwf =>
      obtain ⟨cur, hrow, hwf', hrun, -⟩ := h.of_mem (x := window finish j r) (by simp)
      exact .inr ⟨finish, j, r, cur, s, by simp, hrow, hwf'.trans hwf.symm, rfl, by rw [hrun, hstate]; exact .retry⟩
  | @reassign j r s hstate hwf =>
      obtain ⟨cur, hrow, hwf', hrun, -⟩ := h.of_mem (x := window expire j r) (by simp)
      exact .inr ⟨expire, j, r, cur, s, by simp, hrow, hwf'.trans hwf.symm, rfl,
        by rw [hrun, hstate]; exact .reassign⟩
  | @release c r s hstate hwf =>
      obtain ⟨cur, hrow, hwf', hpend, -⟩ := h.of_mem (x := window Window.release c r) (by simp)
      exact .inr ⟨Window.release, c, r, cur, s, by simp, hrow, hwf'.trans hwf.symm, rfl, hpend ▸ .release hstate⟩
  | @skip c w r s hstate hwf =>
      obtain ⟨cur, hrow, hwf', hpend, -⟩ := h.of_mem (x := window Window.skip c r) (by simp)
      exact .inr ⟨Window.skip, c, r, cur, s, by simp, hrow, hwf'.trans hwf.symm, rfl,
        by rw [hpend, hstate]; exact .skip⟩
  | @conclude k j r s hends hwf =>
      obtain ⟨cur, hrow, hwf', hag⟩ := h.of_mem (x := window k j r) (by simp)
      refine .inr ⟨k, j, r, cur, s, by simp, hrow, hwf'.trans hwf.symm, rfl, ?_⟩
      cases k with
      | cancel =>
          simp only [Agrees, hends.1, if_false] at hag
          rw [hends.2]
          refine .cancel ?_
          rcases cur.state.trichotomy with ht | hw | hr | hp
          · rw [hag.1] at ht
            cases ht
          · exact .inl hw
          · exact absurd hr hag.2.1
          · exact .inr hp
      | start =>
          rw [show s.state = .cancelled from hends]
          exact .cancel (.inl hag.2.1)
      | finish => exact hag.1 ▸ .finish hends.1 hends.2
      | expire =>
          rw [hag.1, show s.state = .failed from hends]
          exact .finish rfl (by simp)
      | release => cases hends
      | skip => cases hends
  | _ => exact .inl rfl

/-- No move puts a job into `PENDING`. -/
theorem Safe.pending_of_move (h : b.Safe (d + O)) (hx : b.Exact (d + O)) (hmove : Move b d b' d')
    (hrow : b'.row c = some r) (hpend : r.state = .pending) : b.row c = some r := by
  rcases h.shift hx hmove with hsame | ⟨k, j, old, cur, s, -, hcur, -, hwrite, hshift⟩
  · rw [← hsame, hrow]
  · rw [hwrite] at hrow
    by_cases hcj : c = j
    · subst hcj
      rw [write_row_self hcur, Option.some.injEq] at hrow
      subst hrow
      exact absurd hpend hshift.ne_pending
    · rwa [write_row_of_ne hcj] at hrow

/-- The windows of other operations stay exact if there are none when a row is written. -/
theorem Exact.move (hx : b.Exact (d + O)) (hmove : Move b d b' d')
    (halone : (∃ k j r, window k j r ∈ d) → ∀ x ∈ O, x.isWindow = false) : b'.Exact (d' + O) := by
  have hreads : b'.row = b.row → (∀ k j r, window k j r ∈ d' → k ≠ finish → b.row j = some r) →
      b'.Exact (d' + O) := by
    intro hrow hnew k j r hmem hk
    rw [hrow]
    rcases Multiset.mem_add.mp hmem with hmem | hmem
    · exact hnew k j r hmem hk
    · exact hx k j r (Multiset.mem_add.mpr (.inr hmem)) hk
  have hwrites : (∃ k j r, window k j r ∈ d) → (∀ x ∈ d', x.isWindow = false) → b'.Exact (d' + O) := by
    intro hwin hnew k j r hmem _
    have hnone : Due.isWindow (window k j r) = false := by
      rcases Multiset.mem_add.mp hmem with hmem | hmem
      · exact hnew _ hmem
      · exact halone hwin _ hmem
    cases hnone
  cases hmove with
  | idle => exact hx
  | @flag j r => exact hwrites ⟨Window.cancel, j, r, by simp⟩ (by simp)
  | @launch j r s _ _ _ _ hd' =>
      refine hwrites ⟨start, j, r, by simp⟩ ?_
      rcases hd' with rfl | rfl <;> simp [Due.isWindow]
  | @retry j r => exact hwrites ⟨finish, j, r, by simp⟩ (by simp [Due.isWindow])
  | @reassign j r => exact hwrites ⟨expire, j, r, by simp⟩ (by simp [Due.isWindow])
  | @release c r => exact hwrites ⟨Window.release, c, r, by simp⟩ (by simp [Due.isWindow])
  | @skip c w r => exact hwrites ⟨Window.skip, c, r, by simp⟩ (by simp [Due.isWindow])
  | @conclude k j r s =>
      refine hwrites ⟨k, j, r, by simp⟩ fun x hx => ?_
      rcases mem_endDues hx with rfl | rfl | rfl | ⟨-, -, rfl | rfl⟩ | ⟨-, -, rfl | rfl⟩ <;> rfl
  | @openCancel j r hrow =>
      refine hreads rfl fun k i s hmem _ => ?_
      obtain ⟨-, rfl, rfl⟩ : k = _ ∧ i = j ∧ s = r := by simpa using hmem
      exact hrow
  | @openStart j r hrow =>
      refine hreads rfl fun k i s hmem _ => ?_
      obtain ⟨-, rfl, rfl⟩ : k = _ ∧ i = j ∧ s = r := by simpa using hmem
      exact hrow
  | @openRelease j r hrow =>
      refine hreads rfl fun k i s hmem _ => ?_
      obtain ⟨-, rfl, rfl⟩ : k = _ ∧ i = j ∧ s = r := by simpa using hmem
      exact hrow
  | @openSkip j w r hrow =>
      refine hreads rfl fun k i s hmem _ => ?_
      obtain ⟨-, rfl, rfl⟩ : k = _ ∧ i = j ∧ s = r := by simpa using hmem
      exact hrow
  | @openExpire j r _ hrow =>
      refine hreads rfl fun k i s hmem _ => ?_
      obtain ⟨-, rfl, rfl⟩ : k = _ ∧ i = j ∧ s = r := by simpa using hmem
      exact hrow
  | fence =>
      refine hreads rfl fun k i s hmem hk => ?_
      simp only [Multiset.mem_singleton, window.injEq] at hmem
      exact absurd hmem.1 hk
  | @unqueue k j r hk =>
      refine hreads rfl fun k' i s hmem hne => hx k' i s (Multiset.mem_add.mpr (.inl ?_)) hne
      rcases Multiset.mem_add.mp hmem with hmem | hmem
      · exact hmem
      · cases mem_entry hmem
  | _ => exact hreads rfl (by simp)

/-! ### Entries -/

def waiting (b : Board) (j : JobId) : Bool := (b.row j).any (·.state.isWaiting)

/-- The entries of `j`: in the queue, taken from it, or about to be put on it. -/
def entries (b : Board) (D : Multiset Due) (j : JobId) : ℕ :=
  (if j ∈ b.live then 1 else 0) + D.countP (·.ticket j)

/-- A job has an entry just if it waits for one to be started, and then exactly one. -/
def Ticketed (b : Board) (D : Multiset Due) : Prop := ∀ j, b.entries D j = (b.waiting j).toNat

/-- A job that waits has at most one entry, and no other job has any. -/
def Spare (b : Board) (D : Multiset Due) : Prop := ∀ j, b.entries D j ≤ (b.waiting j).toNat

/-- A way to compare the number of entries with the number there should be. -/
class Tally (R : ℕ → ℕ → Prop) : Prop where
  le : ∀ {a w}, R a w → a ≤ w
  refl : ∀ w, R w w
  shift : ∀ {a w a' w'}, R a w → a' + w = a + w' → R a' w'

instance : Tally (· = ·) := ⟨fun h => h.le, fun _ => rfl, fun h h' => by omega⟩

instance : Tally (· ≤ ·) := ⟨id, le_refl, fun h h' => by omega⟩

/-- The entries of every job are as they should be. -/
def Tallied (R : ℕ → ℕ → Prop) (b : Board) (D : Multiset Due) : Prop :=
  ∀ j, R (b.entries D j) (b.waiting j).toNat

theorem waiting_of_row (h : b.row j = some r) : b.waiting j = r.state.isWaiting := by
  rw [waiting, h]
  rfl

theorem waiting_iff : b.waiting j = true ↔ ∃ r, b.row j = some r ∧ r.state.isWaiting = true := by
  rw [waiting]
  cases b.row j <;> simp

theorem countP_ticket {x : Due} (h : x = held j ∨ x = requeue j) (i : JobId) :
    ({x} : Multiset Due).countP (·.ticket i) = if i = j then 1 else 0 := by
  rw [countP_singleton]
  by_cases hij : i = j
  · rcases h with rfl | rfl <;> simp [Due.ticket, hij]
  · rcases h with rfl | rfl <;> simp [Due.ticket, hij, Ne.symm hij]

theorem ticket_window (k : Window) (j : JobId) (r : Stub) (i : JobId) :
    ({window k j r} : Multiset Due).countP (·.ticket i) = 0 :=
  countP_singleton _ _

section Tally

variable {R : ℕ → ℕ → Prop} [Tally R]

omit [Tally R] in
/-- A step that moves no entry. -/
theorem Tallied.quiet (h : b.Tallied R (d + O)) (hrow : b'.row = b.row) (hlive : b'.live = b.live)
    (hd : ∀ j, d'.countP (·.ticket j) = d.countP (·.ticket j)) : b'.Tallied R (d' + O) := by
  intro j
  have hj := h j
  simp only [entries, waiting, hrow, hlive, Multiset.countP_add, hd] at hj ⊢
  exact hj

/-- A step that writes the row of `j` and moves only entries of `j`. -/
theorem Tallied.write (h : b.Tallied R (d + O)) (hcur : b.row j = some cur)
    (hrow : b'.row = (b.write j s).row) (hlive : b'.live = b.live)
    (hne : ∀ i, i ≠ j → d'.countP (·.ticket i) = d.countP (·.ticket i))
    (hj : d'.countP (·.ticket j) + cur.state.isWaiting.toNat = d.countP (·.ticket j) + s.state.isWaiting.toNat) :
    b'.Tallied R (d' + O) := by
  intro i
  have hi := h i
  by_cases hij : i = j
  · subst hij
    refine Tally.shift hi ?_
    rw [entries, entries, Multiset.countP_add, Multiset.countP_add, waiting_of_row hcur,
      waiting_of_row (by rw [hrow]; exact write_row_self hcur), hlive]
    omega
  · simp only [entries, Multiset.countP_add, waiting, hlive, hrow, write_row_of_ne hij, hne i hij] at hi ⊢
    exact hi

theorem ticket_endDues (i : JobId) : (s.endDues j).countP (·.ticket i) = 0 :=
  countP_eq_zero_of_forall fun x hx => by
    rcases mem_endDues hx with rfl | rfl | rfl | ⟨-, -, rfl | rfl⟩ | ⟨-, -, rfl | rfl⟩ <;> rfl

theorem Tallied.conclude {k : Window} (h : b.Tallied R ({window k j r} + k.entry j r + O))
    (hs : b.Safe ({window k j r} + k.entry j r + O)) (hx : b.Exact ({window k j r} + k.entry j r + O))
    (hends : k.Ends r s.state) : (b.write j s).Tallied R (s.endDues j + O) := by
  have hmem : window k j r ∈ ({window k j r} + k.entry j r : Multiset Due) := by simp
  obtain ⟨cur, hrow, -, hag⟩ := hs.of_mem hmem
  have hend : s.state.isWaiting = false := by
    have hterm := Ends.isTerminal hends
    cases hst : s.state <;> rw [hst] at hterm <;> first | rfl | cases hterm
  -- the operation holds the entry of the row just if the row has one
  have hentry : ∀ i, (k.entry j r).countP (·.ticket i) = if i = j then cur.state.isWaiting.toNat else 0 := by
    intro i
    cases k with
    | cancel =>
        have hcur := hx Window.cancel j r (Multiset.mem_add.mpr (.inl hmem)) (by simp)
        rw [hrow, Option.some.injEq] at hcur
        subst hcur
        cases hw : cur.state.isWaiting
        · simp [Window.entry, hw]
        · simp only [Window.entry, hw, if_true]
          exact countP_ticket (.inl rfl) i
    | start =>
        rw [hag.2.1]
        exact countP_ticket (.inl rfl) i
    | finish =>
        rw [hag.1]
        simp [Window.entry, JobState.isWaiting]
    | expire =>
        rw [hag.1]
        simp [Window.entry, JobState.isWaiting]
    | release => cases hends
    | skip => cases hends
  refine h.write hrow rfl rfl (fun i hij => ?_) ?_
  · rw [ticket_endDues, Multiset.countP_add, countP_singleton, hentry i, if_neg hij]
    rfl
  · rw [ticket_endDues, Multiset.countP_add, countP_singleton, hentry j, if_pos rfl, hend]
    simp [Due.ticket]

/-- The other writes: the entry of `j` goes with its state. -/
theorem Tallied.requeues {k : Window} (h : b.Tallied R ({window k j r} + O)) (hrow : b.row j = some cur)
    (hcur : cur.state.isWaiting = false) (hs : s.state.isWaiting = true) :
    (b.write j s).Tallied R ({requeue j} + O) := by
  refine h.write hrow rfl rfl (fun i hij => ?_) ?_
  · rw [countP_ticket (.inr rfl), if_neg hij, countP_singleton]
    rfl
  · rw [countP_ticket (.inr rfl), if_pos rfl, countP_singleton, hcur, hs]
    rfl

theorem Tallied.held_waiting (h : b.Tallied R D) (hx : held j ∈ D) : b.waiting j = true := by
  have hj := Tally.le (h j)
  have hpos : 0 < D.countP (·.ticket j) := Multiset.countP_pos.mpr ⟨_, hx, by simp [Due.ticket]⟩
  rw [entries] at hj
  cases hw : b.waiting j
  · rw [hw, Bool.toNat_false] at hj
    omega
  · rfl

/-- A job taken off the queue by the operation that is to end it. -/
theorem Tallied.unqueue {k : Window} (h : b.Tallied R ({window k j r} + O)) (hs : b.Safe ({window k j r} + O))
    (hx : b.Exact ({window k j r} + O)) (hk : k = cancel ∨ k = Window.skip)
    (hown : k = cancel → O.countP (·.ticket j) = 0) :
    ({ b with live := b.live.erase j } : Board).Tallied R ({window k j r} + k.entry j r + O) := by
  have hrow : b.row j = some r :=
    hx k j r (Multiset.mem_add.mpr (.inl (Multiset.mem_singleton_self _))) (by rcases hk with rfl | rfl <;> simp)
  have hj := h j
  rw [entries, Multiset.countP_add, ticket_window, waiting_of_row hrow] at hj
  intro i
  have hi := h i
  rw [entries, Multiset.countP_add, ticket_window] at hi
  rw [entries, Multiset.countP_add, Multiset.countP_add, ticket_window]
  change R _ (b.waiting i).toNat
  by_cases hij : i = j
  · subst hij
    rw [waiting_of_row hrow, if_neg (by simp)]
    rcases hk with rfl | rfl
    · have hnone := hown rfl
      cases hw : r.state.isWaiting
      · simpa [Window.entry, hw, hnone] using Tally.refl 0
      · simp only [Window.entry, hw, if_true, countP_ticket (.inl rfl), hnone]
        exact Tally.refl 1
    · obtain ⟨cur, hcur, -, hpend, -⟩ := hs.of_mem (Multiset.mem_singleton_self _)
      rw [hrow, Option.some.injEq] at hcur
      subst hcur
      rw [hpend, show JobState.isWaiting .pending = false from rfl, Bool.toNat_false] at hj ⊢
      have hle := Tally.le hj
      refine Tally.shift hj ?_
      simp only [Window.entry, Multiset.countP_zero]
      omega
  · have hentry : (k.entry j r).countP (·.ticket i) = 0 := by
      rcases hk with rfl | rfl
      · unfold Window.entry
        dsimp only
        split_ifs
        · rw [countP_ticket (.inl rfl), if_neg hij]
        · rfl
      · rfl
    have hmem : (if i ∈ b.live.erase j then 1 else 0) = if i ∈ b.live then 1 else 0 := by
      simp [Finset.mem_erase, hij]
    refine Tally.shift hi ?_
    simp only [hentry, hmem]

theorem ticket_map_held (js : List JobId) (i : JobId) :
    ((js.map held : List Due) : Multiset Due).countP (·.ticket i) = js.count i := by
  rw [Multiset.coe_countP, List.countP_map, List.count]
  refine List.countP_congr fun j _ => ?_
  simp [Due.ticket]

theorem Tallied.pop {js : List JobId} (h : b.Tallied R (0 + O)) (hjs : js.Nodup) (hlive : ∀ j ∈ js, j ∈ b.live) :
    ({ b with live := b.live \ js.toFinset } : Board).Tallied R ((js.map held : List Due) + O) := by
  intro i
  refine Tally.shift (h i) ?_
  rw [entries, entries, Multiset.countP_add, ticket_map_held, zero_add]
  change _ + (b.waiting i).toNat = _ + (b.waiting i).toNat
  by_cases hmem : i ∈ js
  · rw [if_pos (hlive i hmem), if_neg (by simp [hmem]), List.count_eq_one_of_mem hjs hmem]
    omega
  · have hsame : (if i ∈ b.live \ js.toFinset then 1 else 0) = if i ∈ b.live then 1 else 0 := by simp [hmem]
    rw [List.count_eq_zero_of_not_mem hmem]
    simp only [hsame]
    omega

theorem Tallied.push (h : b.Tallied R ({requeue j} + O)) :
    ({ b with live := insert j b.live } : Board).Tallied R (0 + O) := by
  intro i
  have hi := h i
  rw [entries, Multiset.countP_add, countP_ticket (.inr rfl)] at hi
  have hle := Tally.le hi
  refine Tally.shift hi ?_
  rw [entries, zero_add]
  change _ + (b.waiting i).toNat = _ + (b.waiting i).toNat
  by_cases hij : i = j
  · subst hij
    have hone := Bool.toNat_le (b.waiting i)
    rw [if_pos rfl] at hle ⊢
    rw [if_pos (Finset.mem_insert_self _ _)]
    have hnot : (if i ∈ b.live then 1 else 0) = 0 := by omega
    omega
  · have hsame : (if i ∈ insert j b.live then 1 else 0) = if i ∈ b.live then 1 else 0 := by simp [hij]
    rw [if_neg hij]
    simp only [hsame]
    omega

/-- A push that the queue refuses, if a job may have too few entries. -/
theorem Tallied.lost (h : b.Tallied R ({requeue j} + O)) (hless : ∀ a w, R (a + 1) w → R a w) :
    b.Tallied R (0 + O) := by
  intro i
  have hi := h i
  rw [entries, Multiset.countP_add, countP_ticket (.inr rfl)] at hi
  rw [entries, zero_add]
  by_cases hij : i = j
  · rw [if_pos hij] at hi
    exact hless _ _ (Tally.shift hi (by omega))
  · rw [if_neg hij] at hi
    exact Tally.shift hi (by omega)

/-- A push that is not lost. -/
def Pushed (d : Multiset Due) (b' : Board) (d' : Multiset Due) : Prop :=
  ∀ j, requeue j ∈ d → requeue j ∈ d' ∨ j ∈ b'.live

/-- **Entries go with the states of the rows.** -/
theorem Tallied.move (h : b.Tallied R (d + O)) (hs : b.Safe (d + O)) (hx : b.Exact (d + O))
    (hmove : Move b d b' d')
    (hown : ∀ j r, window cancel j r ∈ d → window cancel j r ∈ d' → O.countP (·.ticket j) = 0)
    (hpush : Pushed d b' d' ∨ ∀ a w, R (a + 1) w → R a w) : b'.Tallied R (d' + O) := by
  have hquiet : b'.row = b.row → b'.live = b.live → (∀ x ∈ d, ∀ j, x.ticket j = false) →
      (∀ x ∈ d', ∀ j, x.ticket j = false) → b'.Tallied R (d' + O) := fun hrow hlive hd hd' =>
    h.quiet hrow hlive fun j => by
      rw [countP_eq_zero_of_forall fun x hx => hd x hx j, countP_eq_zero_of_forall fun x hx => hd' x hx j]
  cases hmove with
  | idle => exact h
  | openStart => exact h.quiet rfl rfl fun j => by rw [countP_pair, countP_singleton]; exact zero_add _
  | @dropStart j hrow =>
      obtain ⟨r, hr, hw⟩ := waiting_iff.mp (h.held_waiting (j := j) (by simp))
      rw [hrow r hr] at hw
      cases hw
  | @flag j r =>
      rw [write_self (hx Window.cancel j r (by simp) (by simp))]
      exact h.quiet rfl rfl fun i => by rw [ticket_window, Multiset.countP_zero]
  | @launch j r s d' hstate _ _ hd' =>
      obtain ⟨cur, hrow, -, -, hwait, -⟩ := hs.of_mem (x := window start j r) (by simp)
      have hnone : ∀ i, d'.countP (·.ticket i) = 0 := by
        rcases hd' with rfl | rfl
        · simp
        · exact fun i => countP_singleton _ _
      have hpair : ∀ i, ({window start j r, held j} : Multiset Due).countP (·.ticket i) = if i = j then 1 else 0 := by
        intro i
        rw [Multiset.insert_eq_cons, ← Multiset.singleton_add, Multiset.countP_add, ticket_window,
          countP_ticket (.inl rfl), zero_add]
      refine h.write hrow rfl rfl (fun i hij => ?_) ?_
      · rw [hnone, hpair, if_neg hij]
      · rw [hnone, hpair, if_pos rfl, hwait, hstate]
        rfl
  | @retry j r s hstate =>
      obtain ⟨cur, hrow, -, hrun, -⟩ := hs.of_mem (x := window finish j r) (by simp)
      exact h.requeues hrow (by rw [hrun]; rfl) (by rw [hstate]; rfl)
  | @reassign j r s hstate =>
      obtain ⟨cur, hrow, -, hrun, -⟩ := hs.of_mem (x := window expire j r) (by simp)
      exact h.requeues hrow (by rw [hrun]; rfl) (by rw [hstate]; rfl)
  | @release c r s hstate =>
      obtain ⟨cur, hrow, -, hpend, -⟩ := hs.of_mem (x := window Window.release c r) (by simp)
      exact h.requeues hrow (by rw [hpend]; rfl) (by rcases hstate with hst | hst <;> rw [hst] <;> rfl)
  | conclude hends => exact h.conclude hs hx hends
  | @skip c w r s hstate =>
      obtain ⟨cur, hrow, -, hpend, -⟩ := hs.of_mem (x := window Window.skip c r) (by simp)
      have hzero : ∀ i, ({window Window.skip c r, doomed c w} : Multiset Due).countP (·.ticket i) = 0 :=
        fun i => countP_pair _ _ _
      have hzero' : ∀ i, ({metric c, callback c, slot c, unit c w true, Due.expand c w} : Multiset Due).countP
          (·.ticket i) = 0 := fun i => countP_eq_zero_of_forall (by simp [Due.ticket])
      refine h.write hrow rfl rfl (fun i _ => by rw [hzero, hzero']) ?_
      rw [hzero, hzero', hpend, hstate]
      rfl
  | @unqueue k j r hk =>
      refine h.unqueue hs hx hk fun hcancel => ?_
      subst hcancel
      exact hown j r (by simp) (by simp)
  | pop hjs hlive => exact h.pop hjs hlive
  | push => exact h.push
  | @pushRefused j =>
      rcases hpush with hpush | hless
      · rcases hpush j (Multiset.mem_singleton_self _) with hmem | hmem
        · cases hmem
        · have hj := Tally.le (h j)
          have hle := Bool.toNat_le (b.waiting j)
          rw [entries, if_pos hmem, Multiset.countP_add, countP_ticket (.inr rfl), if_pos rfl] at hj
          omega
      · exact h.lost hless
  | _ => exact hquiet rfl rfl (by simp [Due.ticket]) (by simp [Due.ticket])

end Tally

theorem Ticketed.move (h : b.Ticketed (d + O)) (hs : b.Safe (d + O)) (hx : b.Exact (d + O))
    (hmove : Move b d b' d')
    (hown : ∀ j r, window cancel j r ∈ d → window cancel j r ∈ d' → O.countP (·.ticket j) = 0)
    (hpush : Pushed d b' d') : b'.Ticketed (d' + O) :=
  Tallied.move (R := (· = ·)) h hs hx hmove hown (.inl hpush)

theorem Spare.move (h : b.Spare (d + O)) (hs : b.Safe (d + O)) (hx : b.Exact (d + O)) (hmove : Move b d b' d')
    (hown : ∀ j r, window cancel j r ∈ d → window cancel j r ∈ d' → O.countP (·.ticket j) = 0) :
    b'.Spare (d' + O) :=
  Tallied.move (R := (· ≤ ·)) h hs hx hmove hown (.inr fun _ _ h => by omega)

/-! ### Leases -/

/-- Every lease names the attempt of its row, and every running job has its lease or is being finished. -/
structure Manned (b : Board) (D : Multiset Due) : Prop where
  lease : ∀ j t a r, b.lease j = some (t, a) → b.row j = some r → r.token = t ∧ r.attempt = a
  running : ∀ j r, b.row j = some r → r.state = .running → (b.lease j).isSome ∨ 0 < D.countP (·.finishing j)

theorem Manned.reads (h : b.Manned (d + O)) (hrow : b'.row = b.row) (hlease : b'.lease = b.lease)
    (hd : ∀ j, d.countP (·.finishing j) ≤ d'.countP (·.finishing j)) : b'.Manned (d' + O) where
  lease j t a r := by
    rw [hrow, hlease]
    exact h.lease j t a r
  running j r hr hrun := by
    rw [hrow] at hr
    rw [hlease]
    have hle := hd j
    refine (h.running j r hr hrun).imp_right fun hpos => ?_
    rw [Multiset.countP_add] at hpos ⊢
    omega

/-- The row of a job without a lease is written and the job does not run. -/
theorem Manned.write (h : b.Manned (d + O)) (hcur : b.row j = some cur) (hnone : b.lease j = none)
    (hs : s.state ≠ .running) (hd : ∀ i, i ≠ j → d.countP (·.finishing i) = 0) :
    (b.write j s).Manned (d' + O) where
  lease i t a r hl hr := by
    by_cases hij : i = j
    · subst hij
      rw [show (b.write i s).lease i = b.lease i from rfl, hnone] at hl
      cases hl
    · rw [write_row_of_ne hij] at hr
      exact h.lease i t a r hl hr
  running i r hr hrun := by
    by_cases hij : i = j
    · subst hij
      rw [write_row_self hcur, Option.some.injEq] at hr
      subst hr
      exact absurd hrun hs
    · rw [write_row_of_ne hij] at hr
      refine (h.running i r hr hrun).imp_right fun hpos => ?_
      rw [Multiset.countP_add, hd i hij] at hpos
      rw [Multiset.countP_add]
      omega

/-- The lease of `j` is given up by the operation that is to finish it. -/
theorem Manned.unlease {x : Due} (h : b.Manned (d + O)) (hd : ∀ i, d.countP (·.finishing i) = 0)
    (hx : x.finishing j = true) : (b.unlease j).Manned ({x} + O) where
  lease i t a r hl hr := by
    by_cases hij : i = j
    · subst hij
      simp [Board.unlease] at hl
    · rw [show (b.unlease j).lease i = b.lease i from Function.update_of_ne hij _ _] at hl
      exact h.lease i t a r hl hr
  running i r hr hrun := by
    by_cases hij : i = j
    · subst hij
      refine .inr ?_
      rw [Multiset.countP_add, countP_singleton, hx]
      exact Nat.lt_of_lt_of_le Nat.zero_lt_one (Nat.le_add_right _ _)
    · rw [show (b.unlease j).lease i = b.lease i from Function.update_of_ne hij _ _]
      refine (h.running i r hr hrun).imp_right fun hpos => ?_
      rw [Multiset.countP_add, hd i] at hpos
      rw [Multiset.countP_add]
      omega

theorem Safe.lease_of_pending (hs : b.Safe D) (hrow : b.row j = some r) (hpend : r.state ≠ .running) :
    b.lease j = none := by
  cases hl : b.lease j with
  | none => rfl
  | some x =>
      obtain ⟨r', hr', hrun⟩ := hs.lease j (by rw [hl]; rfl)
      rw [hrow, Option.some.injEq] at hr'
      subst hr'
      exact absurd hrun hpend

theorem countP_finishing_window (k : Window) (r : Stub) {i : JobId} (hij : i ≠ j) :
    ({window k j r} : Multiset Due).countP (·.finishing i) = 0 := by
  rw [countP_singleton]
  cases k <;> simp [Due.finishing, Ne.symm hij]

theorem finishing_entry (k : Window) (j : JobId) (r : Stub) (i : JobId) :
    (k.entry j r).countP (·.finishing i) = 0 := by
  refine countP_eq_zero_of_forall fun x hx => ?_
  rw [mem_entry hx]
  rfl

/-- **Leases go with the rows.** -/
theorem Manned.move (h : b.Manned (d + O)) (hs : b.Safe (d + O)) (hx : b.Exact (d + O))
    (hmove : Move b d b' d') : b'.Manned (d' + O) := by
  have hquiet : b'.row = b.row → b'.lease = b.lease → (∀ x ∈ d, ∀ j, x.finishing j = false) →
      b'.Manned (d' + O) := fun hrow hlease hd =>
    h.reads hrow hlease fun j => by
      rw [countP_eq_zero_of_forall fun x hx => hd x hx j]
      exact Nat.zero_le _
  cases hmove with
  | idle => exact h
  | @fence j s hlease => exact h.unlease (fun i => countP_singleton _ _) (by simp [Due.finishing])
  | @openExpire j r hlease hrow hrun => exact h.unlease (by simp) (by simp [Due.finishing])
  | @dropLease j hlease hrow =>
      obtain ⟨r, hr, hrun⟩ := hs.lease j hlease
      exact absurd hrun (hrow r hr)
  | @flag j r =>
      rw [write_self (hx Window.cancel j r (by simp) (by simp))]
      exact h.reads rfl rfl fun i => by rw [countP_singleton]; exact Nat.zero_le _
  | @launch j r s d' hstate =>
      obtain ⟨cur, hrow, -⟩ := hs.of_mem (x := window start j r) (by simp)
      have hd : ∀ i, ({window start j r, held j} : Multiset Due).countP (·.finishing i) = 0 :=
        fun i => countP_pair _ _ _
      refine ⟨fun i t a x hl hr => ?_, fun i x hr hrun => ?_⟩
      · by_cases hij : i = j
        · subst hij
          rw [show (b.grant i s).lease i = some (s.token, s.attempt) from Function.update_self _ _ _,
            Option.some.injEq, Prod.mk.injEq] at hl
          rw [show (b.grant i s).row i = some s from write_row_self hrow, Option.some.injEq] at hr
          subst hr
          exact hl
        · rw [show (b.grant j s).lease i = b.lease i from Function.update_of_ne hij _ _] at hl
          rw [show (b.grant j s).row i = b.row i from write_row_of_ne hij] at hr
          exact h.lease i t a x hl hr
      · by_cases hij : i = j
        · subst hij
          exact .inl (by simp [Board.grant])
        · rw [show (b.grant j s).lease i = b.lease i from Function.update_of_ne hij _ _]
          rw [show (b.grant j s).row i = b.row i from write_row_of_ne hij] at hr
          refine (h.running i x hr hrun).imp_right fun hpos => ?_
          rw [Multiset.countP_add, hd i] at hpos
          rw [Multiset.countP_add]
          omega
  | @retry j r s hstate =>
      obtain ⟨cur, hrow, -, -, hnone, -⟩ := hs.of_mem (x := window finish j r) (by simp)
      exact h.write hrow hnone (by rw [hstate]; simp) fun i hij => countP_finishing_window _ _ hij
  | @reassign j r s hstate =>
      obtain ⟨cur, hrow, -, -, hnone, -⟩ := hs.of_mem (x := window expire j r) (by simp)
      exact h.write hrow hnone (by rw [hstate]; simp) fun i hij => countP_finishing_window _ _ hij
  | @release c r s hstate =>
      obtain ⟨cur, hrow, -, hpend, -⟩ := hs.of_mem (x := window Window.release c r) (by simp)
      refine h.write hrow (hs.lease_of_pending hrow (by rw [hpend]; simp)) ?_ fun i hij =>
        countP_finishing_window _ _ hij
      rcases hstate with hst | hst <;> rw [hst] <;> simp
  | @conclude k j r s hends =>
      obtain ⟨cur, hrow, -⟩ := hs.of_mem (x := window k j r) (by simp)
      refine h.write hrow (hs.lease_of_ends (by simp) hends) ?_ fun i hij => ?_
      · intro hrun
        have hterm := Ends.isTerminal hends
        rw [hrun] at hterm
        cases hterm
      · rw [Multiset.countP_add, countP_finishing_window _ _ hij, finishing_entry]
  | @skip c w r s hstate =>
      obtain ⟨cur, hrow, -, hpend, -⟩ := hs.of_mem (x := window Window.skip c r) (by simp)
      exact h.write hrow (hs.lease_of_pending hrow (by rw [hpend]; simp)) (by rw [hstate]; simp)
        fun i _ => countP_pair _ _ _
  | @unqueue k j r hk =>
      refine h.reads rfl rfl fun i => ?_
      rw [Multiset.countP_add]
      exact Nat.le_add_right _ _
  | _ => exact hquiet rfl rfl (by simp [Due.finishing])

end Board

end DistributedJobEngine
