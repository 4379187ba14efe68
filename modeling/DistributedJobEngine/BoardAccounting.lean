import DistributedJobEngine.BoardMoves
import Mathlib.Algebra.BigOperators.Group.Finset.Basic

/-! Accounting for the end of jobs. Every job that ended has given back one slot, one callback, one metric
and, as a workflow node, one unit of its workflow's counter, or some operation still owes it; so the
counters of admission and completion follow the rows. -/

namespace DistributedJobEngine

open Due Window

namespace Board

variable {b b' : Board} {D d d' O : Multiset Due} {x : Due} {j : JobId} {r s : Stub} {w : WorkflowId}

def ended (b : Board) (j : JobId) : Bool := (b.row j).any (·.state.isTerminal)

/-- `j` ended in a state other than `SUCCEEDED`. -/
def failed (b : Board) (j : JobId) : Bool :=
  (b.row j).any fun r => r.state.isTerminal && decide (r.state ≠ .succeeded)

def workflow (b : Board) (j : JobId) : WorkflowId := ((b.row j).map (·.workflowId)).getD ""

def nodes (b : Board) (w : WorkflowId) : Finset JobId := b.ids.filter fun j => b.workflow j = w

/-- The units of `w` that were subtracted. -/
def used (b : Board) (w : WorkflowId) : ℕ := b.units.countP fun j => b.workflow j = w

def usedFailed (b : Board) (w : WorkflowId) : ℕ := b.units.countP fun j => b.workflow j = w ∧ b.failed j = true

structure Accounted (b : Board) (D : Multiset Due) : Prop where
  slot : ∀ j, b.slots.count j + D.count (.slot j) = (b.ended j).toNat
  callback : ∀ j, b.callbacks.count j + D.count (.callback j) = (b.ended j).toNat
  metric : ∀ j, b.counted.count j + D.count (.metric j) = (b.ended j).toNat
  unit : ∀ j, b.units.count j + D.countP (·.unitOf j) = (b.ended j && decide (b.workflow j ≠ "")).toNat
  outstanding : b.outstanding + b.slots.card = b.ids.card
  tally : b.tally = b.counted.card
  remaining : ∀ w, w ≠ "" →
    b.remaining w = if (b.nodes w).card = b.used w then none else some ((b.nodes w).card - b.used w : Int)
  failures : ∀ w, w ≠ "" → b.failures w = if b.remaining w = none then 0 else (b.usedFailed w : Int)

/-! ### Steps that account for nothing -/

theorem count_eq_zero_of_accounting (h : ∀ x ∈ d, x.accounting = false) {x : Due} (hx : x.accounting = true) :
    d.count x = 0 := by
  rw [Multiset.count_eq_zero]
  intro hmem
  rw [h x hmem] at hx
  cases hx

theorem unitOf_of_not_accounting {x : Due} (h : x.accounting = false) (j : JobId) : x.unitOf j = false := by
  cases x <;> first | rfl | cases h

/-- `b'` has the counters of `b`, and the same jobs have ended with the same success. -/
structure SameAccounts (b b' : Board) : Prop where
  ids : b'.ids = b.ids
  ended : b'.ended = b.ended
  failed : b'.failed = b.failed
  workflow : b'.workflow = b.workflow
  slots : b'.slots = b.slots
  callbacks : b'.callbacks = b.callbacks
  counted : b'.counted = b.counted
  units : b'.units = b.units
  outstanding : b'.outstanding = b.outstanding
  tally : b'.tally = b.tally
  remaining : b'.remaining = b.remaining
  failures : b'.failures = b.failures

theorem Accounted.quiet (h : b.Accounted (d + O)) (hsame : b.SameAccounts b')
    (hd : ∀ x ∈ d, x.accounting = false) (hd' : ∀ x ∈ d', x.accounting = false) : b'.Accounted (d' + O) := by
  have hcount : ∀ {x : Due}, x.accounting = true → (d' + O).count x = (d + O).count x := by
    intro x hx
    rw [Multiset.count_add, Multiset.count_add, count_eq_zero_of_accounting hd hx, count_eq_zero_of_accounting hd' hx]
  have hunit : ∀ j, (d' + O).countP (·.unitOf j) = (d + O).countP (·.unitOf j) := by
    intro j
    rw [Multiset.countP_add, Multiset.countP_add,
      countP_eq_zero_of_forall fun x hx => unitOf_of_not_accounting (hd x hx) j,
      countP_eq_zero_of_forall fun x hx => unitOf_of_not_accounting (hd' x hx) j]
  refine ⟨?_, ?_, ?_, ?_, ?_, ?_, ?_, ?_⟩
  · intro j
    rw [hsame.slots, hsame.ended, hcount rfl]
    exact h.slot j
  · intro j
    rw [hsame.callbacks, hsame.ended, hcount rfl]
    exact h.callback j
  · intro j
    rw [hsame.counted, hsame.ended, hcount rfl]
    exact h.metric j
  · intro j
    rw [hsame.units, hsame.ended, hsame.workflow, hunit]
    exact h.unit j
  · rw [hsame.outstanding, hsame.slots, hsame.ids]
    exact h.outstanding
  · rw [hsame.tally, hsame.counted]
    exact h.tally
  · intro w hw
    simp only [nodes, used, hsame.remaining, hsame.ids, hsame.workflow, hsame.units]
    exact h.remaining w hw
  · intro w hw
    simp only [usedFailed, hsame.failures, hsame.remaining, hsame.workflow, hsame.units, hsame.failed]
    exact h.failures w hw

/-! ### Writes -/

theorem ended_of_row (h : b.row j = some r) : b.ended j = r.state.isTerminal := by
  rw [ended, h]
  rfl

theorem workflow_of_row (h : b.row j = some r) : b.workflow j = r.workflowId := by
  rw [workflow, h]
  rfl

theorem failed_of_row (h : b.row j = some r) :
    b.failed j = (r.state.isTerminal && decide (r.state ≠ .succeeded)) := by
  rw [failed, h]
  rfl

theorem workflow_write (hrow : b.row j = some r) (hwf : s.workflowId = r.workflowId) :
    (b.write j s).workflow = b.workflow := by
  funext i
  by_cases hij : i = j
  · subst hij
    rw [workflow_of_row (write_row_self hrow), workflow_of_row hrow, hwf]
  · rw [workflow, write_row_of_ne hij, workflow]

theorem ended_write_of_ne {i : JobId} (h : i ≠ j) : (b.write j s).ended i = b.ended i := by
  rw [ended, write_row_of_ne h, ended]

theorem failed_write_of_ne {i : JobId} (h : i ≠ j) : (b.write j s).failed i = b.failed i := by
  rw [failed, write_row_of_ne h, failed]

/-- Writing an open row over an open row ends nothing. -/
theorem sameAccounts_write (hrow : b.row j = some r) (hopen : r.state.isTerminal = false)
    (hopen' : s.state.isTerminal = false) (hwf : s.workflowId = r.workflowId) :
    b.SameAccounts (b.write j s) := by
  refine ⟨rfl, ?_, ?_, workflow_write hrow hwf, rfl, rfl, rfl, rfl, rfl, rfl, rfl, rfl⟩
  · funext i
    by_cases hij : i = j
    · subst hij
      rw [ended_of_row (write_row_self hrow), ended_of_row hrow, hopen, hopen']
    · exact ended_write_of_ne hij
  · funext i
    by_cases hij : i = j
    · subst hij
      rw [failed_of_row (write_row_self hrow), failed_of_row hrow, hopen, hopen']
      rfl
    · exact failed_write_of_ne hij

theorem count_endDues (i : JobId) :
    (s.endDues j).count (.slot i) = (if i = j then 1 else 0) ∧
    (s.endDues j).count (.callback i) = (if i = j then 1 else 0) ∧
    (s.endDues j).count (.metric i) = (if i = j then 1 else 0) := by
  unfold Stub.endDues
  refine ⟨?_, ?_, ?_⟩ <;> split_ifs <;> simp_all

theorem countP_unitOf_endDues (i : JobId) :
    (s.endDues j).countP (·.unitOf i) = if i = j ∧ s.workflowId ≠ "" then 1 else 0 := by
  have h3 : ({.metric j, .callback j, .slot j} : Multiset Due).countP (·.unitOf i) = 0 :=
    countP_eq_zero_of_forall (by simp [Due.unitOf])
  rw [Stub.endDues, Multiset.countP_add, h3, zero_add]
  by_cases hwf : s.workflowId = ""
  · simp [hwf]
  · rw [if_neg hwf]
    by_cases hij : i = j
    · by_cases hs : s.state = .succeeded <;> simp only [hs, if_true, if_false, countP_pair] <;>
        simp [Due.unitOf, hij, hwf]
    · by_cases hs : s.state = .succeeded <;> simp only [hs, if_true, if_false, countP_pair] <;>
        simp [Due.unitOf, hij, Ne.symm hij]

/-- A job that ends owes one of each. -/
theorem Accounted.finish (h : b.Accounted (d + O)) (hd : ∀ x ∈ d, x.accounting = false)
    (hrow : b.row j = some r) (hopen : r.state.isTerminal = false) (hwf : s.workflowId = r.workflowId)
    (hend : s.state.isTerminal = true) : (b.write j s).Accounted (s.endDues j + O) := by
  have hended : ∀ i, (b.write j s).ended i = (b.ended i || decide (i = j)) := by
    intro i
    by_cases hij : i = j
    · subst hij
      rw [ended_of_row (write_row_self hrow), hend]
      simp
    · rw [ended_write_of_ne hij]
      simp [hij]
  have hbefore : b.ended j = false := by rw [ended_of_row hrow, hopen]
  have hcount : ∀ {x : Due}, x.accounting = true → (d + O).count x = O.count x := by
    intro x hx
    rw [Multiset.count_add, count_eq_zero_of_accounting hd hx, zero_add]
  have hunits : ∀ i ∈ b.units, i ≠ j := by
    rintro i hi rfl
    have h1 := h.unit i
    rw [hbefore] at h1
    have h2 := Multiset.count_pos.mpr hi
    simp at h1
    exact h1.1 hi
  have hjoin : ∀ {n m e : ℕ} (i : JobId), n + m = (b.ended i).toNat → e = (if i = j then 1 else 0) →
      n + (e + m) = ((b.write j s).ended i).toNat := by
    intro n m e i h1 h2
    rw [hended, h2]
    by_cases hij : i = j
    · subst hij
      rw [hbefore] at h1 ⊢
      simp at h1 ⊢
      omega
    · simp [hij, h1]
  obtain hdues := fun i => count_endDues (s := s) (j := j) i
  refine ⟨?_, ?_, ?_, ?_, h.outstanding, h.tally, ?_, ?_⟩
  · intro i
    have h1 := h.slot i
    rw [hcount rfl] at h1
    rw [Multiset.count_add]
    exact hjoin i h1 (hdues i).1
  · intro i
    have h1 := h.callback i
    rw [hcount rfl] at h1
    rw [Multiset.count_add]
    exact hjoin i h1 (hdues i).2.1
  · intro i
    have h1 := h.metric i
    rw [hcount rfl] at h1
    rw [Multiset.count_add]
    exact hjoin i h1 (hdues i).2.2
  · intro i
    have h1 := h.unit i
    rw [Multiset.countP_add, countP_eq_zero_of_forall fun x hx => unitOf_of_not_accounting (hd x hx) i,
      zero_add] at h1
    rw [Multiset.countP_add, countP_unitOf_endDues, hended, workflow_write hrow hwf]
    by_cases hij : i = j
    · subst hij
      rw [hbefore] at h1
      have hwi : b.workflow i = s.workflowId := by rw [workflow_of_row hrow, hwf]
      rw [hwi]
      simp at h1
      change b.units.count i + _ = _
      rw [Multiset.count_eq_zero_of_notMem h1.1]
      by_cases hne : s.workflowId = "" <;> simp [hne] <;> omega
    · change b.units.count i + _ = _
      simp only [hij, false_and, if_false, decide_false, Bool.or_false, zero_add]
      exact h1
  · intro w hw
    simp only [nodes, used, workflow_write hrow hwf]
    exact h.remaining w hw
  · intro w hw
    have hsame : (b.write j s).usedFailed w = b.usedFailed w := by
      apply Multiset.countP_congr rfl
      intro i hi
      rw [workflow_write hrow hwf, failed_write_of_ne (hunits i hi)]
    rw [hsame]
    exact h.failures w hw

/-! ### Paying what is owed -/

theorem Graph.mem_ids_of_ended (h : b.Graph) (hend : b.ended j = true) : j ∈ b.ids := by
  rw [h.ids]
  cases hrow : b.row j with
  | none => simp [ended, hrow] at hend
  | some r => rfl

/-- A collection without repetition inside `S` is at most as large as `S`. -/
theorem card_le_of_count_le_one {m : Multiset JobId} {S : Finset JobId} (hone : ∀ i, m.count i ≤ 1)
    (hmem : ∀ i ∈ m, i ∈ S) : m.card ≤ S.card := by
  have hnodup : m.Nodup := Multiset.nodup_iff_count_le_one.mpr hone
  rw [← Multiset.toFinset_card_of_nodup hnodup]
  exact Finset.card_le_card fun i hi => hmem i (Multiset.mem_toFinset.mp hi)

theorem Accounted.payMetric {js : List JobId} (h : b.Accounted ((js.map Due.metric : List Due) + O)) :
    ({ b with counted := b.counted + js, tally := b.tally + js.length } : Board).Accounted (0 + O) := by
  have hmem : ∀ x ∈ ((js.map Due.metric : List Due) : Multiset Due), ∃ i, x = Due.metric i := by
    intro x hx
    obtain ⟨i, -, rfl⟩ := List.mem_map.mp (Multiset.mem_coe.mp hx)
    exact ⟨i, rfl⟩
  have hzero : ∀ {x : Due}, (∀ i, x ≠ Due.metric i) →
      ((js.map Due.metric : List Due) : Multiset Due).count x = 0 := by
    intro x hx
    rw [Multiset.count_eq_zero]
    intro hx'
    obtain ⟨i, rfl⟩ := hmem x hx'
    exact hx i rfl
  have hmetric : ∀ i, ((js.map Due.metric : List Due) : Multiset Due).count (.metric i) =
      (js : Multiset JobId).count i := by
    intro i
    rw [← Multiset.map_coe, Multiset.count_map_eq_count' _ _ fun _ _ hij => Due.metric.inj hij]
  rw [zero_add]
  refine ⟨?_, ?_, ?_, ?_, h.outstanding, ?_, h.remaining, h.failures⟩
  · intro i
    have h1 := h.slot i
    rw [Multiset.count_add, hzero (by simp), zero_add] at h1
    exact h1
  · intro i
    have h1 := h.callback i
    rw [Multiset.count_add, hzero (by simp), zero_add] at h1
    exact h1
  · intro i
    have h1 := h.metric i
    rw [Multiset.count_add, hmetric, ← add_assoc, ← Multiset.count_add] at h1
    exact h1
  · intro i
    have h1 := h.unit i
    rw [Multiset.countP_add, countP_eq_zero_of_forall fun x hx => by obtain ⟨i, rfl⟩ := hmem x hx; rfl,
      zero_add] at h1
    exact h1
  · change b.tally + js.length = (b.counted + (js : Multiset JobId)).card
    rw [Multiset.card_add, h.tally]
    rfl

/-- The other counts are those without the paid due. -/
theorem Accounted.without (h : b.Accounted ({x} + O)) :
    (∀ i, x ≠ .slot i → b.slots.count i + O.count (.slot i) = (b.ended i).toNat) ∧
    (∀ i, x ≠ .callback i → b.callbacks.count i + O.count (.callback i) = (b.ended i).toNat) ∧
    (∀ i, x ≠ .metric i → b.counted.count i + O.count (.metric i) = (b.ended i).toNat) ∧
    (∀ i, x.unitOf i = false → b.units.count i + O.countP (·.unitOf i) =
      (b.ended i && decide (b.workflow i ≠ "")).toNat) := by
  refine ⟨fun i hx => ?_, fun i hx => ?_, fun i hx => ?_, fun i hx => ?_⟩
  · have h1 := h.slot i
    rwa [Multiset.count_add, Multiset.count_singleton, if_neg hx.symm, zero_add] at h1
  · have h1 := h.callback i
    rwa [Multiset.count_add, Multiset.count_singleton, if_neg hx.symm, zero_add] at h1
  · have h1 := h.metric i
    rwa [Multiset.count_add, Multiset.count_singleton, if_neg hx.symm, zero_add] at h1
  · have h1 := h.unit i
    rwa [Multiset.countP_add, countP_singleton, hx, Bool.toNat_false, zero_add] at h1

theorem Accounted.payCallback (h : b.Accounted ({Due.callback j} + O)) :
    ({ b with callbacks := b.callbacks + {j} } : Board).Accounted (0 + O) := by
  obtain ⟨hslot, -, hmetric, hunit⟩ := h.without
  rw [zero_add]
  refine ⟨fun i => hslot i (by simp), ?_, fun i => hmetric i (by simp), fun i => hunit i rfl, h.outstanding,
    h.tally, h.remaining, h.failures⟩
  intro i
  have h1 := h.callback i
  have h2 : ({Due.callback j} : Multiset Due).count (.callback i) = ({j} : Multiset JobId).count i := by
    simp [Multiset.count_singleton]
  rw [Multiset.count_add, h2, ← add_assoc, ← Multiset.count_add] at h1
  exact h1

/-- There is a slot to give back. -/
theorem Accounted.paySlot (h : b.Accounted ({Due.slot j} + O)) (hg : b.Graph) :
    0 < b.outstanding ∧ ({ b with
        slots := b.slots + {j}
        outstanding := if b.outstanding = 0 then 2 ^ 64 - 1 else b.outstanding - 1 } : Board).Accounted (0 + O) := by
  obtain ⟨-, hcallback, hmetric, hunit⟩ := h.without
  have hslot : ∀ i, (b.slots + {j}).count i + O.count (.slot i) = (b.ended i).toNat := by
    intro i
    have h1 := h.slot i
    have h2 : ({Due.slot j} : Multiset Due).count (.slot i) = ({j} : Multiset JobId).count i := by
      simp [Multiset.count_singleton]
    rwa [Multiset.count_add, h2, ← add_assoc, ← Multiset.count_add] at h1
  have hcard : (b.slots + {j}).card ≤ b.ids.card := by
    apply card_le_of_count_le_one
    · intro i
      have h1 := hslot i
      have h2 := (b.ended i).toNat_le
      omega
    · intro i hi
      apply hg.mem_ids_of_ended
      have h1 := hslot i
      have h2 := Multiset.count_pos.mpr hi
      cases hend : b.ended i with
      | true => rfl
      | false =>
          rw [hend, Bool.toNat_false] at h1
          omega
  have hsum := h.outstanding
  rw [Multiset.card_add, Multiset.card_singleton] at hcard
  refine ⟨by omega, ?_⟩
  rw [zero_add]
  refine ⟨hslot, fun i => hcallback i (by simp), fun i => hmetric i (by simp), fun i => hunit i rfl, ?_,
    h.tally, h.remaining, h.failures⟩
  change (if b.outstanding = 0 then 2 ^ 64 - 1 else b.outstanding - 1) + (b.slots + {j}).card = b.ids.card
  rw [if_neg (by omega), Multiset.card_add, Multiset.card_singleton]
  omega

/-! ### Subtracting units -/

section Units

variable {js : List JobId} {failed : Bool}

theorem countP_units (i : JobId) : ((js.map (Due.unit · w failed) : List Due) : Multiset Due).countP (·.unitOf i) =
    (js : Multiset JobId).count i := by
  have hfun : ((fun x : Due => decide (x.unitOf i = true)) ∘ (Due.unit · w failed)) = (· == i) := by
    funext k
    exact Bool.decide_eq_true
  rw [Multiset.coe_countP, List.countP_map, hfun, Multiset.coe_count]
  rfl

theorem mem_units (hx : x ∈ ((js.map (Due.unit · w failed) : List Due) : Multiset Due)) :
    ∃ i ∈ js, x = .unit i w failed := by
  obtain ⟨i, hi, rfl⟩ := List.mem_map.mp (Multiset.mem_coe.mp hx)
  exact ⟨i, hi, rfl⟩

/-- The nodes whose units are subtracted are nodes of `w` that ended. -/
structure Paying (b : Board) (js : List JobId) (w : WorkflowId) (failed : Bool) : Prop where
  ne : w ≠ ""
  workflow : ∀ i ∈ js, b.workflow i = w
  failed : ∀ i ∈ js, b.failed i = failed

theorem Safe.paying (h : b.Safe ((js.map (Due.unit · w failed) : List Due) + O)) (hjs : js ≠ []) :
    b.Paying js w failed := by
  have hfact : ∀ i ∈ js, b.Fact (.unit i w failed) := fun i hi =>
    h.of_mem (Multiset.mem_coe.mpr (List.mem_map.mpr ⟨i, hi, rfl⟩))
  refine ⟨?_, fun i hi => ?_, fun i hi => ?_⟩
  · obtain ⟨i, hi⟩ := List.exists_mem_of_ne_nil js hjs
    obtain ⟨-, -, -, hne, -⟩ := hfact i hi
    exact hne
  · obtain ⟨r, hrow, hwf, -⟩ := hfact i hi
    rw [workflow_of_row hrow, hwf]
  · obtain ⟨r, hrow, -, -, hend, hiff⟩ := hfact i hi
    rw [failed_of_row hrow, hend, Bool.true_and]
    by_cases hs : r.state = .succeeded
    · have hf : failed = false := by
        cases failed with
        | false => rfl
        | true => exact absurd hs (hiff.mp rfl)
      simp [hs, hf]
    · rw [hiff.mpr hs]
      simp [hs]

theorem Paying.used (h : b.Paying js w failed) (v : WorkflowId) :
    (b.units + (js : Multiset JobId)).countP (fun i => b.workflow i = v) =
      b.used v + if v = w then js.length else 0 := by
  rw [Multiset.countP_add, Board.used, Multiset.coe_countP]
  congr 1
  split_ifs with hv
  · rw [List.countP_eq_length]
    intro i hi
    simp [h.workflow i hi, hv]
  · rw [List.countP_eq_zero]
    intro i hi
    simp [h.workflow i hi, Ne.symm hv]

theorem Paying.usedFailed (h : b.Paying js w failed) (v : WorkflowId) :
    (b.units + (js : Multiset JobId)).countP (fun i => b.workflow i = v ∧ b.failed i = true) =
      b.usedFailed v + if v = w ∧ failed = true then js.length else 0 := by
  rw [Multiset.countP_add, Board.usedFailed, Multiset.coe_countP]
  congr 1
  split_ifs with hv
  · rw [List.countP_eq_length]
    intro i hi
    simp [h.workflow i hi, h.failed i hi, hv]
  · rw [List.countP_eq_zero]
    intro i hi
    simp only [h.workflow i hi, h.failed i hi, decide_eq_true_eq]
    exact fun hand => hv ⟨hand.1.symm, hand.2⟩

theorem Accounted.count_units (h : b.Accounted ((js.map (Due.unit · w failed) : List Due) + O)) (i : JobId) :
    (b.units + (js : Multiset JobId)).count i + O.countP (·.unitOf i) =
      (b.ended i && decide (b.workflow i ≠ "")).toNat := by
  have h1 := h.unit i
  rwa [Multiset.countP_add, countP_units, ← add_assoc, ← Multiset.count_add] at h1

/-- No more units are subtracted than there are nodes. -/
theorem Accounted.units_le (h : b.Accounted ((js.map (Due.unit · w failed) : List Due) + O)) (hg : b.Graph)
    (hp : b.Paying js w failed) : b.used w + js.length ≤ (b.nodes w).card := by
  have h1 := hp.used w
  rw [if_pos rfl] at h1
  rw [← h1, Multiset.countP_eq_card_filter]
  apply card_le_of_count_le_one
  · intro i
    refine (Multiset.count_le_of_le i (Multiset.filter_le _ _)).trans ?_
    have h2 := h.count_units i
    have h3 := (b.ended i && decide (b.workflow i ≠ "")).toNat_le
    omega
  · intro i hi
    obtain ⟨hmem, hw⟩ := Multiset.mem_filter.mp hi
    refine Finset.mem_filter.mpr ⟨hg.mem_ids_of_ended ?_, hw⟩
    have h2 := h.count_units i
    have h3 := Multiset.count_pos.mpr hmem
    cases hend : b.ended i with
    | true => rfl
    | false =>
        rw [hend, Bool.false_and, Bool.toNat_false] at h2
        omega

/-- The counts that units do not touch. -/
theorem Accounted.besides_units (h : b.Accounted ((js.map (Due.unit · w failed) : List Due) + O)) :
    (∀ i, b.slots.count i + O.count (.slot i) = (b.ended i).toNat) ∧
    (∀ i, b.callbacks.count i + O.count (.callback i) = (b.ended i).toNat) ∧
    (∀ i, b.counted.count i + O.count (.metric i) = (b.ended i).toNat) := by
  have hzero : ∀ {x : Due}, (∀ i, x ≠ .unit i w failed) →
      ((js.map (Due.unit · w failed) : List Due) : Multiset Due).count x = 0 := by
    intro x hx
    rw [Multiset.count_eq_zero]
    intro hmem
    obtain ⟨i, -, rfl⟩ := mem_units hmem
    exact hx i rfl
  refine ⟨fun i => ?_, fun i => ?_, fun i => ?_⟩
  · have h1 := h.slot i
    rwa [Multiset.count_add, hzero (by simp), zero_add] at h1
  · have h1 := h.callback i
    rwa [Multiset.count_add, hzero (by simp), zero_add] at h1
  · have h1 := h.metric i
    rwa [Multiset.count_add, hzero (by simp), zero_add] at h1

/-- While a node of `w` is to be accounted for, the counter of `w` is there and says how many are. -/
theorem Accounted.remaining_of_units (h : b.Accounted ((js.map (Due.unit · w failed) : List Due) + O))
    (hg : b.Graph) (hp : b.Paying js w failed) (hjs : js ≠ []) :
    b.remaining w = some ((b.nodes w).card - b.used w : Int) := by
  have h1 := h.units_le hg hp
  have h2 := List.length_pos_iff.mpr hjs
  rw [h.remaining w hp.ne, if_neg (by omega)]

theorem Accounted.account {rem : Int} (h : b.Accounted ((js.map (Due.unit · w failed) : List Due) + O))
    (hg : b.Graph) (hp : b.Paying js w failed) (hjs : js ≠ []) (hrem : b.remaining w = some rem)
    (hmore : 0 < rem - js.length) :
    ({ b with
        units := b.units + js
        remaining := Function.update b.remaining w (some (rem - js.length))
        failures := b.addFailures w failed js.length } : Board).Accounted (0 + O) := by
  obtain ⟨hslot, hcallback, hmetric⟩ := h.besides_units
  have hval := h.remaining_of_units hg hp hjs
  rw [hrem, Option.some.injEq] at hval
  rw [zero_add]
  refine ⟨hslot, hcallback, hmetric, fun i => h.count_units i, h.outstanding, h.tally, ?_, ?_⟩
  · intro v hv
    change Function.update b.remaining w (some (rem - js.length)) v =
      if (b.nodes v).card = (b.units + (js : Multiset JobId)).countP (fun i => b.workflow i = v) then none
      else some ((b.nodes v).card - (b.units + (js : Multiset JobId)).countP (fun i => b.workflow i = v) : Int)
    rw [hp.used]
    by_cases hvw : v = w
    · subst hvw
      rw [Function.update_self, if_pos rfl, if_neg (by omega), hval]
      push_cast
      congr 1
      ring
    · rw [Function.update_of_ne hvw, if_neg hvw, add_zero]
      exact h.remaining v hv
  · intro v hv
    change b.addFailures w failed js.length v =
      if Function.update b.remaining w (some (rem - js.length)) v = none then 0
      else ((b.units + (js : Multiset JobId)).countP fun i => b.workflow i = v ∧ b.failed i = true : Int)
    have hold := h.failures v hv
    rw [hp.usedFailed, addFailures]
    by_cases hvw : v = w
    · subst hvw
      rw [hrem, if_neg (by simp)] at hold
      rw [Function.update_self, if_neg (c := some (rem - js.length) = none) (by simp)]
      cases failed <;> simp [hold]
    · rw [Function.update_of_ne hvw, if_neg (c := v = w ∧ failed = true) fun hand => hvw hand.1, add_zero, ← hold]
      cases failed <;> simp [hvw]

theorem Accounted.accountLast {rem : Int} {f : Bool} (h : b.Accounted ((js.map (Due.unit · w failed) : List Due) + O))
    (hg : b.Graph) (hp : b.Paying js w failed) (hjs : js ≠ []) (hrem : b.remaining w = some rem)
    (hlast : rem - js.length ≤ 0) :
    ({ b with
        units := b.units + js
        remaining := Function.update b.remaining w none
        failures := Function.update (b.addFailures w failed js.length) w 0 } : Board).Accounted
      ({Due.verdict w f} + O) := by
  obtain ⟨hslot, hcallback, hmetric⟩ := h.besides_units
  have hval := h.remaining_of_units hg hp hjs
  have hle := h.units_le hg hp
  rw [hrem, Option.some.injEq] at hval
  have hcount : ∀ {x : Due}, x.accounting = true → (({Due.verdict w f} : Multiset Due) + O).count x = O.count x := by
    intro x hx
    rw [Multiset.count_add, Multiset.count_singleton, if_neg, zero_add]
    rintro rfl
    cases hx
  refine ⟨?_, ?_, ?_, ?_, h.outstanding, h.tally, ?_, ?_⟩
  · intro i
    rw [hcount rfl]
    exact hslot i
  · intro i
    rw [hcount rfl]
    exact hcallback i
  · intro i
    rw [hcount rfl]
    exact hmetric i
  · intro i
    rw [Multiset.countP_add, countP_singleton]
    simp only [Due.unitOf, Bool.toNat_false, zero_add]
    exact h.count_units i
  · intro v hv
    change Function.update b.remaining w none v =
      if (b.nodes v).card = (b.units + (js : Multiset JobId)).countP (fun i => b.workflow i = v) then none
      else some ((b.nodes v).card - (b.units + (js : Multiset JobId)).countP (fun i => b.workflow i = v) : Int)
    rw [hp.used]
    by_cases hvw : v = w
    · subst hvw
      rw [Function.update_self, if_pos rfl, if_pos (by omega)]
    · rw [Function.update_of_ne hvw, if_neg hvw, add_zero]
      exact h.remaining v hv
  · intro v hv
    change Function.update (b.addFailures w failed js.length) w 0 v =
      if Function.update b.remaining w none v = none then 0
      else ((b.units + (js : Multiset JobId)).countP fun i => b.workflow i = v ∧ b.failed i = true : Int)
    by_cases hvw : v = w
    · subst hvw
      rw [Function.update_self, Function.update_self, if_pos rfl]
    · have hold := h.failures v hv
      rw [hp.usedFailed, addFailures, Function.update_of_ne hvw, Function.update_of_ne hvw,
        if_neg (c := v = w ∧ failed = true) fun hand => hvw hand.1, add_zero, ← hold]
      cases failed <;> simp [hvw]

end Units

/-- **Every move keeps the accounts.** -/
theorem Accounted.move (h : b.Accounted (d + O)) (hs : b.Safe (d + O)) (hmove : Move b d b' d') :
    b'.Accounted (d' + O) := by
  cases hmove with
  | idle => exact h
  | @flag j r hrun =>
      obtain ⟨cur, hrow, hwf, ho⟩ := hs.open_of_mem (k := cancel) (j := j) (r := r) (by simp)
      exact h.quiet (sameAccounts_write hrow ho (by rw [hrun]; rfl) hwf.symm) (by simp [Due.accounting]) (by simp)
  | @launch j r s d' hstate hwf hdeps hd' =>
      obtain ⟨cur, hrow, hwf', ho⟩ := hs.open_of_mem (k := start) (j := j) (r := r) (by simp)
      have hsame := sameAccounts_write hrow ho (by rw [hstate]; rfl) (hwf.trans hwf'.symm)
      refine h.quiet ⟨hsame.ids, hsame.ended, hsame.failed, hsame.workflow, rfl, rfl, rfl, rfl, rfl, rfl, rfl, rfl⟩
        (by simp [Due.accounting]) ?_
      rcases hd' with rfl | rfl <;> simp [Due.accounting]
  | @retry j r s hstate hwf hdeps =>
      obtain ⟨cur, hrow, hwf', ho⟩ := hs.open_of_mem (k := Window.finish) (j := j) (r := r) (by simp)
      exact h.quiet (sameAccounts_write hrow ho (by rw [hstate]; rfl) (hwf.trans hwf'.symm))
        (by simp [Due.accounting]) (by simp [Due.accounting])
  | @reassign j r s hstate hwf hdeps =>
      obtain ⟨cur, hrow, hwf', ho⟩ := hs.open_of_mem (k := expire) (j := j) (r := r) (by simp)
      exact h.quiet (sameAccounts_write hrow ho (by rw [hstate]; rfl) (hwf.trans hwf'.symm))
        (by simp [Due.accounting]) (by simp [Due.accounting])
  | @release c r s hstate hwf hdeps =>
      obtain ⟨cur, hrow, hwf', ho⟩ := hs.open_of_mem (k := Window.release) (j := c) (r := r) (by simp)
      exact h.quiet (sameAccounts_write hrow ho (by rcases hstate with h | h <;> rw [h] <;> rfl)
        (hwf.trans hwf'.symm))
        (by simp [Due.accounting]) (by simp [Due.accounting])
  | @conclude k j r s hends hwf =>
      obtain ⟨cur, hrow, hwf', ho⟩ := hs.open_of_mem (k := k) (j := j) (r := r) (by simp)
      refine h.finish ?_ hrow ho (hwf.trans hwf'.symm) (Ends.isTerminal hends)
      intro x hx
      rcases eq_of_mem_window_entry hx with rfl | rfl <;> rfl
  | @skip c w r s hstate hwf =>
      obtain ⟨cur, hrow, hwf', ho⟩ := hs.open_of_mem (k := Window.skip) (j := c) (r := r) (by simp)
      rw [hs.skip_dues hwf hstate]
      exact h.finish (by simp [Due.accounting]) hrow ho (hwf.trans hwf'.symm) (by rw [hstate]; rfl)
  | metric => exact h.payMetric
  | callback => exact h.payCallback
  | slot => exact (h.paySlot hs.graph).2
  | account hjs hrem hmore => exact h.account hs.graph (hs.paying hjs) hjs hrem hmore
  | accountLast hjs hrem hlast => exact h.accountLast hs.graph (hs.paying hjs) hjs hrem hlast
  | accountLate hjs hrem =>
      have hval := h.remaining_of_units hs.graph (hs.paying hjs) hjs
      rw [hrem] at hval
      cases hval
  | @unqueue k j r hk =>
      refine h.quiet ⟨rfl, rfl, rfl, rfl, rfl, rfl, rfl, rfl, rfl, rfl, rfl, rfl⟩ (by simp [Due.accounting]) ?_
      intro x hx
      rcases eq_of_mem_window_entry hx with rfl | rfl <;> rfl
  | _ =>
      exact h.quiet ⟨rfl, rfl, rfl, rfl, rfl, rfl, rfl, rfl, rfl, rfl, rfl, rfl⟩ (by simp [Due.accounting])
        (by simp [Due.accounting])

end Board

end DistributedJobEngine
