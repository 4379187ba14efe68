import DistributedJobEngine.BoardAdmission

/-! The labels of workflows. The counter of a workflow is gone once all its nodes have been accounted for, and
whoever removed it owes the verdict. A record is labelled when the verdict is written, or marked as cancelled;
a label says what became of the nodes. -/

namespace DistributedJobEngine

open Due Window

/-- The dues that the label of `w` depends on. -/
def Due.labels (w : WorkflowId) : Due → Bool
  | verdict v _ | cancelling v => v = w
  | _ => false

namespace Board

variable {b b' : Board} {D d d' O : Multiset Due} {j : JobId} {r : Stub} {w v : WorkflowId} {failed : Bool}

/-! ### Workflows without a counter -/

/-- The nodes of a workflow whose units were subtracted. -/
theorem Accounted.toFinset_units_subset (h : b.Accounted D) (hg : b.Graph) :
    (b.units.filter fun j => b.workflow j = w).toFinset ⊆ b.nodes w := by
  intro i hi
  obtain ⟨hmem, hw⟩ := Multiset.mem_filter.mp (Multiset.mem_toFinset.mp hi)
  exact Finset.mem_filter.mpr ⟨hg.mem_ids_of_ended (h.ended_of_unit hmem), hw⟩

theorem Accounted.card_toFinset_units (h : b.Accounted D) :
    (b.units.filter fun j => b.workflow j = w).toFinset.card = b.used w := by
  have hnodup : b.units.Nodup := Multiset.nodup_iff_count_le_one.mpr fun i => by
    have hunit := h.unit i
    have hle := (b.ended i && decide (b.workflow i ≠ "")).toNat_le
    omega
  rw [Multiset.toFinset_card_of_nodup (hnodup.filter _), used, Multiset.countP_eq_card_filter]

theorem Accounted.mem_units (h : b.Accounted D) (hg : b.Graph) (hw : w ≠ "") (hnone : b.remaining w = none)
    (hj : j ∈ b.nodes w) : j ∈ b.units := by
  have hrem := h.remaining w hw
  rw [hnone] at hrem
  have hcard : (b.nodes w).card = b.used w := by
    by_contra hne
    rw [if_neg hne] at hrem
    cases hrem
  have heq := Finset.eq_of_subset_of_card_le (h.toFinset_units_subset hg) (by rw [h.card_toFinset_units, hcard])
  rw [← heq, Multiset.mem_toFinset] at hj
  exact (Multiset.mem_filter.mp hj).1

theorem Accounted.exists_node (h : b.Accounted D) (hg : b.Graph) (hw : w ≠ "") (hsome : b.remaining w ≠ none) :
    ∃ j ∈ b.nodes w, j ∉ b.units := by
  by_contra hall
  push Not at hall
  refine hsome ?_
  have hsub : b.nodes w ⊆ (b.units.filter fun j => b.workflow j = w).toFinset := fun j hj =>
    Multiset.mem_toFinset.mpr (Multiset.mem_filter.mpr ⟨hall j hj, (Finset.mem_filter.mp hj).2⟩)
  rw [h.remaining w hw, if_pos]
  rw [← h.card_toFinset_units, Finset.Subset.antisymm hsub (h.toFinset_units_subset hg)]

/-- All nodes of `w` are accounted for, and `failed` says whether one of them did not succeed. -/
structure Finished (b : Board) (w : WorkflowId) (failed : Bool) : Prop where
  record : (b.record w).isSome
  named : w ≠ ""
  remaining : b.remaining w = none
  failed : failed = true ↔ ∃ j ∈ b.nodes w, b.failed j = true

theorem Finished.ended (h : b.Finished w failed) (ha : b.Accounted D) (hg : b.Graph) (hj : j ∈ b.nodes w) :
    b.ended j = true :=
  ha.ended_of_unit (ha.mem_units hg h.named h.remaining hj)

theorem remaining_of_move (hmove : Move b d b' d') (hnone : b.remaining w = none) : b'.remaining w = none := by
  have hupd : ∀ {v : WorkflowId} {r : Int} {o : Option Int}, b.remaining v = some r →
      Function.update b.remaining v o w = none := by
    intro v r o hrem
    rw [Function.update_of_ne fun hwv => ?_, hnone]
    rw [hwv, hrem] at hnone
    cases hnone
  cases hmove with
  | account _ hrem => exact hupd hrem
  | accountLast _ hrem => exact hupd hrem
  | _ => exact hnone

theorem Safe.workflow_of_move (h : b.Safe (d + O)) (hmove : Move b d b' d') : b'.workflow = b.workflow := by
  funext j
  cases hrow : b.row j with
  | none =>
      have hnone : b'.row j = none := by
        rw [← Option.not_isSome_iff_eq_none, isSome_row_of_move hmove, hrow]
        exact Bool.false_ne_true
      rw [workflow, workflow, hnone, hrow]
  | some r =>
      obtain ⟨s, hs, hwf⟩ := h.row_after_move hmove hrow
      rw [workflow_of_row hs, workflow_of_row hrow, hwf]

theorem Safe.nodes_of_move (h : b.Safe (d + O)) (hmove : Move b d b' d') : b'.nodes w = b.nodes w := by
  rw [nodes, nodes, ids_of_move hmove, h.workflow_of_move hmove]

theorem Safe.failed_of_move (h : b.Safe (d + O)) (hmove : Move b d b' d') (hend : b.ended j = true) :
    b'.failed j = b.failed j := by
  cases hrow : b.row j with
  | none => simp [Board.ended, hrow] at hend
  | some r =>
      rw [ended_of_row hrow] at hend
      rw [failed_of_row hrow, failed_of_row (h.absorbing hmove hrow hend)]

/-- What became of a finished workflow does not change. -/
theorem Finished.move (h : b.Finished w failed) (hs : b.Safe (d + O)) (ha : b.Accounted (d + O))
    (hmove : Move b d b' d') : b'.Finished w failed := by
  refine ⟨?_, h.named, remaining_of_move hmove h.remaining, ?_⟩
  · rw [isSome_record_of_move hmove]
    exact h.record
  · rw [h.failed, hs.nodes_of_move hmove]
    refine exists_congr fun j => and_congr_right fun hj => ?_
    rw [hs.failed_of_move hmove (h.ended ha hs.graph hj)]

/-- The record and the counter of every workflow but the one that is registered are kept. -/
theorem Admits.record_of_old {N : Finset JobId} (h : b.Admits b' N w) (hold : ¬ (v = w ∧ w ≠ "")) :
    b'.record v = b.record v ∧ b'.remaining v = b.remaining v := by
  by_cases hw : w = ""
  · obtain ⟨hrem, -, hrec⟩ := h.single hw
    rw [hrem, hrec]
    exact ⟨rfl, rfl⟩
  · obtain ⟨-, -, hrem, -, hrec⟩ := h.registered hw
    have hne : v ≠ w := fun hvw => hold ⟨hvw, hw⟩
    rw [hrem, hrec, Function.update_of_ne hne, Function.update_of_ne hne]
    exact ⟨rfl, rfl⟩

theorem Finished.admits {N : Finset JobId} (h : b.Finished w failed) (hg : b.Graph) (hadm : b.Admits b' N v) :
    b'.Finished w failed := by
  have hne : w ≠ v := by
    rintro rfl
    have hrec := h.record
    rw [(hadm.registered h.named).2.1] at hrec
    cases hrec
  obtain ⟨hrec, hrem⟩ := hadm.record_of_old fun hnew => hne hnew.1
  refine ⟨by rw [hrec]; exact h.record, h.named, by rw [hrem]; exact h.remaining, ?_⟩
  rw [h.failed, hadm.nodes_eq hg, if_neg hne, Finset.union_empty]
  exact exists_congr fun j => and_congr_right fun _ => by rw [hadm.failed_eq]

/-! ### Labels -/

/-- The label of `w` follows its nodes and the cancellations that were acknowledged. -/
structure LabelAt (b : Board) (D : Multiset Due) (w : WorkflowId) : Prop where
  named : (b.record w).isSome → w ≠ ""
  running : b.record w = some .running → b.remaining w ≠ none ∨ ∃ failed, Due.verdict w failed ∈ D
  verdict : ∀ failed, Due.verdict w failed ∈ D → b.Finished w failed
  succeeded : b.record w = some .succeeded → b.Finished w false
  failed : b.record w = some .failed → b.Finished w true
  cancelled : b.record w = some .cancelled ↔ w ∈ b.cancelled ∨ Due.cancelling w ∈ D

def Labels (b : Board) (D : Multiset Due) : Prop := ∀ w, b.LabelAt D w

theorem LabelAt.keep (h : b.LabelAt (d + O) w) (hs : b.Safe (d + O)) (ha : b.Accounted (d + O))
    (hmove : Move b d b' d') (hrec : b'.record w = b.record w) (hcan : w ∈ b'.cancelled ↔ w ∈ b.cancelled)
    (hrem : b'.remaining w = none → b.remaining w = none) (hd : ∀ x ∈ d, x.labels w = false)
    (hd' : ∀ x ∈ d', x.labels w = false) : b'.LabelAt (d' + O) w := by
  have hmem : ∀ {x : Due}, x.labels w = true → (x ∈ d' + O ↔ x ∈ d + O) := by
    intro x hx
    have hnot : x ∉ d := fun hin => by rw [hd x hin] at hx; cases hx
    have hnot' : x ∉ d' := fun hin => by rw [hd' x hin] at hx; cases hx
    rw [Multiset.mem_add, Multiset.mem_add, or_iff_right hnot, or_iff_right hnot']
  refine ⟨?_, ?_, ?_, ?_, ?_, ?_⟩
  · rw [hrec]
    exact h.named
  · rw [hrec]
    exact fun hw => (h.running hw).imp (mt hrem) fun ⟨f, hf⟩ => ⟨f, (hmem (by simp [Due.labels])).mpr hf⟩
  · exact fun f hf => (h.verdict f ((hmem (by simp [Due.labels])).mp hf)).move hs ha hmove
  · rw [hrec]
    exact fun hw => (h.succeeded hw).move hs ha hmove
  · rw [hrec]
    exact fun hw => (h.failed hw).move hs ha hmove
  · rw [hrec, hcan, hmem (by simp [Due.labels])]
    exact h.cancelled

/-- The last nodes of `w` were accounted for. -/
theorem Finished.of_last {js : List JobId} {rem : Int} (hs : b.Safe ((js.map (Due.unit · w failed) : List Due) + O))
    (ha : b.Accounted ((js.map (Due.unit · w failed) : List Due) + O)) (hf : b.Filed) (hjs : js ≠ [])
    (hrem : b.remaining w = some rem) (hlast : rem - js.length ≤ 0) :
    ({ b with
        units := b.units + js
        remaining := Function.update b.remaining w none
        failures := Function.update (b.addFailures w failed js.length) w 0 } : Board).Finished w
      (decide (0 < b.addFailures w failed js.length w)) := by
  have hp := hs.paying hjs
  have hafter := ha.accountLast (f := failed) hs.graph hp hjs hrem hlast
  refine ⟨?_, hp.ne, Function.update_self .., ?_⟩
  · obtain ⟨i, hi⟩ := List.exists_mem_of_ne_nil js hjs
    obtain ⟨r, hrow, hwf, hne, -⟩ : b.Fact (.unit i w failed) :=
      hs.of_mem (Multiset.mem_coe.mpr (List.mem_map.mpr ⟨i, hi, rfl⟩))
    have hsome := hf i r hrow (by rw [hwf]; exact hne)
    rwa [hwf] at hsome
  · have hsum : b.addFailures w failed js.length w =
        ((b.units + (js : Multiset JobId)).countP fun i => b.workflow i = w ∧ b.failed i = true : Int) := by
      have hold := ha.failures w hp.ne
      rw [hrem, if_neg (by simp)] at hold
      rw [hp.usedFailed, addFailures]
      cases failed <;> simp [hold]
    rw [decide_eq_true_eq, hsum, Int.natCast_pos, Multiset.countP_pos]
    constructor
    · rintro ⟨i, hi, hw, hfail⟩
      exact ⟨i, Finset.mem_filter.mpr ⟨hs.graph.mem_ids_of_ended (hafter.ended_of_unit hi), hw⟩, hfail⟩
    · rintro ⟨i, hi, hfail⟩
      have hg := hs.graph
      have hunit := hafter.mem_units ⟨hg.ids, hg.edge, hg.children, hg.nodup⟩ hp.ne (Function.update_self ..) hi
      exact ⟨i, hunit, (Finset.mem_filter.mp hi).2, hfail⟩

theorem labels_endDues {s : Stub} : ∀ x ∈ s.endDues j, x.labels w = false := by
  intro x hx
  rcases mem_endDues hx with rfl | rfl | rfl | ⟨-, -, rfl | rfl⟩ | ⟨-, -, rfl | rfl⟩ <;> rfl

theorem labels_entry {k : Window} : ∀ x ∈ ({window k j r} + k.entry j r : Multiset Due), x.labels w = false := by
  intro x hx
  rcases eq_of_mem_window_entry hx with rfl | rfl <;> rfl

section Written

variable {failed : Bool} {js : List JobId} {rem : Int}

theorem LabelAt.accountLast (h : b.LabelAt ((js.map (Due.unit · w failed) : List Due) + O) w)
    (hs : b.Safe ((js.map (Due.unit · w failed) : List Due) + O))
    (ha : b.Accounted ((js.map (Due.unit · w failed) : List Due) + O)) (hf : b.Filed) (hjs : js ≠ [])
    (hrem : b.remaining w = some rem) (hlast : rem - js.length ≤ 0) :
    ({ b with
        units := b.units + js
        remaining := Function.update b.remaining w none
        failures := Function.update (b.addFailures w failed js.length) w 0 } : Board).LabelAt
      ({Due.verdict w (decide (0 < b.addFailures w failed js.length w))} + O) w := by
  have hopen : ∀ {f : Bool}, ¬ b.Finished w f := fun hfin => by
    have hnone := hfin.remaining
    rw [hrem] at hnone
    cases hnone
  refine ⟨h.named, fun _ => .inr ⟨_, Multiset.mem_add.mpr (.inl (Multiset.mem_singleton_self _))⟩, fun f hmem => ?_,
    fun hw => absurd (h.succeeded hw) hopen, fun hw => absurd (h.failed hw) hopen, ?_⟩
  · rcases Multiset.mem_add.mp hmem with hmem | hmem
    · obtain ⟨-, rfl⟩ := Due.verdict.inj (Multiset.mem_singleton.mp hmem)
      exact Finished.of_last hs ha hf hjs hrem hlast
    · exact absurd (h.verdict f (Multiset.mem_add.mpr (.inr hmem))) hopen
  · have hcan := h.cancelled
    simp only [Multiset.mem_add] at hcan ⊢
    simpa using hcan

/-- The label `CANCELLED` says nothing of the nodes. -/
theorem LabelAt.of_cancelled (hrec : b.record w = some .cancelled) (hw : w ≠ "")
    (hverdict : ∀ f, Due.verdict w f ∈ D → b.Finished w f) (hcan : w ∈ b.cancelled ∨ Due.cancelling w ∈ D) :
    b.LabelAt D w := by
  refine ⟨fun _ => hw, fun hlabel => ?_, hverdict, fun hlabel => ?_, fun hlabel => ?_, iff_of_true hrec hcan⟩ <;>
    cases hrec.symm.trans hlabel

/-- The label of a workflow that came to its end. -/
theorem LabelAt.of_finished (hfin : b.Finished w failed)
    (hrec : b.record w = some (if failed then .failed else .succeeded))
    (hverdict : ∀ f, Due.verdict w f ∈ D → b.Finished w f) (hcan : ¬ (w ∈ b.cancelled ∨ Due.cancelling w ∈ D)) :
    b.LabelAt D w := by
  refine ⟨fun _ => hfin.named, fun hlabel => ?_, hverdict, fun hlabel => ?_, fun hlabel => ?_,
    iff_of_false (fun hlabel => ?_) hcan⟩ <;> rw [hrec] at hlabel <;> cases failed
  all_goals first | exact hfin | cases hlabel

end Written

/-- **Every move keeps the labels**, if records are written over `RUNNING` only. -/
theorem Labels.move (h : b.Labels (d + O)) (hs : b.Safe (d + O)) (ha : b.Accounted (d + O)) (hf : b.Filed)
    (hmove : Move b d b' d') (hrelabel : ∀ w, Due.relabel w ∈ d → b.record w = some .running)
    (hlabel : ∀ w f, Due.verdict w f ∈ d → b'.record w ≠ b.record w → b.record w = some .running) :
    b'.Labels (d' + O) := by
  intro v
  have hv := h v
  have hm := hmove
  cases hmove with
  | idle => exact hv
  | @account js w failed rem hjs hrem hmore =>
      refine hv.keep hs ha hm rfl .rfl (fun hnone => ?_) (by simp [Due.labels]) (by simp)
      change Function.update b.remaining w (some (rem - js.length)) v = none at hnone
      by_cases hvw : v = w
      · subst hvw
        rw [Function.update_self] at hnone
        cases hnone
      · rwa [Function.update_of_ne hvw] at hnone
  | @accountLast js w failed rem hjs hrem hlast =>
      by_cases hvw : v = w
      · subst hvw
        exact hv.accountLast hs ha hf hjs hrem hlast
      · refine hv.keep hs ha hm rfl .rfl (fun hnone => ?_) (by simp [Due.labels]) (by simp [Due.labels, Ne.symm hvw])
        change Function.update b.remaining w none v = none at hnone
        rwa [Function.update_of_ne hvw] at hnone
  | @relabel w =>
      by_cases hvw : v = w
      · subst hvw
        have hrun := hrelabel v (Multiset.mem_singleton_self _)
        refine .of_cancelled ?_ (hv.named (by rw [hrun]; rfl)) (fun f hmem => ?_) (.inr (by simp))
        · change Function.update b.record v ((b.record v).map fun _ => WorkflowState.cancelled) v = _
          rw [Function.update_self, hrun]
          rfl
        · exact (hv.verdict f (by simpa using hmem)).move hs ha hm
      · exact hv.keep hs ha hm (Function.update_of_ne hvw ..) .rfl (fun hnone => hnone) (by simp [Due.labels])
          (by simp [Due.labels, Ne.symm hvw])
  | @cancelled w =>
      by_cases hvw : v = w
      · subst hvw
        have hrec := hv.cancelled.mpr (.inr (by simp))
        refine .of_cancelled hrec (hv.named (by rw [hrec]; rfl)) (fun f hmem => ?_) (.inl (by simp))
        exact (hv.verdict f (by simpa using hmem)).move hs ha hm
      · exact hv.keep hs ha hm rfl (by simp [hvw]) (fun hnone => hnone) (by simp [Due.labels, Ne.symm hvw]) (by simp)
  | @dropVerdict w f hrec =>
      by_cases hvw : v = w
      · subst hvw
        have hfin := hv.verdict f (Multiset.mem_add.mpr (.inl (Multiset.mem_singleton_self _)))
        refine ⟨hv.named, fun hw => absurd hw (hrec.resolve_left hfin.named), fun f' hmem => ?_, hv.succeeded,
          hv.failed, by simpa using hv.cancelled⟩
        exact hv.verdict f' (Multiset.mem_add.mpr (.inr (by simpa using hmem)))
      · exact hv.keep hs ha hm rfl .rfl (fun hnone => hnone) (by simp [Due.labels, Ne.symm hvw]) (by simp)
  | @label w f =>
      by_cases hvw : v = w
      · subst hvw
        have hfin := hv.verdict f (Multiset.mem_add.mpr (.inl (Multiset.mem_singleton_self _)))
        obtain ⟨s, hrec⟩ := Option.isSome_iff_exists.mp hfin.record
        have hrec' : Function.update b.record v
          ((b.record v).map fun _ => if f then WorkflowState.failed else .succeeded) v
            = some (if f then .failed else .succeeded) := by
          rw [Function.update_self, hrec]
          rfl
        refine .of_finished (hfin.move hs ha hm) hrec' (fun f' hmem => ?_) fun hcan => ?_
        · exact (hv.verdict f' (Multiset.mem_add.mpr (.inr (by simpa using hmem)))).move hs ha hm
        · have hcancelled := hv.cancelled.mpr (by simpa using hcan)
          have hrun := hlabel v f (Multiset.mem_singleton_self _) fun hsame => by
            cases f <;> cases hrec'.symm.trans (hsame.trans hcancelled)
          rw [hcancelled] at hrun
          cases hrun
      · exact hv.keep hs ha hm (Function.update_of_ne hvw ..) .rfl (fun hnone => hnone)
          (by simp [Due.labels, Ne.symm hvw]) (by simp)
  | conclude => exact hv.keep hs ha hm rfl .rfl (fun hnone => hnone) labels_entry labels_endDues
  | unqueue => exact hv.keep hs ha hm rfl .rfl (fun hnone => hnone) (by simp [Due.labels]) labels_entry
  | launch _ _ _ hd' =>
      refine hv.keep hs ha hm rfl .rfl (fun hnone => hnone) (by simp [Due.labels]) ?_
      rcases hd' with rfl | rfl <;> simp [Due.labels]
  | _ => exact hv.keep hs ha hm rfl .rfl (fun hnone => hnone) (by simp [Due.labels]) (by simp [Due.labels])

/-- Records change from `RUNNING` only. -/
theorem record_of_move (hmove : Move b d b' d') (hrelabel : ∀ w, Due.relabel w ∈ d → b.record w = some .running)
    (hlabel : ∀ w f, Due.verdict w f ∈ d → b'.record w ≠ b.record w → b.record w = some .running)
    (hrec : b'.record w ≠ b.record w) : b.record w = some .running := by
  cases hmove with
  | @relabel v =>
      by_cases hwv : w = v
      · subst hwv
        exact hrelabel w (Multiset.mem_singleton_self _)
      · exact absurd (Function.update_of_ne hwv ..) hrec
  | @label v f =>
      by_cases hwv : w = v
      · subst hwv
        exact hlabel w f (Multiset.mem_singleton_self _) hrec
      · exact absurd (Function.update_of_ne hwv ..) hrec
  | _ => exact absurd rfl hrec

theorem Labels.admits {N : Finset JobId} (h : b.Labels D) (hg : b.Graph) (hadm : b.Admits b' N w) : b'.Labels D := by
  intro v
  have hv := h v
  by_cases hnew : v = w ∧ w ≠ ""
  · obtain ⟨rfl, hne⟩ := hnew
    obtain ⟨-, hnone, hrem, -, hrec⟩ := hadm.registered hne
    have hfin : ∀ {f : Bool}, ¬ b.Finished v f := fun hfin => by
      have hsome := hfin.record
      rw [hnone] at hsome
      cases hsome
    have hrun : b'.record v = some .running := by rw [hrec, Function.update_self]
    refine ⟨fun _ => hne, fun _ => .inl ?_, fun f hmem => absurd (hv.verdict f hmem) hfin, fun hw => ?_,
      fun hw => ?_, ?_⟩
    · rw [hrem, Function.update_self]
      exact Option.some_ne_none _
    · cases hrun.symm.trans hw
    · cases hrun.symm.trans hw
    · rw [hadm.cancelled]
      refine iff_of_false (fun hw => ?_) fun hcan => ?_
      · cases hrun.symm.trans hw
      · have hw := hv.cancelled.mpr hcan
        rw [hnone] at hw
        cases hw
  · have hsame := hadm.record_of_old hnew
    refine ⟨?_, ?_, fun f hmem => (hv.verdict f hmem).admits hg hadm, ?_, ?_, ?_⟩
    · rw [hsame.1]
      exact hv.named
    · rw [hsame.1, hsame.2]
      exact hv.running
    · rw [hsame.1]
      exact fun hw => (hv.succeeded hw).admits hg hadm
    · rw [hsame.1]
      exact fun hw => (hv.failed hw).admits hg hadm
    · rw [hsame.1, hadm.cancelled]
      exact hv.cancelled

/-! ### Accounts of earlier processes -/

/-- What the processes before this one have given back and counted. -/
structure Accounts where
  tally : ℕ
  slots : Multiset JobId
  callbacks : Multiset JobId
  counted : Multiset JobId
  units : Multiset JobId
  cancelled : Multiset WorkflowId

/-- The first process has none. -/
def Accounts.none : Accounts := ⟨0, 0, 0, 0, 0, 0⟩

/-- The board of a process with the accounts it carries on. -/
def carry (b : Board) (a : Accounts) : Board :=
  { b with
    tally := a.tally + b.tally
    slots := a.slots + b.slots
    callbacks := a.callbacks + b.callbacks
    counted := a.counted + b.counted
    units := a.units + b.units
    cancelled := a.cancelled + b.cancelled }

theorem carry_none (b : Board) : b.carry .none = b := by
  simp [carry, Accounts.none]

theorem Graph.carry (h : b.Graph) (a : Accounts) : (b.carry a).Graph := ⟨h.ids, h.edge, h.children, h.nodup⟩

theorem Safe.carry (h : b.Safe D) (a : Accounts) : (b.carry a).Safe D :=
  ⟨h.graph.carry a, h.fact, h.mutex, h.lease, h.finishing, h.parents, h.pending, h.releasing, h.unreleased, h.column⟩

theorem Admits.carry {N : Finset JobId} (h : b.Admits b' N w) (a : Accounts) :
    (b.carry a).Admits (b'.carry a) N w :=
  { h with
    tally := congrArg (a.tally + ·) h.tally
    slots := congrArg (a.slots + ·) h.slots
    callbacks := congrArg (a.callbacks + ·) h.callbacks
    counted := congrArg (a.counted + ·) h.counted
    units := congrArg (a.units + ·) h.units
    cancelled := congrArg (a.cancelled + ·) h.cancelled }

/-- A step adds to the accounts and does not read them. -/
theorem carry_move (h : Move b d b' d') (a : Accounts) : Move (b.carry a) d (b'.carry a) d' := by
  cases h with
  | idle => exact .idle
  | openCancel hrow hopen => exact .openCancel hrow hopen
  | openStart hrow hwait => exact .openStart hrow hwait
  | dropStart hrow => exact .dropStart hrow
  | openRelease hrow hpend => exact .openRelease hrow hpend
  | dropReady hrow => exact .dropReady hrow
  | openSkip hrow hopen => exact .openSkip hrow hopen
  | passSkip hrow hend => exact .passSkip hrow hend
  | missSkip hrow => exact .missSkip hrow
  | seenSkip => exact .seenSkip
  | endSkip => exact .endSkip
  | accept hlease => exact .accept hlease
  | readCopy hrow => exact .readCopy hrow
  | dropSeek => exact .dropSeek
  | dropCopy => exact .dropCopy
  | fence hlease => exact .fence hlease
  | openExpire hlease hrow hrun => exact .openExpire hlease hrow hrun
  | dropLease hlease hrow => exact .dropLease hlease hrow
  | flag hrun => exact .flag hrun
  | launch hstate hwf hdeps hd' => exact .launch hstate hwf hdeps hd'
  | retry hstate hwf hdeps => exact .retry hstate hwf hdeps
  | reassign hstate hwf hdeps => exact .reassign hstate hwf hdeps
  | release hstate hwf hdeps => exact .release hstate hwf hdeps
  | conclude hends hwf => exact .conclude hends hwf
  | skip hstate hwf => exact .skip hstate hwf
  | countDown => exact .countDown
  | expand => exact .expand
  | accountLate hjs hrem => exact .accountLate hjs hrem
  | unqueue hk => exact .unqueue hk
  | pop hjs hlive => exact .pop hjs hlive
  | push => exact .push
  | pushRefused => exact .pushRefused
  | openRelabel hrec => exact .openRelabel hrec
  | relabel => exact .relabel
  | dropVerdict hrec => exact .dropVerdict hrec
  | label => exact .label
  | @metric js =>
      convert @Move.metric (b.carry a) js using 1
      simp only [carry, add_assoc]
  | @callback j =>
      convert Move.callback (b := b.carry a) (j := j) using 1
      simp only [carry, add_assoc]
  | @slot j =>
      convert Move.slot (b := b.carry a) (j := j) using 1
      simp only [carry, add_assoc]
      rfl
  | @cancelled w =>
      convert Move.cancelled (b := b.carry a) (w := w) using 1
      simp only [carry, add_assoc]
  | account hjs hrem hmore =>
      convert Move.account (b := b.carry a) hjs hrem hmore using 1
      simp only [carry, add_assoc, addFailures]
  | accountLast hjs hrem hlast =>
      convert Move.accountLast (b := b.carry a) hjs hrem hlast using 1
      · simp only [carry, add_assoc, addFailures]
      · rfl

end Board

end DistributedJobEngine
