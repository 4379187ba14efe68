import DistributedJobEngine.Queue

/-! The invariant of the queue: seqs name entries, a seq is a tombstone or its job's index entry
points at it, and the two counters count the live entries of their heaps. Each of the four ways an
entry moves (buried, filed, promoted, taken) keeps it, hence so does every operation. -/

namespace DistributedJobEngine

namespace PriorityJobQueue

/-- The heap an index entry points into. -/
def heap (q : PriorityJobQueue) (delayed : Bool) : List QueueEntry :=
  if delayed then q.delayed else q.ready

@[simp] theorem heap_true (q : PriorityJobQueue) : q.heap true = q.delayed := rfl
@[simp] theorem heap_false (q : PriorityJobQueue) : q.heap false = q.ready := rfl

/-- The live entries of one heap. -/
def liveIn (q : PriorityJobQueue) (delayed : Bool) : List QueueEntry :=
  (q.heap delayed).filter fun e => decide (e.seq ∉ q.tombstones)

theorem mem_liveIn {q : PriorityJobQueue} {delayed : Bool} {e : QueueEntry} :
    e ∈ q.liveIn delayed ↔ e ∈ q.heap delayed ∧ e.seq ∉ q.tombstones := by
  simp [liveIn]

structure Consistent (q : PriorityJobQueue) : Prop where
  seq_nodup : ((q.ready ++ q.delayed).map (·.seq)).Nodup
  seq_lt : ∀ e ∈ q.ready ++ q.delayed, e.seq < q.nextSeq
  tombstone_lt : ∀ s ∈ q.tombstones, s < q.nextSeq
  index_iff : ∀ jobId loc, q.index.lookup jobId = some loc ↔
    ∃ e ∈ q.liveIn loc.delayed, e.jobId = jobId ∧ e.seq = loc.seq
  liveReady_eq : q.liveReady = (q.liveIn false).length
  liveDelayed_eq : q.liveDelayed = (q.liveIn true).length
  ready_ordered : LibHeap.Ordered readyOrder q.ready
  delayed_ordered : LibHeap.Ordered delayedOrder q.delayed

theorem consistent_empty (capacity : ℕ) : Consistent { capacity := capacity } where
  seq_nodup := by simp
  seq_lt := by simp
  tombstone_lt := by simp
  index_iff := by
    intro jobId loc
    rcases loc with ⟨seq, _ | _⟩ <;> simp [liveIn, heap]
  liveReady_eq := rfl
  liveDelayed_eq := rfl
  ready_ordered := List.Pairwise.nil
  delayed_ordered := List.Pairwise.nil

namespace Consistent

variable {q : PriorityJobQueue}

/-- A seq is held by one entry only, whichever heap it is in. -/
theorem eq_of_seq (h : q.Consistent) {e e' : QueueEntry} (he : e ∈ q.ready ++ q.delayed)
    (he' : e' ∈ q.ready ++ q.delayed) (hseq : e.seq = e'.seq) : e = e' :=
  List.inj_on_of_nodup_map h.seq_nodup he he' hseq

theorem mem_append_of_heap {delayed : Bool} {e : QueueEntry} (he : e ∈ q.heap delayed) :
    e ∈ q.ready ++ q.delayed := by
  cases delayed <;> simp_all

/-- The two heaps share no seq. -/
theorem heap_unique (h : q.Consistent) {d d' : Bool} {e e' : QueueEntry} (he : e ∈ q.heap d)
    (he' : e' ∈ q.heap d') (hseq : e.seq = e'.seq) : d = d' := by
  have heq := h.eq_of_seq (mem_append_of_heap he) (mem_append_of_heap he') hseq
  subst heq
  have hdisj : List.Disjoint q.ready q.delayed := by
    have hnd := List.Nodup.of_map _ h.seq_nodup
    exact (List.nodup_append'.mp hnd).2.2
  cases d <;> cases d'
  · rfl
  · exact absurd he' (hdisj he)
  · exact absurd he (hdisj he')
  · rfl

/-- The index entry of a live entry's job points at that entry. -/
theorem lookup_of_live (h : q.Consistent) {d : Bool} {e : QueueEntry} (he : e ∈ q.liveIn d) :
    q.index.lookup e.jobId = some ⟨e.seq, d⟩ :=
  (h.index_iff _ _).mpr ⟨e, he, rfl, rfl⟩

/-- A job has at most one live entry. -/
theorem live_unique (h : q.Consistent) {d d' : Bool} {e e' : QueueEntry} (he : e ∈ q.liveIn d)
    (he' : e' ∈ q.liveIn d') (hid : e.jobId = e'.jobId) : e = e' := by
  have h1 := h.lookup_of_live he
  have h2 := h.lookup_of_live he'
  rw [hid, h2] at h1
  simp only [Option.some.injEq, Loc.mk.injEq] at h1
  exact h.eq_of_seq (mem_append_of_heap (mem_liveIn.mp he).1)
    (mem_append_of_heap (mem_liveIn.mp he').1) h1.1.symm

/-- Dropping the one element with a given key shortens a list by one. -/
theorem length_filter_key_ne {α β : Type} [DecidableEq β] (f : α → β) {l : List α}
    (hl : (l.map f).Nodup) {a : α} (ha : a ∈ l) :
    (l.filter fun x => decide (f x ≠ f a)).length + 1 = l.length := by
  induction l with
  | nil => cases ha
  | cons b l ih =>
      rw [List.map_cons, List.nodup_cons] at hl
      rcases List.mem_cons.mp ha with rfl | ha'
      · have hkeep : l.filter (fun x => decide (f x ≠ f a)) = l := by
          rw [List.filter_eq_self]
          intro x hx
          have hne : f x ≠ f a := fun heq => hl.1 (heq ▸ List.mem_map_of_mem hx)
          simp [hne]
        rw [List.filter_cons_of_neg (by simp), hkeep, List.length_cons]
      · have hne : f b ≠ f a := fun heq => hl.1 (heq ▸ List.mem_map_of_mem ha')
        rw [List.filter_cons_of_pos (by simp [hne]), List.length_cons, List.length_cons,
          ih hl.2 ha']

theorem liveIn_seq_nodup (h : q.Consistent) (d : Bool) : ((q.liveIn d).map (·.seq)).Nodup := by
  have hsub : (q.heap d).Sublist (q.ready ++ q.delayed) := by
    cases d
    · exact List.sublist_append_left _ _
    · exact List.sublist_append_right _ _
  exact h.seq_nodup.sublist ((List.filter_sublist.trans hsub).map _)

/-- Burying an entry removes exactly it from the live entries. -/
theorem liveIn_bury (jobId : JobId) (loc : Loc) (d : Bool) :
    (q.bury jobId loc).liveIn d = (q.liveIn d).filter fun e => decide (e.seq ≠ loc.seq) := by
  have hheap : (q.bury jobId loc).heap d = q.heap d := rfl
  rw [liveIn, liveIn, hheap, List.filter_filter]
  apply List.filter_congr
  intro e _
  simp [bury, not_or]

theorem bury (h : q.Consistent) {jobId : JobId} {loc : Loc}
    (hloc : q.index.lookup jobId = some loc) : (q.bury jobId loc).Consistent := by
  obtain ⟨e, he, hid, hseq⟩ := (h.index_iff _ _).mp hloc
  have hother : ∀ d, d ≠ loc.delayed → (q.bury jobId loc).liveIn d = q.liveIn d := by
    intro d hd
    rw [liveIn_bury, List.filter_eq_self]
    intro e' he'
    have hne : e'.seq ≠ loc.seq := fun heq =>
      hd (h.heap_unique (mem_liveIn.mp he').1 (mem_liveIn.mp he).1 (heq.trans hseq.symm))
    simp [hne]
  have hsame : ((q.bury jobId loc).liveIn loc.delayed).length + 1 = (q.liveIn loc.delayed).length := by
    rw [liveIn_bury, ← hseq]
    exact length_filter_key_ne (·.seq) (h.liveIn_seq_nodup _) he
  refine ⟨h.seq_nodup, h.seq_lt, ?_, ?_, ?_, ?_, h.ready_ordered, h.delayed_ordered⟩
  · intro s hs
    rcases Finset.mem_insert.mp hs with rfl | hs
    · rw [← hseq]
      exact h.seq_lt e (mem_append_of_heap (mem_liveIn.mp he).1)
    · exact h.tombstone_lt s hs
  · intro jobId' loc'
    by_cases hj : jobId' = jobId
    · subst hj
      have hnone : (q.bury jobId' loc).index.lookup jobId' = none := AList.lookup_erase _ _
      rw [hnone]
      constructor
      · intro hcontra
        cases hcontra
      · rintro ⟨e', he', hid', -⟩
        rw [liveIn_bury, List.mem_filter] at he'
        have heq := h.live_unique he'.1 he (hid'.trans hid.symm)
        have hne : e'.seq ≠ loc.seq := by simpa using he'.2
        exact absurd (heq ▸ hseq) hne
    · have hlook : (q.bury jobId loc).index.lookup jobId' = q.index.lookup jobId' :=
        AList.lookup_erase_ne hj
      rw [hlook, h.index_iff]
      constructor
      · rintro ⟨e', he', hid', hseq'⟩
        refine ⟨e', ?_, hid', hseq'⟩
        rw [liveIn_bury, List.mem_filter]
        refine ⟨he', ?_⟩
        have hne : e'.seq ≠ loc.seq := by
          intro heq
          have := h.eq_of_seq (mem_append_of_heap (mem_liveIn.mp he').1)
            (mem_append_of_heap (mem_liveIn.mp he).1) (heq.trans hseq.symm)
          exact hj (hid'.symm.trans (this ▸ hid))
        simp [hne]
      · rintro ⟨e', he', hid', hseq'⟩
        rw [liveIn_bury, List.mem_filter] at he'
        exact ⟨e', he'.1, hid', hseq'⟩
  · have hcount := h.liveReady_eq
    change (if loc.delayed then q.liveReady else q.liveReady - 1) = _
    cases hd : loc.delayed with
    | true =>
        rw [hother false (by simp [hd])]
        simpa using hcount
    | false =>
        rw [hd] at hsame
        simp only [Bool.false_eq_true, if_false]
        omega
  · have hcount := h.liveDelayed_eq
    change (if loc.delayed then q.liveDelayed - 1 else q.liveDelayed) = _
    cases hd : loc.delayed with
    | true =>
        rw [hd] at hsame
        simp only [if_true]
        omega
    | false =>
        rw [hother true (by simp [hd])]
        simpa using hcount

theorem evict (h : q.Consistent) (jobId : JobId) : (q.evict jobId).Consistent := by
  unfold PriorityJobQueue.evict
  cases hloc : q.index.lookup jobId with
  | none => exact h
  | some loc => exact h.bury hloc

theorem lookup_evict (q : PriorityJobQueue) (jobId : JobId) :
    (q.evict jobId).index.lookup jobId = none := by
  unfold PriorityJobQueue.evict
  cases hloc : q.index.lookup jobId with
  | none => exact hloc
  | some loc => exact AList.lookup_erase _ _

theorem liveIn_cons_push {less : QueueEntry → QueueEntry → Bool} {heap : List QueueEntry}
    {tombstones : Finset Int} {e : QueueEntry} (he : e.seq ∉ tombstones) :
    ((LibHeap.push less heap e).filter fun x => decide (x.seq ∉ tombstones)).length =
      (heap.filter fun x => decide (x.seq ∉ tombstones)).length + 1 := by
  rw [((LibHeap.push_perm heap e).filter _).length_eq, List.filter_cons_of_pos (by simpa using he),
    List.length_cons]

/-- A fresh seq belongs to no entry and to no tombstone. -/
theorem nextSeq_fresh (h : q.Consistent) :
    (∀ e ∈ q.ready ++ q.delayed, e.seq ≠ q.nextSeq) ∧ q.nextSeq ∉ q.tombstones :=
  ⟨fun e he => ne_of_lt (h.seq_lt e he), fun hmem => lt_irrefl _ (h.tombstone_lt _ hmem)⟩

/-- The heap a pushed entry goes to. -/
theorem file_eq (now : Int) (jobId : JobId) (priority readyAtMs : Int) (d : Bool) (x : QueueEntry) :
    x ∈ (q.file now jobId priority readyAtMs).heap d ↔
      (x = q.freshEntry now jobId priority readyAtMs ∧ d = decide (now < readyAtMs)) ∨ x ∈ q.heap d := by
  unfold PriorityJobQueue.file
  by_cases hnow : now < readyAtMs
  · cases d <;> simp [hnow, freshEntry]
  · cases d <;> simp [hnow, freshEntry]

theorem file_perm (now : Int) (jobId : JobId) (priority readyAtMs : Int) :
    ((q.file now jobId priority readyAtMs).ready ++ (q.file now jobId priority readyAtMs).delayed).Perm
      (q.freshEntry now jobId priority readyAtMs :: (q.ready ++ q.delayed)) := by
  unfold PriorityJobQueue.file
  by_cases hnow : now < readyAtMs
  · simp only [hnow, if_true]
    exact ((LibHeap.push_perm _ _).append_left _).trans List.perm_middle
  · simp only [hnow, if_false]
    exact (LibHeap.push_perm _ _).append_right _

theorem file (h : q.Consistent) (now : Int) {jobId : JobId} (priority readyAtMs : Int)
    (hjob : q.index.lookup jobId = none) : (q.file now jobId priority readyAtMs).Consistent := by
  set e := q.freshEntry now jobId priority readyAtMs with he
  have hperm := file_perm (q := q) now jobId priority readyAtMs
  have htomb : (q.file now jobId priority readyAtMs).tombstones = q.tombstones := by
    unfold PriorityJobQueue.file
    split_ifs <;> rfl
  have hnext : (q.file now jobId priority readyAtMs).nextSeq = q.nextSeq + 1 := by
    unfold PriorityJobQueue.file
    split_ifs <;> rfl
  have hindex : (q.file now jobId priority readyAtMs).index =
      q.index.insert jobId ⟨q.nextSeq, decide (now < readyAtMs)⟩ := by
    unfold PriorityJobQueue.file
    split_ifs <;> rfl
  have hlive : ∀ d x, x ∈ (q.file now jobId priority readyAtMs).liveIn d ↔
      (x = e ∧ d = decide (now < readyAtMs)) ∨ x ∈ q.liveIn d := by
    intro d x
    rw [mem_liveIn, mem_liveIn, file_eq, htomb]
    constructor
    · rintro ⟨hx | hx, hs⟩
      · exact Or.inl hx
      · exact Or.inr ⟨hx, hs⟩
    · rintro (⟨rfl, hd⟩ | ⟨hx, hs⟩)
      · exact ⟨Or.inl ⟨rfl, hd⟩, h.nextSeq_fresh.2⟩
      · exact ⟨Or.inr hx, hs⟩
  refine ⟨?_, ?_, ?_, ?_, ?_, ?_, ?_, ?_⟩
  · rw [(hperm.map _).nodup_iff, List.map_cons, List.nodup_cons]
    refine ⟨?_, h.seq_nodup⟩
    intro hmem
    obtain ⟨x, hx, hseq⟩ := List.mem_map.mp hmem
    exact h.nextSeq_fresh.1 x hx hseq
  · intro x hx
    rw [hnext]
    rcases List.mem_cons.mp (hperm.mem_iff.mp hx) with rfl | hx
    · exact lt_add_one q.nextSeq
    · exact (h.seq_lt x hx).trans (lt_add_one _)
  · intro s hs
    rw [hnext]
    rw [htomb] at hs
    exact (h.tombstone_lt s hs).trans (lt_add_one _)
  · intro jobId' loc'
    rw [hindex]
    by_cases hj : jobId' = jobId
    · subst hj
      rw [AList.lookup_insert]
      constructor
      · intro heq
        cases heq
        exact ⟨e, (hlive _ _).mpr (Or.inl ⟨rfl, rfl⟩), rfl, rfl⟩
      · rintro ⟨x, hx, hid, hseq⟩
        rcases (hlive _ _).mp hx with ⟨rfl, hd⟩ | hx
        · rcases loc' with ⟨s, d⟩
          simp only at hseq hd
          rw [← hseq, hd]
          rfl
        · have := h.lookup_of_live hx
          rw [hid, hjob] at this
          cases this
    · rw [AList.lookup_insert_ne hj, h.index_iff]
      constructor
      · rintro ⟨x, hx, hid, hseq⟩
        exact ⟨x, (hlive _ _).mpr (Or.inr hx), hid, hseq⟩
      · rintro ⟨x, hx, hid, hseq⟩
        rcases (hlive _ _).mp hx with ⟨rfl, -⟩ | hx
        · exact absurd hid.symm hj
        · exact ⟨x, hx, hid, hseq⟩
  · have hcount := h.liveReady_eq
    have hfresh := h.nextSeq_fresh.2
    unfold PriorityJobQueue.file
    by_cases hnow : now < readyAtMs
    · simpa [hnow, liveIn, heap] using hcount
    · simp only [hnow, if_false, liveIn, heap, Bool.false_eq_true]
      rw [liveIn_cons_push (by exact hfresh)]
      simpa [liveIn, heap] using hcount
  · have hcount := h.liveDelayed_eq
    have hfresh := h.nextSeq_fresh.2
    unfold PriorityJobQueue.file
    by_cases hnow : now < readyAtMs
    · simp only [hnow, if_true, liveIn, heap]
      rw [liveIn_cons_push (by exact hfresh)]
      simpa [liveIn, heap] using hcount
    · simpa [hnow, liveIn, heap] using hcount
  · unfold PriorityJobQueue.file
    split_ifs
    · exact h.ready_ordered
    · exact h.ready_ordered.push readyOrder_comparator _
  · unfold PriorityJobQueue.file
    split_ifs
    · exact h.delayed_ordered.push delayedOrder_comparator _
    · exact h.delayed_ordered

theorem push (h : q.Consistent) (now : Int) (jobId : JobId) (priority readyAtMs : Int) :
    (q.push now jobId priority readyAtMs).2.Consistent := by
  unfold PriorityJobQueue.push
  split_ifs
  · exact h
  · exact h
  · exact (h.evict jobId).file now priority readyAtMs (lookup_evict q jobId)

theorem remove (h : q.Consistent) (jobId : JobId) : (q.remove jobId).2.Consistent := by
  unfold PriorityJobQueue.remove
  cases hloc : q.index.lookup jobId with
  | none => exact h
  | some loc => exact h.bury hloc

/-- Shrinking the heaps and the tombstones without changing a live entry keeps the invariant. -/
theorem of_liveIn_eq (h : q.Consistent) (q' : PriorityJobQueue) (hready : q'.ready.Sublist q.ready)
    (hdelayed : q'.delayed.Sublist q.delayed) (htomb : q'.tombstones ⊆ q.tombstones)
    (hlive : ∀ d, q'.liveIn d = q.liveIn d) (hindex : q'.index = q.index)
    (hnext : q'.nextSeq = q.nextSeq) (hlr : q'.liveReady = q.liveReady)
    (hld : q'.liveDelayed = q.liveDelayed) : q'.Consistent where
  seq_nodup := h.seq_nodup.sublist ((hready.append hdelayed).map _)
  seq_lt := fun e he => by
    rw [hnext]
    exact h.seq_lt e ((hready.append hdelayed).subset he)
  tombstone_lt := fun s hs => by
    rw [hnext]
    exact h.tombstone_lt s (htomb hs)
  index_iff := fun jobId loc => by rw [hindex, hlive, h.index_iff]
  liveReady_eq := by rw [hlr, hlive, h.liveReady_eq]
  liveDelayed_eq := by rw [hld, hlive, h.liveDelayed_eq]
  ready_ordered := h.ready_ordered.sublist hready
  delayed_ordered := h.delayed_ordered.sublist hdelayed

/-- Which of the other entries are live does not depend on a tombstone that only `e` carries. -/
theorem filter_erase_tombstone (h : q.Consistent) {e : QueueEntry} {l : List QueueEntry}
    (he : e ∈ q.ready ++ q.delayed) (hl : ∀ x ∈ l, x ∈ q.ready ++ q.delayed ∧ x ≠ e) :
    (l.filter fun x => decide (x.seq ∉ q.tombstones.erase e.seq)) =
      l.filter fun x => decide (x.seq ∉ q.tombstones) := by
  apply List.filter_congr
  intro x hx
  have hne : x.seq ≠ e.seq := fun heq => (hl x hx).2 (h.eq_of_seq (hl x hx).1 he heq)
  simp [hne]

theorem discard_delayed (h : q.Consistent) {e : QueueEntry} {rest : List QueueEntry}
    (hq : q.delayed = e :: rest) (htomb : e.seq ∈ q.tombstones) :
    Consistent { q with delayed := rest, tombstones := q.tombstones.erase e.seq } := by
  have hmem : e ∈ q.ready ++ q.delayed := by simp [hq]
  have hnd := List.Nodup.of_map _ h.seq_nodup
  rw [hq, List.nodup_append'] at hnd
  have hsub : rest.Sublist q.delayed := by
    rw [hq]
    exact List.sublist_cons_self _ _
  refine h.of_liveIn_eq { q with delayed := rest, tombstones := q.tombstones.erase e.seq }
    (List.Sublist.refl _) hsub (Finset.erase_subset _ _) ?_ rfl rfl rfl rfl
  intro d
  cases d with
  | false =>
      apply h.filter_erase_tombstone hmem
      intro x hx
      exact ⟨List.mem_append_left _ hx, fun heq => hnd.2.2 hx (heq ▸ List.mem_cons_self)⟩
  | true =>
      have hdrop : q.liveIn true = rest.filter fun x => decide (x.seq ∉ q.tombstones) := by
        rw [liveIn, heap_true, hq, List.filter_cons_of_neg (by simpa using htomb)]
      rw [hdrop]
      apply h.filter_erase_tombstone hmem
      intro x hx
      refine ⟨?_, fun heq => (List.nodup_cons.mp hnd.2.1).1 (heq ▸ hx)⟩
      rw [hq]
      exact List.mem_append_right _ (List.mem_cons_of_mem _ hx)

theorem discard_ready (h : q.Consistent) {e : QueueEntry} {rest : List QueueEntry}
    (hq : q.ready = e :: rest) (htomb : e.seq ∈ q.tombstones) :
    Consistent { q with ready := rest, tombstones := q.tombstones.erase e.seq } := by
  have hmem : e ∈ q.ready ++ q.delayed := by simp [hq]
  have hnd := List.Nodup.of_map _ h.seq_nodup
  rw [hq, List.nodup_append'] at hnd
  have hsub : rest.Sublist q.ready := by
    rw [hq]
    exact List.sublist_cons_self _ _
  refine h.of_liveIn_eq { q with ready := rest, tombstones := q.tombstones.erase e.seq }
    hsub (List.Sublist.refl _) (Finset.erase_subset _ _) ?_ rfl rfl rfl rfl
  intro d
  cases d with
  | true =>
      apply h.filter_erase_tombstone hmem
      intro x hx
      exact ⟨List.mem_append_right _ hx, fun heq => hnd.2.2 List.mem_cons_self (heq ▸ hx)⟩
  | false =>
      have hdrop : q.liveIn false = rest.filter fun x => decide (x.seq ∉ q.tombstones) := by
        rw [liveIn, heap_false, hq, List.filter_cons_of_neg (by simpa using htomb)]
      rw [hdrop]
      apply h.filter_erase_tombstone hmem
      intro x hx
      refine ⟨?_, fun heq => (List.nodup_cons.mp hnd.1).1 (heq ▸ hx)⟩
      rw [hq]
      exact List.mem_append_left _ (List.mem_cons_of_mem _ hx)

/-- The top of the delayed heap moves to the ready heap and its index entry follows it. -/
theorem promote (h : q.Consistent) {e : QueueEntry} {rest : List QueueEntry}
    (hq : q.delayed = e :: rest) (htomb : e.seq ∉ q.tombstones) :
    ({ q with delayed := rest }.promoteEntry e).Consistent := by
  have he : e ∈ q.liveIn true := mem_liveIn.mpr ⟨by simp [hq], htomb⟩
  have hlook := h.lookup_of_live he
  have hnd := List.Nodup.of_map _ h.seq_nodup
  rw [hq, List.nodup_append'] at hnd
  have hindex : ({ q with delayed := rest }.promoteEntry e).index =
      q.index.insert e.jobId ⟨e.seq, false⟩ := by
    simp [promoteEntry, hlook]
  have hdelayed : q.liveIn true = e :: ({ q with delayed := rest }.promoteEntry e).liveIn true := by
    rw [liveIn, heap_true, hq, List.filter_cons_of_pos (by simpa using htomb)]
    rfl
  have hready : ∀ x, x ∈ ({ q with delayed := rest }.promoteEntry e).liveIn false ↔
      x = e ∨ x ∈ q.liveIn false := by
    intro x
    rw [mem_liveIn, mem_liveIn, heap_false, heap_false]
    change x ∈ LibHeap.push readyOrder q.ready e ∧ x.seq ∉ q.tombstones ↔ _
    rw [LibHeap.mem_push]
    constructor
    · rintro ⟨rfl | hx, hs⟩
      · exact Or.inl rfl
      · exact Or.inr ⟨hx, hs⟩
    · rintro (rfl | ⟨hx, hs⟩)
      · exact ⟨Or.inl rfl, htomb⟩
      · exact ⟨Or.inr hx, hs⟩
  have hperm : (LibHeap.push readyOrder q.ready e ++ rest).Perm (q.ready ++ q.delayed) := by
    rw [hq]
    exact ((LibHeap.push_perm _ _).append_right _).trans List.perm_middle.symm
  refine ⟨?_, ?_, h.tombstone_lt, ?_, ?_, ?_, ?_, ?_⟩
  · exact (hperm.map _).nodup_iff.mpr h.seq_nodup
  · exact fun x hx => h.seq_lt x (hperm.mem_iff.mp hx)
  · intro jobId loc
    rw [hindex]
    by_cases hj : jobId = e.jobId
    · subst hj
      rw [AList.lookup_insert]
      constructor
      · intro heq
        cases heq
        exact ⟨e, (hready e).mpr (Or.inl rfl), rfl, rfl⟩
      · rintro ⟨x, hx, hid, hseq⟩
        rcases loc with ⟨s, d⟩
        cases d with
        | false =>
            have heq : x = e := by
              rcases (hready x).mp hx with rfl | hx
              · rfl
              · exact h.live_unique hx he hid
            rw [← heq]
            exact congrArg (fun s => some (Loc.mk s false)) hseq
        | true =>
            have hx' : x ∈ q.liveIn true := by
              rw [hdelayed]
              exact List.mem_cons_of_mem _ hx
            have heq := h.live_unique hx' he hid
            subst heq
            exact absurd (mem_liveIn.mp hx).1 (List.nodup_cons.mp hnd.2.1).1
    · rw [AList.lookup_insert_ne hj, h.index_iff]
      have hsame : ∀ x, x.jobId = jobId →
          (x ∈ q.liveIn loc.delayed ↔ x ∈ ({ q with delayed := rest }.promoteEntry e).liveIn loc.delayed) := by
        intro x hid
        have hne : x ≠ e := fun heq => hj (hid.symm.trans (congrArg QueueEntry.jobId heq))
        cases loc.delayed with
        | false => simp [hready, hne]
        | true => rw [hdelayed, List.mem_cons, or_iff_right hne]
      constructor
      · rintro ⟨x, hx, hid, hseq⟩
        exact ⟨x, (hsame x hid).mp hx, hid, hseq⟩
      · rintro ⟨x, hx, hid, hseq⟩
        exact ⟨x, (hsame x hid).mpr hx, hid, hseq⟩
  · have hcount := h.liveReady_eq
    change q.liveReady + 1 = ((LibHeap.push readyOrder q.ready e).filter
      fun x => decide (x.seq ∉ q.tombstones)).length
    rw [liveIn_cons_push htomb, hcount]
    rfl
  · have hcount := h.liveDelayed_eq
    rw [hdelayed, List.length_cons] at hcount
    change q.liveDelayed - 1 = _
    omega
  · exact h.ready_ordered.push readyOrder_comparator e
  · have := h.delayed_ordered
    rw [hq] at this
    exact this.sublist (List.sublist_cons_self _ _)

/-- The top of the ready heap leaves the queue, and its job leaves the index. -/
theorem take (h : q.Consistent) {e : QueueEntry} {rest : List QueueEntry}
    (hq : q.ready = e :: rest) (htomb : e.seq ∉ q.tombstones) :
    ({ q with ready := rest }.takeEntry e).Consistent := by
  have he : e ∈ q.liveIn false := mem_liveIn.mpr ⟨by simp [hq], htomb⟩
  have hlook := h.lookup_of_live he
  have hnd := List.Nodup.of_map _ h.seq_nodup
  rw [hq, List.nodup_append'] at hnd
  have hindex : ({ q with ready := rest }.takeEntry e).index = q.index.erase e.jobId := by
    simp [takeEntry, hlook]
  have hready : q.liveIn false = e :: ({ q with ready := rest }.takeEntry e).liveIn false := by
    rw [liveIn, heap_false, hq, List.filter_cons_of_pos (by simpa using htomb)]
    rfl
  have hdelayed : ({ q with ready := rest }.takeEntry e).liveIn true = q.liveIn true := rfl
  have hsub : (rest ++ q.delayed).Sublist (q.ready ++ q.delayed) := by
    rw [hq]
    exact (List.sublist_cons_self _ _).append_right _
  have hsame : ∀ d x, x ≠ e → (x ∈ q.liveIn d ↔ x ∈ ({ q with ready := rest }.takeEntry e).liveIn d) := by
    intro d x hne
    cases d with
    | true => rw [hdelayed]
    | false => rw [hready, List.mem_cons, or_iff_right hne]
  refine ⟨h.seq_nodup.sublist (hsub.map _), fun x hx => h.seq_lt x (hsub.subset hx), h.tombstone_lt,
    ?_, ?_, ?_, ?_, h.delayed_ordered⟩
  · intro jobId loc
    rw [hindex]
    by_cases hj : jobId = e.jobId
    · subst hj
      rw [AList.lookup_erase]
      constructor
      · intro hcontra
        cases hcontra
      · rintro ⟨x, hx, hid, -⟩
        by_cases hne : x = e
        · subst hne
          cases hd : loc.delayed with
          | false =>
              rw [hd] at hx
              exact absurd (mem_liveIn.mp hx).1 (List.nodup_cons.mp hnd.1).1
          | true =>
              rw [hd, hdelayed] at hx
              exact absurd (mem_liveIn.mp hx).1 (hnd.2.2 List.mem_cons_self)
        · exact absurd (h.live_unique ((hsame _ x hne).mpr hx) he hid) hne
    · rw [AList.lookup_erase_ne hj, h.index_iff]
      have hne : ∀ x : QueueEntry, x.jobId = jobId → x ≠ e :=
        fun x hid heq => hj (hid.symm.trans (congrArg QueueEntry.jobId heq))
      constructor
      · rintro ⟨x, hx, hid, hseq⟩
        exact ⟨x, (hsame _ x (hne x hid)).mp hx, hid, hseq⟩
      · rintro ⟨x, hx, hid, hseq⟩
        exact ⟨x, (hsame _ x (hne x hid)).mpr hx, hid, hseq⟩
  · have hcount := h.liveReady_eq
    rw [hready, List.length_cons] at hcount
    change q.liveReady - 1 = _
    omega
  · exact h.liveDelayed_eq
  · have := h.ready_ordered
    rw [hq] at this
    exact this.sublist (List.sublist_cons_self _ _)

end Consistent

/-- The entries the queue still owes its callers. -/
def Live (q : PriorityJobQueue) (e : QueueEntry) : Prop := e ∈ q.liveIn false ∨ e ∈ q.liveIn true

theorem live_iff {q : PriorityJobQueue} {e : QueueEntry} :
    q.Live e ↔ e ∈ q.ready ++ q.delayed ∧ e.seq ∉ q.tombstones := by
  rw [Live, mem_liveIn, mem_liveIn, heap_false, heap_true, List.mem_append]
  tauto

theorem Consistent.index_isSome_iff {q : PriorityJobQueue} (h : q.Consistent) (jobId : JobId) :
    jobId ∈ q.index ↔ ∃ e, q.Live e ∧ e.jobId = jobId := by
  rw [← AList.lookup_isSome, Option.isSome_iff_exists]
  constructor
  · rintro ⟨⟨s, d⟩, hloc⟩
    obtain ⟨e, he, hid, -⟩ := (h.index_iff _ _).mp hloc
    refine ⟨e, ?_, hid⟩
    cases d
    · exact Or.inl he
    · exact Or.inr he
  · rintro ⟨e, he | he, rfl⟩
    · exact ⟨_, h.lookup_of_live he⟩
    · exact ⟨_, h.lookup_of_live he⟩

/-- Two live entries of one job are the same entry. -/
theorem Consistent.eq_of_live {q : PriorityJobQueue} (h : q.Consistent) {e e' : QueueEntry}
    (he : q.Live e) (he' : q.Live e') (hid : e.jobId = e'.jobId) : e = e' := by
  rcases he with he | he <;> rcases he' with he' | he' <;> exact h.live_unique he he' hid

/-- What a pass over the delayed heap leaves: the same live entries, those that are still delayed
mature later than `now`, and the ready heap gained matured entries only. -/
structure Promoted (q q' : PriorityJobQueue) (now : Int) : Prop where
  consistent : q'.Consistent
  live : ∀ e, q'.Live e ↔ q.Live e
  delayed_gt : ∀ e ∈ q'.delayed, now < e.readyAtMs
  ready_le : ∀ e ∈ q'.ready, e ∈ q.ready ∨ e.readyAtMs ≤ now
  nextSeq : q'.nextSeq = q.nextSeq
  capacity : q'.capacity = q.capacity
  closed : q'.closed = q.closed

theorem delayedOrder_le {a b : QueueEntry} (h : delayedOrder a b = false) :
    a.readyAtMs ≤ b.readyAtMs := by
  unfold delayedOrder at h
  split_ifs at h with h1 h2
  · simpa using h
  · exact le_of_eq (not_not.mp h1)
  · exact le_of_eq (not_not.mp h1)

theorem promoteLoop_promoted (now : Int) (l : List QueueEntry) :
    ∀ q : PriorityJobQueue, q.Consistent → q.delayed = l → Promoted q (promoteLoop now l q) now := by
  induction l with
  | nil =>
      intro q h hq
      have heq : promoteLoop now [] q = q := by
        rw [promoteLoop, ← hq]
      rw [heq]
      exact ⟨h, fun _ => Iff.rfl, by simp [hq], fun e he => Or.inl he, rfl, rfl, rfl⟩
  | cons e rest ih =>
      intro q h hq
      rw [promoteLoop]
      by_cases hready : e.readyAtMs ≤ now
      · rw [if_pos hready]
        by_cases htomb : e.seq ∈ q.tombstones
        · rw [if_pos htomb]
          have hc := h.discard_delayed hq htomb
          have hp := ih _ hc rfl
          have hlive : ∀ x, Live { q with delayed := rest, tombstones := q.tombstones.erase e.seq } x ↔
              q.Live x := by
            intro x
            rw [live_iff, live_iff, hq]
            have hmem : e ∈ q.ready ++ q.delayed := by simp [hq]
            constructor
            · rintro ⟨hx, hs⟩
              have hx' : x ∈ q.ready ++ q.delayed := by
                rw [hq]
                simp only [List.mem_append, List.mem_cons] at hx ⊢
                tauto
              have hne : x ≠ e := by
                rintro rfl
                have hnd := List.Nodup.of_map _ h.seq_nodup
                rw [hq] at hnd
                exact (List.nodup_middle.mp hnd).notMem hx
              have hseq : x.seq ≠ e.seq := fun heq => hne (h.eq_of_seq hx' hmem heq)
              exact ⟨hq ▸ hx', fun ht => hs (Finset.mem_erase.mpr ⟨hseq, ht⟩)⟩
            · rintro ⟨hx, hs⟩
              refine ⟨?_, fun ht => hs (Finset.mem_of_mem_erase ht)⟩
              simp only [List.mem_append, List.mem_cons] at hx ⊢
              rcases hx with hx | rfl | hx
              · exact Or.inl hx
              · exact absurd htomb hs
              · exact Or.inr hx
          exact ⟨hp.consistent, fun x => (hp.live x).trans (hlive x), hp.delayed_gt, hp.ready_le,
            hp.nextSeq, hp.capacity, hp.closed⟩
        · rw [if_neg htomb]
          have hc := h.promote hq htomb
          have hp := ih _ hc rfl
          refine ⟨hp.consistent, fun x => (hp.live x).trans ?_, hp.delayed_gt, ?_, hp.nextSeq,
            hp.capacity, hp.closed⟩
          · rw [live_iff, live_iff, hq]
            change x ∈ LibHeap.push readyOrder q.ready e ++ rest ∧ x.seq ∉ q.tombstones ↔ _
            simp only [List.mem_append, LibHeap.mem_push, List.mem_cons]
            tauto
          · intro x hx
            rcases hp.ready_le x hx with hx | hx
            · rcases LibHeap.mem_push.mp hx with rfl | hx
              · exact Or.inr hready
              · exact Or.inl hx
            · exact Or.inr hx
      · rw [if_neg hready]
        have heq : { q with delayed := e :: rest } = q := by rw [← hq]
        rw [heq]
        refine ⟨h, fun _ => Iff.rfl, ?_, fun x hx => Or.inl hx, rfl, rfl, rfl⟩
        intro x hx
        have hord := h.delayed_ordered
        rw [hq] at hx hord
        rcases List.mem_cons.mp hx with rfl | hx
        · omega
        · have := delayedOrder_le (List.rel_of_pairwise_cons hord hx)
          omega

theorem promoteMaturedLocked_promoted {q : PriorityJobQueue} (h : q.Consistent) (now : Int) :
    Promoted q (q.promoteMaturedLocked now) now :=
  promoteLoop_promoted now q.delayed q h rfl

/-- What `take_ready_locked` does: nothing ready is live and it returns nothing, or it returns a live
ready entry that no live ready entry beats, and that entry is live no more. -/
structure Taken (q : PriorityJobQueue) (r : Option QueueEntry) (q' : PriorityJobQueue) : Prop where
  consistent : q'.Consistent
  none_iff : r = none → ∀ e, e ∉ q.liveIn false
  some_live : ∀ e, r = some e → e ∈ q.liveIn false
  some_best : ∀ e, r = some e → ∀ x ∈ q.liveIn false, x ≠ e → readyOrder e x = false
  live : ∀ x, q'.Live x ↔ q.Live x ∧ r ≠ some x
  delayed : q'.delayed = q.delayed
  ready_sub : ∀ x ∈ q'.ready, x ∈ q.ready
  nextSeq : q'.nextSeq = q.nextSeq
  capacity : q'.capacity = q.capacity
  closed : q'.closed = q.closed

theorem takeLoop_taken (l : List QueueEntry) :
    ∀ q : PriorityJobQueue, q.Consistent → q.ready = l →
      Taken q (takeLoop l q).1 (takeLoop l q).2 := by
  induction l with
  | nil =>
      intro q h hq
      have heq : takeLoop [] q = (none, q) := by
        rw [takeLoop, ← hq]
      rw [heq]
      refine ⟨h, ?_, by simp, by simp, by simp, rfl, fun _ hx => hx, rfl, rfl, rfl⟩
      intro _ e he
      rw [mem_liveIn, heap_false, hq] at he
      simp at he
  | cons e rest ih =>
      intro q h hq
      have hnd := List.Nodup.of_map _ h.seq_nodup
      rw [hq, List.nodup_append'] at hnd
      have hmem : e ∈ q.ready ++ q.delayed := by simp [hq]
      by_cases htomb : e.seq ∈ q.tombstones
      · rw [takeLoop, if_pos htomb]
        have hc := h.discard_ready hq htomb
        have ht := ih _ hc rfl
        have hlive : ∀ d x, x ∈ liveIn { q with ready := rest, tombstones := q.tombstones.erase e.seq } d ↔
            x ∈ q.liveIn d := by
          intro d x
          rw [mem_liveIn, mem_liveIn]
          have hback : x ∈ q.heap d → x.seq ∉ q.tombstones →
              x ∈ heap { q with ready := rest, tombstones := q.tombstones.erase e.seq } d := by
            intro hx hs
            cases d with
            | true => exact hx
            | false =>
                rw [heap_false, hq] at hx
                rcases List.mem_cons.mp hx with rfl | hx
                · exact absurd htomb hs
                · exact hx
          constructor
          · rintro ⟨hx, hs⟩
            have hx' : x ∈ q.heap d ∧ x ≠ e := by
              cases d with
              | true => exact ⟨hx, fun heq => hnd.2.2 List.mem_cons_self (heq ▸ hx)⟩
              | false =>
                  refine ⟨?_, fun heq => (List.nodup_cons.mp hnd.1).1 (heq ▸ hx)⟩
                  rw [heap_false, hq]
                  exact List.mem_cons_of_mem _ hx
            have hseq : x.seq ≠ e.seq := fun heq =>
              hx'.2 (h.eq_of_seq (Consistent.mem_append_of_heap hx'.1) hmem heq)
            exact ⟨hx'.1, fun ht => hs (Finset.mem_erase.mpr ⟨hseq, ht⟩)⟩
          · rintro ⟨hx, hs⟩
            exact ⟨hback hx hs, fun ht => hs (Finset.mem_of_mem_erase ht)⟩
        refine ⟨ht.consistent, ?_, ?_, ?_, ?_, ht.delayed, ?_, ht.nextSeq, ht.capacity, ht.closed⟩
        · intro hr x hx
          exact ht.none_iff hr x ((hlive false x).mpr hx)
        · intro x hr
          exact (hlive false x).mp (ht.some_live x hr)
        · intro x hr y hy hne
          exact ht.some_best x hr y ((hlive false y).mpr hy) hne
        · intro x
          rw [ht.live, Live, Live, hlive, hlive]
        · intro x hx
          rw [hq]
          exact List.mem_cons_of_mem _ (ht.ready_sub x hx)
      · rw [takeLoop, if_neg htomb]
        have he : e ∈ q.liveIn false := mem_liveIn.mpr ⟨by simp [hq], htomb⟩
        refine ⟨h.take hq htomb, by simp, ?_, ?_, ?_, rfl, ?_, rfl, rfl, rfl⟩
        · rintro x ⟨⟩
          exact he
        · rintro x ⟨⟩ y hy hne
          have hord := h.ready_ordered
          have hy' := (mem_liveIn.mp hy).1
          rw [hq] at hord
          rw [heap_false, hq] at hy'
          rcases List.mem_cons.mp hy' with heq | hy'
          · exact absurd heq hne
          · exact List.rel_of_pairwise_cons hord hy'
        · intro x
          rw [live_iff, live_iff, hq]
          change x ∈ rest ++ q.delayed ∧ x.seq ∉ q.tombstones ↔ _
          simp only [List.cons_append, List.mem_cons, ne_eq, Option.some.injEq]
          constructor
          · rintro ⟨hx, hs⟩
            refine ⟨⟨Or.inr hx, hs⟩, ?_⟩
            rintro rfl
            rcases List.mem_append.mp hx with hx | hx
            · exact (List.nodup_cons.mp hnd.1).1 hx
            · exact hnd.2.2 List.mem_cons_self hx
          · rintro ⟨⟨rfl | hx, hs⟩, hne⟩
            · exact absurd rfl hne
            · exact ⟨hx, hs⟩
        · intro x hx
          rw [hq]
          exact List.mem_cons_of_mem _ hx

theorem takeReadyLocked_taken {q : PriorityJobQueue} (h : q.Consistent) :
    Taken q q.takeReadyLocked.1 q.takeReadyLocked.2 :=
  takeLoop_taken q.ready q h rfl

end PriorityJobQueue

end DistributedJobEngine
