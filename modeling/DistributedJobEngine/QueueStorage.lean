import DistributedJobEngine.QueueLive

/-! What the heaps hold in memory. Taking an entry away only marks it; the entry stays in its heap until it
comes to the top, so that the capacity bounds the live entries and not the stored ones. -/

namespace DistributedJobEngine

namespace PriorityJobQueue

variable {q q' : PriorityJobQueue}

/-- The number of entries in the two heaps, live or not. -/
def stored (q : PriorityJobQueue) : ℕ := q.ready.length + q.delayed.length

/-- The entries that are in a heap and no longer live. -/
def buried (q : PriorityJobQueue) : List QueueEntry :=
  (q.ready ++ q.delayed).filter fun e => decide (e.seq ∈ q.tombstones)

/-- Every stored entry is live or buried. -/
theorem Consistent.stored_eq (h : q.Consistent) : q.stored = q.liveCountLocked + q.buried.length := by
  have hsplit : ∀ l : List QueueEntry, l.length = (l.filter fun e => decide (e.seq ∉ q.tombstones)).length +
      (l.filter fun e => decide (e.seq ∈ q.tombstones)).length := by
    intro l
    rw [List.length_eq_length_filter_add fun e => decide (e.seq ∉ q.tombstones)]
    simp
  have hready := hsplit q.ready
  have hdelayed := hsplit q.delayed
  have hlr : q.liveReady = (q.ready.filter fun e => decide (e.seq ∉ q.tombstones)).length := h.liveReady_eq
  have hld : q.liveDelayed = (q.delayed.filter fun e => decide (e.seq ∉ q.tombstones)).length := h.liveDelayed_eq
  rw [stored, liveCountLocked, buried, List.filter_append, List.length_append]
  omega

/-- `q'` stores no more than `q`. -/
structure Shrunk (q q' : PriorityJobQueue) : Prop where
  consistent : q'.Consistent
  capacity : q'.capacity = q.capacity
  stored : q'.stored ≤ q.stored

theorem Shrunk.refl (h : q.Consistent) : Shrunk q q := ⟨h, rfl, le_refl _⟩

theorem Shrunk.trans {q'' : PriorityJobQueue} (h : Shrunk q q') (h' : Shrunk q' q'') : Shrunk q q'' :=
  ⟨h'.consistent, h'.capacity.trans h.capacity, h'.stored.trans h.stored⟩

theorem length_heapPush {less : QueueEntry → QueueEntry → Bool} (heap : List QueueEntry) (e : QueueEntry) :
    (LibHeap.push less heap e).length = heap.length + 1 := (LibHeap.push_perm heap e).length_eq

theorem stored_promoteLoop (now : Int) (l : List QueueEntry) :
    ∀ q : PriorityJobQueue, (promoteLoop now l q).stored ≤ q.ready.length + l.length := by
  induction l with
  | nil => exact fun q => le_refl _
  | cons e rest ih =>
      intro q
      rw [promoteLoop]
      split_ifs
      · exact (ih _).trans (Nat.add_le_add_left (Nat.le_succ _) _)
      · refine (ih _).trans (le_of_eq ?_)
        simp only [promoteEntry, length_heapPush, List.length_cons]
        omega
      · exact le_refl _

theorem stored_takeLoop (l : List QueueEntry) :
    ∀ q : PriorityJobQueue, (takeLoop l q).2.stored ≤ l.length + q.delayed.length := by
  induction l with
  | nil => exact fun q => le_refl _
  | cons e rest ih =>
      intro q
      rw [takeLoop]
      split_ifs
      · exact (ih _).trans (Nat.add_le_add_right (Nat.le_succ _) _)
      · exact Nat.add_le_add_right (Nat.le_succ _) _

theorem Consistent.promote_shrunk (h : q.Consistent) (now : Int) : Shrunk q (q.promoteMaturedLocked now) :=
  have hp := promoteMaturedLocked_promoted h now
  ⟨hp.consistent, hp.capacity, stored_promoteLoop now q.delayed q⟩

theorem Consistent.take_shrunk (h : q.Consistent) : Shrunk q q.takeReadyLocked.2 :=
  have ht := takeReadyLocked_taken h
  ⟨ht.consistent, ht.capacity, stored_takeLoop q.ready q⟩

theorem Consistent.poll_shrunk (h : q.Consistent) (now : Int) : Shrunk q (q.poll now).2 :=
  (h.promote_shrunk now).trans (h.promote_shrunk now).consistent.take_shrunk

theorem Consistent.popLoop_shrunk (deadline : Option Int) (readings : List Int) :
    ∀ q : PriorityJobQueue, q.Consistent → Shrunk q (popLoop deadline readings q).2 := by
  induction readings with
  | nil => exact fun q h => .refl h
  | cons now later ih =>
      intro q h
      have hpoll := h.poll_shrunk now
      rw [popLoop]
      split
      · next e q₁ hq₁ =>
          rw [hq₁] at hpoll
          exact hpoll
      · next q₁ hq₁ =>
          rw [hq₁] at hpoll
          split_ifs
          · exact hpoll
          · exact hpoll.trans (ih q₁ hpoll.consistent)

theorem Consistent.drainLoop_shrunk (n : ℕ) : ∀ q : PriorityJobQueue, q.Consistent → Shrunk q (drainLoop n q).2 := by
  induction n with
  | zero => exact fun q h => .refl h
  | succ n ih =>
      intro q h
      have htake := h.take_shrunk
      rw [drainLoop]
      split
      · next q₁ hq₁ =>
          rw [hq₁] at htake
          exact htake
      · next e q₁ hq₁ =>
          rw [hq₁] at htake
          exact htake.trans (ih q₁ htake.consistent)

theorem Consistent.popBatch_shrunk (h : q.Consistent) (maxItems : ℕ) (waitMs start : Int) (readings : List Int)
    (now : Int) : Shrunk q (q.popBatch maxItems waitMs start readings now).2 := by
  have hpop : Shrunk q (q.popFor waitMs start readings).2 := popLoop_shrunk _ _ q h
  rw [popBatch]
  split_ifs
  · exact .refl h
  · split
    · next q₁ hq₁ =>
        rw [hq₁] at hpop
        exact hpop
    · next first q₁ hq₁ =>
        rw [hq₁] at hpop
        have hpromote := hpop.consistent.promote_shrunk now
        exact (hpop.trans hpromote).trans (drainLoop_shrunk _ _ hpromote.consistent)

theorem Consistent.remove_shrunk (h : q.Consistent) (jobId : JobId) : Shrunk q (q.remove jobId).2 := by
  refine ⟨h.remove jobId, (h.remove_live jobId).1.capacity, le_of_eq ?_⟩
  rw [PriorityJobQueue.remove]
  split <;> rfl

theorem Consistent.close (h : q.Consistent) : q.close.Consistent :=
  ⟨h.seq_nodup, h.seq_lt, h.tombstone_lt, h.index_iff, h.liveReady_eq, h.liveDelayed_eq, h.ready_ordered,
    h.delayed_ordered⟩

/-- A push stores one entry more, or is refused. -/
theorem stored_push (q : PriorityJobQueue) (now : Int) (jobId : JobId) (priority ready : Int) :
    (q.push now jobId priority ready).2 = q ∨
      q.liveCountLocked < q.capacity ∧ (q.push now jobId priority ready).2.stored = q.stored + 1 := by
  rw [push]
  split_ifs with hclosed hfull
  · exact .inl rfl
  · exact .inl rfl
  · refine .inr ⟨Nat.lt_of_not_le hfull, ?_⟩
    have hperm := (Consistent.file_perm (q := q.evict jobId) now jobId priority ready).length_eq
    have hevict : (q.evict jobId).ready = q.ready ∧ (q.evict jobId).delayed = q.delayed := by
      rw [evict]
      split <;> exact ⟨rfl, rfl⟩
    rw [List.length_append, List.length_cons, List.length_append, hevict.1, hevict.2] at hperm
    exact hperm

/-- A push finds no buried entry in the heaps. -/
def Swept (q : PriorityJobQueue) : QueueOp → Prop
  | .push _ _ _ _ => q.buried = []
  | _ => True

/-- Every push of the run does. -/
def SweptRun (q : PriorityJobQueue) : List QueueOp → Prop
  | [] => True
  | op :: ops => q.Swept op ∧ SweptRun (q.call op).2 ops

theorem Consistent.call_stored (h : q.Consistent) {op : QueueOp} (hswept : q.Swept op)
    (hstored : q.stored ≤ q.capacity) :
    (q.call op).2.Consistent ∧ (q.call op).2.capacity = q.capacity ∧ (q.call op).2.stored ≤ q.capacity := by
  have hshrunk : ∀ {q'}, Shrunk q q' → q'.Consistent ∧ q'.capacity = q.capacity ∧ q'.stored ≤ q.capacity :=
    fun hs => ⟨hs.consistent, hs.capacity, hs.stored.trans hstored⟩
  cases op with
  | push now jobId priority ready =>
      refine ⟨h.push now jobId priority ready, (h.push_live now jobId priority ready).1.capacity, ?_⟩
      rcases stored_push q now jobId priority ready with heq | ⟨hlive, heq⟩
      · exact (congrArg stored heq).le.trans hstored
      · have hcount := h.stored_eq
        rw [show q.buried = [] from hswept, List.length_nil] at hcount
        refine heq.le.trans ?_
        omega
  | remove jobId => exact hshrunk (h.remove_shrunk jobId)
  | poll now => exact hshrunk (h.poll_shrunk now)
  | pop readings => exact hshrunk (popLoop_shrunk none readings q h)
  | popFor timeoutMs start readings => exact hshrunk (popLoop_shrunk _ readings q h)
  | popBatch maxItems waitMs start readings now =>
      exact hshrunk (h.popBatch_shrunk maxItems waitMs start readings now)
  | close => exact hshrunk ⟨h.close, rfl, le_refl _⟩
  | size => exact hshrunk (.refl h)

theorem stored_calls (ops : List QueueOp) :
    ∀ q : PriorityJobQueue, q.Consistent → q.stored ≤ q.capacity → q.SweptRun ops →
      (q.calls ops).2.stored ≤ q.capacity := by
  induction ops with
  | nil => exact fun q _ hstored _ => hstored
  | cons op ops ih =>
      intro q h hstored hswept
      obtain ⟨hc, hcapacity, hle⟩ := h.call_stored hswept.1 hstored
      rw [calls, ← hcapacity]
      exact ih _ hc (hcapacity ▸ hle) hswept.2

theorem SweptRun.take {ops : List QueueOp} (n : ℕ) :
    ∀ {q : PriorityJobQueue}, q.SweptRun ops → q.SweptRun (ops.take n) := by
  induction ops generalizing n with
  | nil => exact fun h => by simpa using h
  | cons op ops ih =>
      intro q h
      cases n with
      | zero => trivial
      | succ n => exact ⟨h.1, ih n h.2⟩

/-- **Storage is bounded** at every point of a run whose pushes all come when no buried entry is left in the
heaps. -/
theorem stored_le_capacity (capacity : ℕ) (ops : List QueueOp) (hswept : SweptRun { capacity := capacity } ops)
    (n : ℕ) : (calls { capacity := capacity } (ops.take n)).2.stored ≤ capacity :=
  stored_calls _ _ (consistent_empty capacity) (Nat.zero_le _) (hswept.take n)

/-- A run that removes an entry and pushes again once the entry has left its heap. -/
theorem stored_le_capacity_swept :
    (calls { capacity := 1 } ([.push 0 "a" 0 5, .remove "a", .poll 5, .push 5 "b" 0 0].take 4)).2.stored ≤ 1 :=
  stored_le_capacity 1 [.push 0 "a" 0 5, .remove "a", .poll 5, .push 5 "b" 0 0]
    ⟨rfl, trivial, trivial, rfl, trivial⟩ 4

/-- Removing a delayed job makes room for the next one while its entry stays: three entries in a queue of
capacity one. -/
theorem stored_exceeds_capacity :
    (calls { capacity := 1 }
      [.push 0 "a" 0 100, .remove "a", .push 1 "a" 0 100, .remove "a", .push 2 "a" 0 100]).2.stored = 3 := by
  decide

end PriorityJobQueue

end DistributedJobEngine
