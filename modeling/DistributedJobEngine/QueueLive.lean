import DistributedJobEngine.QueueRefinement

/-! The jobs with a live entry, as the queue's index gives them, under each operation of the queue. -/

namespace DistributedJobEngine

namespace PriorityJobQueue

variable {q q' : PriorityJobQueue} {now : Int} {jobId : JobId}

/-- The jobs that have a live entry. -/
def live (q : PriorityJobQueue) : Finset JobId := q.index.keys.toFinset

theorem mem_live : jobId ∈ q.live ↔ jobId ∈ q.index := by
  rw [live, List.mem_toFinset, AList.mem_keys]

theorem Consistent.mem_live_iff (h : q.Consistent) : jobId ∈ q.live ↔ ∃ e, q.Live e ∧ e.jobId = jobId := by
  rw [mem_live, h.index_isSome_iff]

/-- The live entries of one job. -/
def liveEntries (q : PriorityJobQueue) (jobId : JobId) : List QueueEntry :=
  (q.ready ++ q.delayed).filter fun e => decide (e.seq ∉ q.tombstones ∧ e.jobId = jobId)

theorem mem_liveEntries {e : QueueEntry} : e ∈ q.liveEntries jobId ↔ q.Live e ∧ e.jobId = jobId := by
  rw [liveEntries, List.mem_filter, live_iff, decide_eq_true_eq, and_assoc]

/-- A job has at most one live entry. -/
theorem Consistent.length_liveEntries (h : q.Consistent) (jobId : JobId) :
    (q.liveEntries jobId).length = if jobId ∈ q.live then 1 else 0 := by
  have hnodup : (q.liveEntries jobId).Nodup := (List.Nodup.of_map _ h.seq_nodup).filter _
  split_ifs with hmem
  · obtain ⟨e, he, hid⟩ := h.mem_live_iff.mp hmem
    have hall : ∀ x ∈ q.liveEntries jobId, x = e := by
      intro x hx
      obtain ⟨hx, hxid⟩ := mem_liveEntries.mp hx
      exact h.eq_of_live hx he (hxid.trans hid.symm)
    rw [List.length_eq_one_iff]
    exact ⟨e, List.perm_singleton.mp ((List.perm_ext_iff_of_nodup hnodup (List.nodup_singleton e)).mpr fun x => by
      rw [List.mem_singleton]
      exact ⟨hall x, fun hx => hx ▸ mem_liveEntries.mpr ⟨he, hid⟩⟩)⟩
  · rw [List.length_eq_zero_iff, List.eq_nil_iff_forall_not_mem]
    intro x hx
    obtain ⟨hx, hxid⟩ := mem_liveEntries.mp hx
    exact hmem (h.mem_live_iff.mpr ⟨x, hx, hxid⟩)

/-- `live_count_locked` counts the jobs with a live entry. -/
theorem Consistent.card_live (h : q.Consistent) : q.live.card = q.liveCountLocked := by
  have hkeys : q.live = q.toMap.entries.keys := by
    ext j
    rw [mem_live, Finmap.mem_keys, h.mem_toMap]
  rw [hkeys, h.card_toMap]
  rfl

/-- `q'` is a consistent queue with the settings of `q`. -/
structure Kept (q q' : PriorityJobQueue) : Prop where
  consistent : q'.Consistent
  capacity : q'.capacity = q.capacity
  closed : q'.closed = q.closed

theorem Promoted.live_eq (h : Promoted q q' now) (hq : q.Consistent) : q'.live = q.live := by
  ext j
  rw [h.consistent.mem_live_iff, hq.mem_live_iff]
  simp only [h.live]

theorem Taken.live_eq {r : Option QueueEntry} (h : Taken q r q') (hq : q.Consistent) :
    q'.live = q.live \ (r.map (·.jobId)).toFinset ∧ ∀ e ∈ r, e.jobId ∈ q.live := by
  have hlive : ∀ e, r = some e → q.Live e := fun e he => .inl (h.some_live e he)
  refine ⟨?_, fun e he => hq.mem_live_iff.mpr ⟨e, hlive e he, rfl⟩⟩
  ext j
  rw [Finset.mem_sdiff, h.consistent.mem_live_iff, hq.mem_live_iff, Option.mem_toFinset, Option.mem_def,
    Option.map_eq_some_iff]
  constructor
  · rintro ⟨x, hx, rfl⟩
    obtain ⟨hx, hne⟩ := (h.live x).mp hx
    refine ⟨⟨x, hx, rfl⟩, ?_⟩
    rintro ⟨e, he, hid⟩
    rw [hq.eq_of_live (hlive e he) hx hid] at he
    exact hne he
  · rintro ⟨⟨x, hx, rfl⟩, hne⟩
    exact ⟨x, (h.live x).mpr ⟨hx, fun he => hne ⟨x, he, rfl⟩⟩, rfl⟩

/-- A poll takes the entry it returns, if any, and nothing else. -/
theorem Consistent.poll_live (h : q.Consistent) (now : Int) :
    q.Kept (q.poll now).2 ∧ (q.poll now).2.live = q.live \ ((q.poll now).1.map (·.jobId)).toFinset ∧
      ∀ e ∈ (q.poll now).1, e.jobId ∈ q.live := by
  have hp := promoteMaturedLocked_promoted h now
  have ht := takeReadyLocked_taken hp.consistent
  obtain ⟨hlive, hmem⟩ := ht.live_eq hp.consistent
  rw [hp.live_eq h] at hlive hmem
  exact ⟨⟨ht.consistent, ht.capacity.trans hp.capacity, ht.closed.trans hp.closed⟩, hlive, hmem⟩

theorem Consistent.drainLoop_live (n : ℕ) : ∀ q : PriorityJobQueue, q.Consistent →
    q.Kept (drainLoop n q).2 ∧ (drainLoop n q).2.live = q.live \ ((drainLoop n q).1.map (·.jobId)).toFinset ∧
      ((drainLoop n q).1.map (·.jobId)).Nodup ∧ ∀ j ∈ (drainLoop n q).1.map (·.jobId), j ∈ q.live := by
  induction n with
  | zero => exact fun q h => ⟨⟨h, rfl, rfl⟩, by simp [drainLoop], by simp [drainLoop], by simp [drainLoop]⟩
  | succ n ih =>
      intro q h
      have ht := takeReadyLocked_taken h
      obtain ⟨hlive, hmem⟩ := ht.live_eq h
      unfold drainLoop
      rcases hr : q.takeReadyLocked with ⟨r, q₁⟩
      rw [hr] at ht hlive hmem
      cases r with
      | none => exact ⟨⟨ht.consistent, ht.capacity, ht.closed⟩, by simpa using hlive, by simp, by simp⟩
      | some e =>
          obtain ⟨hkept, hlive', hnodup, hmem'⟩ := ih q₁ ht.consistent
          have hsub : ∀ j, j ∈ q₁.live ↔ j ∈ q.live ∧ j ≠ e.jobId := by
            intro j
            rw [hlive]
            simp
          refine ⟨⟨hkept.consistent, hkept.capacity.trans ht.capacity, hkept.closed.trans ht.closed⟩, ?_, ?_, ?_⟩
          · ext j
            simp only [hlive', Finset.mem_sdiff, hsub, List.map_cons, List.toFinset_cons, Finset.mem_insert]
            tauto
          · rw [List.map_cons, List.nodup_cons]
            refine ⟨fun hin => ?_, hnodup⟩
            exact ((hsub _).mp (hmem' _ hin)).2 rfl
          · intro j hj
            rw [List.map_cons, List.mem_cons] at hj
            rcases hj with rfl | hj
            · exact hmem e rfl
            · exact ((hsub j).mp (hmem' j hj)).1

theorem Consistent.remove_live (h : q.Consistent) (jobId : JobId) :
    q.Kept (q.remove jobId).2 ∧ (q.remove jobId).2.live = q.live.erase jobId := by
  have hc := h.remove jobId
  unfold PriorityJobQueue.remove at hc ⊢
  cases hl : q.index.lookup jobId with
  | none =>
      have hnot : jobId ∉ q.live := by
        rw [mem_live]
        exact AList.lookup_eq_none.mp hl
      exact ⟨⟨h, rfl, rfl⟩, (Finset.erase_eq_of_notMem hnot).symm⟩
  | some loc =>
      rw [hl] at hc
      refine ⟨⟨hc, rfl, rfl⟩, ?_⟩
      ext j
      rw [Finset.mem_erase, mem_live, mem_live]
      exact AList.mem_erase

/-- A push that is not refused adds the job's entry. -/
theorem Consistent.push_live (h : q.Consistent) (now : Int) (jobId : JobId) (priority ready : Int) :
    q.Kept (q.push now jobId priority ready).2 ∧
      (((q.push now jobId priority ready).1 = .ok ∧ (q.push now jobId priority ready).2.live = insert jobId q.live) ∨
       ((q.push now jobId priority ready).1 ≠ .ok ∧ (q.push now jobId priority ready).2 = q)) := by
  have hc := h.push now jobId priority ready
  unfold PriorityJobQueue.push at hc ⊢
  split_ifs with hclosed hfull
  · exact ⟨⟨h, rfl, rfl⟩, .inr ⟨by simp, rfl⟩⟩
  · exact ⟨⟨h, rfl, rfl⟩, .inr ⟨by simp, rfl⟩⟩
  · rw [if_neg hclosed, if_neg hfull] at hc
    have hindex : ((q.evict jobId).file now jobId priority ready).index =
        (q.evict jobId).index.insert jobId ⟨(q.evict jobId).nextSeq, decide (now < ready)⟩ := by
      unfold PriorityJobQueue.file
      by_cases hnow : now < ready <;> simp [hnow, freshEntry]
    refine ⟨⟨hc, ?_, ?_⟩, .inl ⟨rfl, ?_⟩⟩
    · unfold PriorityJobQueue.file PriorityJobQueue.evict
      split <;> split_ifs <;> rfl
    · unfold PriorityJobQueue.file PriorityJobQueue.evict
      split <;> split_ifs <;> rfl
    · ext j
      rw [mem_live, hindex, AList.mem_insert, Finset.mem_insert, mem_live]
      unfold PriorityJobQueue.evict
      cases hl : q.index.lookup jobId with
      | none => rfl
      | some loc =>
          have hb : j ∈ (q.bury jobId loc).index ↔ j ≠ jobId ∧ j ∈ q.index := AList.mem_erase
          rw [hb]
          tauto

end PriorityJobQueue

end DistributedJobEngine
