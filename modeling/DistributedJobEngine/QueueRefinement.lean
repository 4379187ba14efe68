import DistributedJobEngine.QueueInvariant
import DistributedJobEngine.QueueMap
import Mathlib.Tactic

/-! A run of the heap queue with non-decreasing clock readings answers every call as the abstract map
does, and no pushed entry leaves the map twice. -/

namespace DistributedJobEngine

def QueueEntry.item (e : QueueEntry) : JobId × MapEntry :=
  (e.jobId, ⟨e.priority, e.seq, e.readyAtMs⟩)

namespace PriorityJobQueue

/-- The call as the implementation runs it. -/
def call (q : PriorityJobQueue) : QueueOp → QueueAnswer × PriorityJobQueue
  | .push now jobId priority readyAtMs =>
      let r := q.push now jobId priority readyAtMs
      (.pushed r.1, r.2)
  | .remove jobId => (.removed (q.remove jobId).1, (q.remove jobId).2)
  | .poll now => (.popped ((q.poll now).1.toList.map (·.item)), (q.poll now).2)
  | .pop readings => (.popped ((q.pop readings).1.toList.map (·.item)), (q.pop readings).2)
  | .popFor timeoutMs start readings =>
      let r := q.popFor timeoutMs start readings
      (.popped (r.1.toList.map (·.item)), r.2)
  | .popBatch maxItems waitMs start readings now =>
      let r := q.popBatch maxItems waitMs start readings now
      (.popped (r.1.map (·.item)), r.2)
  | .close => (.closed, q.close)
  | .size => (.size q.size, q)

/-- A run of calls from `q`: the calls with their answers, and the queue after them. -/
def calls (q : PriorityJobQueue) : List QueueOp → List (QueueOp × QueueAnswer) × PriorityJobQueue
  | [] => ([], q)
  | op :: ops =>
      let r := calls (q.call op).2 ops
      ((op, (q.call op).1) :: r.1, r.2)

/-- The abstract map of a queue. -/
def toMap (q : PriorityJobQueue) : MapQueue where
  entries := (((q.liveIn false ++ q.liveIn true).map fun e =>
    (⟨e.jobId, e.item.2⟩ : Σ _ : JobId, MapEntry))).toFinmap
  nextSeq := q.nextSeq
  capacity := q.capacity
  closed := q.closed

/-- The live entries of a consistent queue belong to different jobs. -/
theorem Consistent.live_jobId_nodup {q : PriorityJobQueue} (h : q.Consistent) :
    ((q.liveIn false ++ q.liveIn true).map (·.jobId)).Nodup := by
  have hnd : (q.liveIn false ++ q.liveIn true).Nodup := by
    have hall := List.Nodup.of_map _ h.seq_nodup
    exact hall.sublist (List.filter_sublist.append List.filter_sublist)
  apply List.Nodup.map_on _ hnd
  intro x hx y hy hid
  exact h.eq_of_live (List.mem_append.mp hx) (List.mem_append.mp hy) hid

theorem Consistent.lookup_toMap {q : PriorityJobQueue} (h : q.Consistent) (jobId : JobId)
    (a : MapEntry) :
    q.toMap.entries.lookup jobId = some a ↔ ∃ e, q.Live e ∧ e.item = (jobId, a) := by
  have hkeys : List.NodupKeys ((q.liveIn false ++ q.liveIn true).map fun e =>
      (⟨e.jobId, e.item.2⟩ : Σ _ : JobId, MapEntry)) := by
    rw [List.NodupKeys, List.keys, List.map_map]
    exact h.live_jobId_nodup
  rw [toMap, Finmap.dlookup_list_toFinmap, ← Option.mem_def, List.mem_dlookup_iff hkeys,
    List.mem_map]
  constructor
  · rintro ⟨e, he, heq⟩
    refine ⟨e, List.mem_append.mp he, ?_⟩
    simp only [Sigma.mk.injEq, heq_eq_eq] at heq
    exact Prod.ext heq.1 heq.2
  · rintro ⟨e, he, heq⟩
    refine ⟨e, List.mem_append.mpr he, ?_⟩
    rw [heq, show e.jobId = jobId from congrArg Prod.fst heq]

theorem Consistent.lookup_item {q : PriorityJobQueue} (h : q.Consistent) {e : QueueEntry}
    (he : q.Live e) : q.toMap.entries.lookup e.jobId = some e.item.2 :=
  (h.lookup_toMap _ _).mpr ⟨e, he, rfl⟩

theorem Consistent.lookup_seq_lt {q : PriorityJobQueue} (h : q.Consistent) {jobId : JobId} {a : MapEntry}
    (ha : q.toMap.entries.lookup jobId = some a) : a.seq < q.nextSeq := by
  obtain ⟨e, he, heq⟩ := (h.lookup_toMap jobId a).mp ha
  obtain rfl : e.item.2 = a := congrArg Prod.snd heq
  rcases he with he | he <;> exact h.seq_lt e (mem_append_of_heap (mem_liveIn.mp he).1)

theorem Consistent.mem_toMap {q : PriorityJobQueue} (h : q.Consistent) (jobId : JobId) :
    jobId ∈ q.toMap.entries ↔ jobId ∈ q.index := by
  rw [Finmap.mem_iff, h.index_isSome_iff]
  constructor
  · rintro ⟨a, ha⟩
    obtain ⟨e, he, heq⟩ := (h.lookup_toMap _ _).mp ha
    exact ⟨e, he, congrArg Prod.fst heq⟩
  · rintro ⟨e, he, rfl⟩
    exact ⟨_, h.lookup_item he⟩

/-- The hand-maintained counters count the entries of the map. -/
theorem Consistent.card_toMap {q : PriorityJobQueue} (h : q.Consistent) :
    q.toMap.entries.keys.card = q.size := by
  have hkeys : q.toMap.entries.keys = ((q.liveIn false ++ q.liveIn true).map (·.jobId)).toFinset := by
    ext jobId
    rw [Finmap.mem_keys, h.mem_toMap, h.index_isSome_iff, List.mem_toFinset, List.mem_map]
    simp only [Live, List.mem_append]
  rw [hkeys, List.toFinset_card_of_nodup h.live_jobId_nodup, List.length_map, List.length_append,
    size, h.liveReady_eq, h.liveDelayed_eq]

/-- A queue refines a map when its live entries are the entries of the map. -/
theorem Consistent.toMap_entries_eq {q : PriorityJobQueue} (h : q.Consistent)
    {entries : Finmap fun _ : JobId => MapEntry}
    (heq : ∀ jobId a, (∃ e, q.Live e ∧ e.item = (jobId, a)) ↔ entries.lookup jobId = some a) :
    q.toMap.entries = entries := by
  apply Finmap.ext_lookup
  intro jobId
  apply Option.ext
  intro a
  rw [h.lookup_toMap, heq]

theorem toMap_ext {q : PriorityJobQueue} {m : MapQueue} (hentries : q.toMap.entries = m.entries)
    (hnext : q.nextSeq = m.nextSeq) (hcap : q.capacity = m.capacity) (hclosed : q.closed = m.closed) :
    q.toMap = m := by
  rcases m with ⟨entries, nextSeq, capacity, closed⟩
  simp only at hentries hnext hcap hclosed
  rw [← hentries, ← hnext, ← hcap, ← hclosed]
  rfl

theorem toMap_empty (capacity : ℕ) :
    toMap { capacity := capacity } = MapQueue.empty capacity := by
  apply toMap_ext _ rfl rfl rfl
  apply (consistent_empty capacity).toMap_entries_eq
  intro jobId a
  simp [Live, liveIn, heap, MapQueue.empty]

/-- Burying an entry erases it from the map. -/
theorem Consistent.toMap_bury {q : PriorityJobQueue} (h : q.Consistent) {jobId : JobId} {loc : Loc}
    (hloc : q.index.lookup jobId = some loc) : (q.bury jobId loc).toMap = q.toMap.drop jobId := by
  obtain ⟨e₀, he₀, hid₀, hseq₀⟩ := (h.index_iff _ _).mp hloc
  have hlive₀ : q.Live e₀ := by
    cases hd : loc.delayed <;> rw [hd] at he₀
    · exact Or.inl he₀
    · exact Or.inr he₀
  have hlive : ∀ e, (q.bury jobId loc).Live e ↔ q.Live e ∧ e.jobId ≠ jobId := by
    intro e
    have hmove : (q.bury jobId loc).Live e ↔ q.Live e ∧ e.seq ≠ loc.seq := by
      simp only [Live, Consistent.liveIn_bury, List.mem_filter, decide_eq_true_eq]
      tauto
    rw [hmove]
    apply and_congr_right
    intro he
    constructor
    · intro hseq hid
      exact hseq ((h.eq_of_live he hlive₀ (hid.trans hid₀.symm)) ▸ hseq₀)
    · intro hid hseq
      have := h.eq_of_seq (live_iff.mp he).1 (live_iff.mp hlive₀).1 (hseq.trans hseq₀.symm)
      exact hid (this ▸ hid₀)
  apply toMap_ext _ rfl rfl rfl
  apply (h.bury hloc).toMap_entries_eq
  intro jobId' a
  change _ ↔ (q.toMap.entries.erase jobId).lookup jobId' = some a
  by_cases hj : jobId' = jobId
  · subst hj
    rw [Finmap.lookup_erase]
    constructor
    · rintro ⟨e, he, heq⟩
      exact absurd (congrArg Prod.fst heq) ((hlive e).mp he).2
    · intro hcontra
      cases hcontra
  · rw [Finmap.lookup_erase_ne hj, h.lookup_toMap]
    constructor
    · rintro ⟨e, he, heq⟩
      exact ⟨e, ((hlive e).mp he).1, heq⟩
    · rintro ⟨e, he, heq⟩
      have hid : e.jobId = jobId' := congrArg Prod.fst heq
      exact ⟨e, (hlive e).mpr ⟨he, fun hc => hj (hid.symm.trans hc)⟩, heq⟩

theorem Consistent.toMap_remove {q : PriorityJobQueue} (h : q.Consistent) (jobId : JobId) :
    (q.remove jobId).1 = decide (jobId ∈ q.toMap.entries) ∧
      (q.remove jobId).2.toMap = q.toMap.drop jobId := by
  unfold PriorityJobQueue.remove
  cases hloc : q.index.lookup jobId with
  | none =>
      have hmem : jobId ∉ q.toMap.entries := by
        rw [h.mem_toMap]
        exact AList.lookup_eq_none.mp hloc
      refine ⟨by simp [hmem], ?_⟩
      apply toMap_ext _ rfl rfl rfl
      apply Finmap.ext_lookup
      intro jobId'
      change _ = (q.toMap.entries.erase jobId).lookup jobId'
      by_cases hj : jobId' = jobId
      · subst hj
        rw [Finmap.lookup_erase, Finmap.lookup_eq_none]
        exact hmem
      · rw [Finmap.lookup_erase_ne hj]
  | some loc =>
      have hmem : jobId ∈ q.toMap.entries := by
        rw [h.mem_toMap, ← AList.lookup_isSome, hloc]
        rfl
      exact ⟨by simp [hmem], h.toMap_bury hloc⟩

/-- Filing a fresh entry for a job that has none inserts it. -/
theorem Consistent.toMap_file {q : PriorityJobQueue} (h : q.Consistent) (now : Int) {jobId : JobId}
    (priority readyAtMs : Int) (hjob : q.index.lookup jobId = none) :
    (q.file now jobId priority readyAtMs).toMap.entries =
      q.toMap.entries.insert jobId ⟨priority, q.nextSeq, readyAtMs⟩ := by
  have hc := h.file now priority readyAtMs hjob
  have hlive : ∀ e, (q.file now jobId priority readyAtMs).Live e ↔
      e = q.freshEntry now jobId priority readyAtMs ∨ q.Live e := by
    intro e
    have htomb : (q.file now jobId priority readyAtMs).tombstones = q.tombstones := by
      unfold PriorityJobQueue.file
      split_ifs <;> rfl
    rw [live_iff, live_iff, htomb, (Consistent.file_perm now jobId priority readyAtMs).mem_iff,
      List.mem_cons]
    constructor
    · rintro ⟨he | he, hs⟩
      · exact Or.inl he
      · exact Or.inr ⟨he, hs⟩
    · rintro (rfl | ⟨he, hs⟩)
      · exact ⟨Or.inl rfl, h.nextSeq_fresh.2⟩
      · exact ⟨Or.inr he, hs⟩
  apply hc.toMap_entries_eq
  intro jobId' a
  by_cases hj : jobId' = jobId
  · subst hj
    rw [Finmap.lookup_insert, Option.some.injEq]
    constructor
    · rintro ⟨e, he, heq⟩
      rcases (hlive e).mp he with rfl | he
      · exact congrArg Prod.snd heq
      · have hmem : jobId' ∈ q.index :=
          (h.index_isSome_iff _).mpr ⟨e, he, congrArg Prod.fst heq⟩
        exact absurd hmem (AList.lookup_eq_none.mp hjob)
    · rintro rfl
      exact ⟨_, (hlive _).mpr (Or.inl rfl), rfl⟩
  · rw [Finmap.lookup_insert_of_ne _ hj, h.lookup_toMap]
    constructor
    · rintro ⟨e, he, heq⟩
      rcases (hlive e).mp he with rfl | he
      · exact absurd (congrArg Prod.fst heq).symm hj
      · exact ⟨e, he, heq⟩
    · rintro ⟨e, he, heq⟩
      exact ⟨e, (hlive e).mpr (Or.inr he), heq⟩

theorem Consistent.toMap_push {q : PriorityJobQueue} (h : q.Consistent) (now : Int) (jobId : JobId)
    (priority readyAtMs : Int) :
    (q.push now jobId priority readyAtMs).1 = (q.toMap.push jobId priority readyAtMs).1 ∧
      (q.push now jobId priority readyAtMs).2.toMap = (q.toMap.push jobId priority readyAtMs).2 := by
  have hcard : q.toMap.entries.keys.card = q.liveCountLocked := h.card_toMap
  unfold PriorityJobQueue.push MapQueue.push
  rw [hcard]
  change _ ∧ _ = (if q.closed then _ else if q.capacity ≤ _ then _ else _ : PushStatus × MapQueue).2
  by_cases hclosed : q.closed = true
  · simp [hclosed, toMap]
  by_cases hfull : q.capacity ≤ q.liveCountLocked
  · simp [hclosed, hfull, toMap]
  have hevict := h.evict jobId
  have hfile := hevict.toMap_file now priority readyAtMs (Consistent.lookup_evict q jobId)
  have hnext : (q.evict jobId).nextSeq = q.nextSeq := by
    unfold PriorityJobQueue.evict
    split <;> rfl
  have hentries : (q.evict jobId).toMap.entries.insert jobId ⟨priority, q.nextSeq, readyAtMs⟩ =
      q.toMap.entries.insert jobId ⟨priority, q.nextSeq, readyAtMs⟩ := by
    unfold PriorityJobQueue.evict
    cases hloc : q.index.lookup jobId with
    | none => rfl
    | some loc =>
        rw [h.toMap_bury hloc]
        apply Finmap.ext_lookup
        intro jobId'
        by_cases hj : jobId' = jobId
        · subst hj
          rw [Finmap.lookup_insert, Finmap.lookup_insert]
        · rw [Finmap.lookup_insert_of_ne _ hj, Finmap.lookup_insert_of_ne _ hj]
          exact Finmap.lookup_erase_ne hj
  rw [hnext, hentries] at hfile
  simp only [hclosed, Bool.false_eq_true, if_false, hfull]
  refine ⟨by simp [toMap, hclosed, hfull], ?_⟩
  apply toMap_ext hfile
  · unfold PriorityJobQueue.file PriorityJobQueue.evict
    split_ifs <;> split <;> rfl
  · unfold PriorityJobQueue.file PriorityJobQueue.evict
    split_ifs <;> split <;> rfl
  · unfold PriorityJobQueue.file PriorityJobQueue.evict
    split_ifs <;> split <;> rfl

/-- The clock has reached the ready time of everything in the ready heap. -/
def Ripe (q : PriorityJobQueue) (t : Int) : Prop := ∀ e ∈ q.ready, e.readyAtMs ≤ t

theorem Ripe.mono {q : PriorityJobQueue} {t t' : Int} (h : q.Ripe t) (ht : t ≤ t') : q.Ripe t' :=
  fun e he => (h e he).trans ht

theorem Promoted.toMap {q q' : PriorityJobQueue} {now : Int} (hp : Promoted q q' now)
    (h : q.Consistent) : q'.toMap = q.toMap := by
  apply toMap_ext _ hp.nextSeq hp.capacity hp.closed
  apply hp.consistent.toMap_entries_eq
  intro jobId a
  rw [h.lookup_toMap]
  simp only [hp.live]

theorem Promoted.ripe {q q' : PriorityJobQueue} {now : Int} (hp : Promoted q q' now)
    (hr : q.Ripe now) : q'.Ripe now := by
  intro e he
  rcases hp.ready_le e he with he | he
  · exact hr e he
  · exact he

theorem precedes_of_readyOrder {a b : QueueEntry} (h : readyOrder a b = false) :
    a.item.2.Precedes b.item.2 := by
  unfold readyOrder at h
  unfold MapEntry.Precedes QueueEntry.item
  split_ifs at h with hp
  · have hle : b.priority ≤ a.priority := by simpa using h
    exact Or.inl (lt_of_le_of_ne hle (Ne.symm hp))
  · refine Or.inr ⟨not_not.mp hp, ?_⟩
    simpa using h

/-- Taking from a queue whose matured entries are all in the ready heap is a poll of the map. -/
theorem Taken.poll {q q' : PriorityJobQueue} {r : Option QueueEntry} {now : Int}
    (ht : Taken q r q') (h : q.Consistent) (hr : q.Ripe now) (hd : ∀ e ∈ q.delayed, now < e.readyAtMs) :
    q.toMap.Poll now (r.map (·.item)) q'.toMap := by
  have hmatured : ∀ item, q.toMap.Ready now item → ∃ e ∈ q.liveIn false, e.item = item := by
    rintro ⟨jobId, a⟩ ⟨hlook, hle⟩
    obtain ⟨e, he, heq⟩ := (h.lookup_toMap _ _).mp hlook
    refine ⟨e, ?_, heq⟩
    rcases he with he | he
    · exact he
    · have hlt := hd e (mem_liveIn.mp he).1
      have hready : e.readyAtMs = a.readyAtMs := congrArg (fun i : JobId × MapEntry => i.2.readyAtMs) heq
      simp only at hle
      omega
  cases r with
  | none =>
      refine ⟨?_, ?_⟩
      · intro item hready
        obtain ⟨e, he, -⟩ := hmatured item hready
        exact ht.none_iff rfl e he
      · apply toMap_ext _ ht.nextSeq ht.capacity ht.closed
        apply ht.consistent.toMap_entries_eq
        intro jobId a
        rw [h.lookup_toMap]
        simp only [ht.live, ne_eq, reduceCtorEq, not_false_eq_true, and_true]
  | some e =>
      have he := ht.some_live e rfl
      have hlive : q.Live e := Or.inl he
      refine ⟨⟨h.lookup_item hlive, hr e (mem_liveIn.mp he).1⟩, ?_, ?_⟩
      · intro other hother
        obtain ⟨x, hx, rfl⟩ := hmatured other hother
        by_cases hne : x = e
        · subst hne
          exact Or.inr ⟨rfl, le_refl _⟩
        · exact precedes_of_readyOrder (ht.some_best e rfl x hx hne)
      · apply toMap_ext _ ht.nextSeq ht.capacity ht.closed
        apply ht.consistent.toMap_entries_eq
        intro jobId a
        change _ ↔ (q.toMap.entries.erase e.jobId).lookup jobId = some a
        by_cases hj : jobId = e.jobId
        · subst hj
          rw [Finmap.lookup_erase]
          constructor
          · rintro ⟨x, hx, heq⟩
            obtain ⟨hx, hne⟩ := (ht.live x).mp hx
            have := h.eq_of_live hx hlive (congrArg Prod.fst heq)
            exact absurd (congrArg some this.symm) hne
          · intro hcontra
            cases hcontra
        · rw [Finmap.lookup_erase_ne hj, h.lookup_toMap]
          constructor
          · rintro ⟨x, hx, heq⟩
            exact ⟨x, ((ht.live x).mp hx).1, heq⟩
          · rintro ⟨x, hx, heq⟩
            refine ⟨x, (ht.live x).mpr ⟨hx, ?_⟩, heq⟩
            intro hc
            have hxe : e = x := Option.some.inj hc
            exact hj ((congrArg Prod.fst heq).symm.trans (hxe ▸ rfl))

/-- **A poll of the heaps is a poll of the map.** -/
theorem poll_refines {q : PriorityJobQueue} (h : q.Consistent) {now : Int} (hr : q.Ripe now) :
    (q.poll now).2.Consistent ∧ (q.poll now).2.Ripe now ∧
      q.toMap.Poll now ((q.poll now).1.map (·.item)) (q.poll now).2.toMap := by
  have hp := promoteMaturedLocked_promoted h now
  have ht := takeReadyLocked_taken hp.consistent
  refine ⟨ht.consistent, fun e he => hp.ripe hr e (ht.ready_sub e he), ?_⟩
  rw [← hp.toMap h]
  exact ht.poll hp.consistent (hp.ripe hr) hp.delayed_gt

/-- **Draining the ready heap takes the first entries of the map.** -/
theorem drainLoop_refines (now : Int) (n : ℕ) :
    ∀ q : PriorityJobQueue, q.Consistent → q.Ripe now → (∀ e ∈ q.delayed, now < e.readyAtMs) →
      (drainLoop n q).2.Consistent ∧ (drainLoop n q).2.Ripe now ∧
        q.toMap.FirstN now n ((drainLoop n q).1.map (·.item)) (drainLoop n q).2.toMap := by
  induction n with
  | zero =>
      intro q h hr _
      exact ⟨h, hr, MapQueue.FirstN.zero _ _⟩
  | succ n ih =>
      intro q h hr hd
      have ht := takeReadyLocked_taken h
      have hpoll := ht.poll h hr hd
      have hripe : q.takeReadyLocked.2.Ripe now := fun e he => hr e (ht.ready_sub e he)
      rw [drainLoop]
      rcases hq : q.takeReadyLocked with ⟨r, q'⟩
      rw [hq] at ht hpoll hripe
      cases r with
      | none =>
          refine ⟨ht.consistent, hripe, ?_⟩
          have heq : q'.toMap = q.toMap := MapQueue.poll_none hpoll
          simp only [heq, List.map_nil]
          exact MapQueue.FirstN.none _ hpoll.1
      | some e =>
          have hd' : ∀ x ∈ q'.delayed, now < x.readyAtMs := by
            rw [ht.delayed]
            exact hd
          obtain ⟨hc, hripe', hfirst⟩ := ih q' ht.consistent hripe hd'
          exact ⟨hc, hripe', MapQueue.FirstN.cons (le_refl _) hpoll (fun _ h => h) hfirst⟩

/-- The second half of `pop_batch`, which lets matured entries into the ready heap first. -/
theorem drain_refines {q : PriorityJobQueue} (h : q.Consistent) {now : Int} (hr : q.Ripe now) (n : ℕ) :
    (drainLoop n (q.promoteMaturedLocked now)).2.Consistent ∧
      (drainLoop n (q.promoteMaturedLocked now)).2.Ripe now ∧
      q.toMap.FirstN now n ((drainLoop n (q.promoteMaturedLocked now)).1.map (·.item))
        (drainLoop n (q.promoteMaturedLocked now)).2.toMap := by
  have hp := promoteMaturedLocked_promoted h now
  rw [← hp.toMap h]
  exact drainLoop_refines now n _ hp.consistent (hp.ripe hr) hp.delayed_gt

theorem popLoop_refines (deadline : Option Int) (readings : List Int) :
    ∀ (q : PriorityJobQueue) (t : Int), q.Consistent → q.Ripe t → (t :: readings).Pairwise (· ≤ ·) →
      (popLoop deadline readings q).2.Consistent ∧
      (∀ t', (∀ x ∈ t :: readings, x ≤ t') → (popLoop deadline readings q).2.Ripe t') ∧
      ∃ r : Option (Int × (JobId × MapEntry)), (∀ p, r = some p → p.1 ∈ readings) ∧
        q.toMap.PopLoop deadline readings r (popLoop deadline readings q).2.toMap ∧
        (popLoop deadline readings q).1.map (·.item) = r.map Prod.snd := by
  induction readings with
  | nil =>
      intro q t h hr _
      exact ⟨h, fun t' ht' => hr.mono (ht' t List.mem_cons_self), none, by simp,
        MapQueue.PopLoop.out, rfl⟩
  | cons now later ih =>
      intro q t h hr hclock
      have htnow : t ≤ now := List.rel_of_pairwise_cons hclock List.mem_cons_self
      obtain ⟨hc, hripe, hpoll⟩ := poll_refines h (hr.mono htnow)
      have hlater : ∀ t', (∀ x ∈ t :: now :: later, x ≤ t') → ∀ x ∈ now :: later, x ≤ t' :=
        fun t' ht' x hx => ht' x (List.mem_cons_of_mem _ hx)
      rw [popLoop]
      rcases hq : q.poll now with ⟨r, q'⟩
      rw [hq] at hc hripe hpoll
      cases r with
      | some e =>
          refine ⟨hc, fun t' ht' => hripe.mono (hlater t' ht' now List.mem_cons_self),
            some (now, e.item), ?_, MapQueue.PopLoop.found hpoll, rfl⟩
          rintro p ⟨⟩
          exact List.mem_cons_self
      | none =>
          have heq : q'.toMap = q.toMap := MapQueue.poll_none hpoll
          have hclosed : q'.closed = q.toMap.closed := congrArg MapQueue.closed heq
          simp only at hpoll ⊢
          simp only [heq, Option.map_none] at hpoll
          by_cases hstop : q'.closed = true ∨ ∃ d ∈ deadline, d ≤ now
          · rw [if_pos hstop]
            refine ⟨hc, fun t' ht' => hripe.mono (hlater t' ht' now List.mem_cons_self), none,
              by simp, ?_, rfl⟩
            rw [heq]
            exact MapQueue.PopLoop.stop hpoll (hclosed ▸ hstop)
          · rw [if_neg hstop]
            obtain ⟨hc', hripe', r, hr', hpop, hres⟩ := ih q' now hc hripe hclock.of_cons
            refine ⟨hc', fun t' ht' => hripe' t' (hlater t' ht'), r,
              fun p hp => List.mem_cons_of_mem _ (hr' p hp), ?_, hres⟩
            rw [heq] at hpop
            exact MapQueue.PopLoop.wait hpoll (hclosed ▸ hstop) hpop

/-- The part of `pop_batch` after its first entry. -/
theorem popBatch_refines {q : PriorityJobQueue} (h : q.Consistent) {t : Int} (hr : q.Ripe t)
    (maxItems : ℕ) (waitMs start : Int) (readings : List Int) (now : Int)
    (hclock : (t :: start :: readings ++ [now]).Pairwise (· ≤ ·)) :
    (q.popBatch maxItems waitMs start readings now).2.Consistent ∧
      (∀ t', (∀ x ∈ t :: start :: readings ++ [now], x ≤ t') →
        (q.popBatch maxItems waitMs start readings now).2.Ripe t') ∧
      q.toMap.Step (.popBatch maxItems waitMs start readings now)
        (.popped ((q.popBatch maxItems waitMs start readings now).1.map (·.item)))
        (q.popBatch maxItems waitMs start readings now).2.toMap := by
  have hle_now : ∀ x ∈ t :: start :: readings, x ≤ now := fun x hx =>
    (List.pairwise_append.mp hclock).2.2 x hx now List.mem_cons_self
  have hclock' : (t :: readings).Pairwise (· ≤ ·) := by
    have hsub : (t :: readings).Sublist (t :: start :: readings) :=
      (List.sublist_cons_self _ _).cons_cons _
    exact List.Pairwise.sublist hsub (List.pairwise_append.mp hclock).1
  obtain ⟨hc, hripe, r, hmem, hpop, hres⟩ :=
    popLoop_refines (some (start + max 0 waitMs)) readings q t h hr hclock'
  have hsub : ∀ t', (∀ x ∈ t :: start :: readings ++ [now], x ≤ t') → ∀ x ∈ t :: readings, x ≤ t' := by
    intro t' ht' x hx
    apply ht'
    simp only [List.cons_append, List.mem_cons, List.mem_append] at hx ⊢
    tauto
  unfold popBatch popFor
  by_cases hzero : maxItems = 0
  · rw [if_pos hzero]
    exact ⟨h, fun t' ht' => hr.mono (ht' t List.mem_cons_self), Or.inl ⟨hzero, rfl, rfl⟩⟩
  rw [if_neg hzero]
  rcases hq : popLoop (some (start + max 0 waitMs)) readings q with ⟨first, q'⟩
  rw [hq] at hc hripe hpop hres
  cases first with
  | none =>
      have hrnone : r = none := by
        cases r with
        | none => rfl
        | some p => cases hres
      subst hrnone
      exact ⟨hc, fun t' ht' => hripe t' (hsub t' ht'), Or.inr (Or.inl ⟨hzero, hpop, rfl⟩)⟩
  | some e =>
      obtain ⟨p, rfl⟩ : ∃ p, r = some p := by
        cases r with
        | none => cases hres
        | some p => exact ⟨p, rfl⟩
      have hitem : p.2 = e.item := (Option.some.inj hres).symm
      have hripe_now : q'.Ripe now := hripe now fun x hx => hle_now x (by
        rcases List.mem_cons.mp hx with rfl | hx
        · exact List.mem_cons_self
        · exact List.mem_cons_of_mem _ (List.mem_cons_of_mem _ hx))
      obtain ⟨hcd, hriped, hfirst⟩ := drain_refines hc hripe_now (maxItems - 1)
      have hpt : p.1 ≤ now := hle_now _
        (List.mem_cons_of_mem _ (List.mem_cons_of_mem _ (hmem p rfl)))
      refine ⟨hcd, fun t' ht' => hriped.mono (ht' now (by simp)), Or.inr (Or.inr ?_)⟩
      refine ⟨p.1, p.2, _, _, hzero, hpop, hfirst, ?_, ?_⟩
      · rw [hitem]
        rfl
      · intro hsame
        have hcount : maxItems = maxItems - 1 + 1 := by omega
        have hpoll : q.toMap.Poll p.1 (some p.2) q'.toMap := hpop.poll
        have hfn := MapQueue.FirstN.cons hpt hpoll hsame hfirst
        rw [hcount]
        exact hfn

/-- What a push adds to the ready heap has matured. -/
theorem mem_ready_push {q : PriorityJobQueue} {now : Int} {jobId : JobId} {priority readyAtMs : Int}
    {e : QueueEntry} (he : e ∈ (q.push now jobId priority readyAtMs).2.ready) :
    e ∈ q.ready ∨ e.readyAtMs ≤ now := by
  have hevict : (q.evict jobId).ready = q.ready := by
    unfold PriorityJobQueue.evict
    split <;> rfl
  unfold PriorityJobQueue.push at he
  split_ifs at he
  · exact Or.inl he
  · exact Or.inl he
  · unfold PriorityJobQueue.file at he
    split_ifs at he with hdelayed
    · rw [← hevict]
      exact Or.inl he
    · rcases LibHeap.mem_push.mp he with rfl | he
      · exact Or.inr (not_lt.mp hdelayed)
      · exact Or.inl (hevict ▸ he)

/-- The clock readings of one call of a run come after `t` and before the later ones. -/
theorem call_refines {q : PriorityJobQueue} (h : q.Consistent) {t : Int} (hr : q.Ripe t) (op : QueueOp)
    (hclock : (t :: op.clock).Pairwise (· ≤ ·)) :
    (q.call op).2.Consistent ∧ (∀ t', (∀ x ∈ t :: op.clock, x ≤ t') → (q.call op).2.Ripe t') ∧
      q.toMap.Step op (q.call op).1 (q.call op).2.toMap := by
  have hkeep : ∀ q' : PriorityJobQueue, (∀ e ∈ q'.ready, e ∈ q.ready) →
      ∀ t', (∀ x ∈ t :: op.clock, x ≤ t') → q'.Ripe t' :=
    fun q' hsub t' ht' e he => (hr e (hsub e he)).trans (ht' t List.mem_cons_self)
  cases op with
  | push now jobId priority readyAtMs =>
      obtain ⟨hstatus, hmap⟩ := h.toMap_push now jobId priority readyAtMs
      refine ⟨h.push now jobId priority readyAtMs, ?_, congrArg QueueAnswer.pushed hstatus, hmap⟩
      intro t' ht' e he
      rcases mem_ready_push he with he | he
      · exact (hr e he).trans (ht' t List.mem_cons_self)
      · exact he.trans (ht' now (by simp [QueueOp.clock]))
  | remove jobId =>
      obtain ⟨hfound, hmap⟩ := h.toMap_remove jobId
      refine ⟨h.remove jobId, hkeep _ ?_, congrArg QueueAnswer.removed hfound, hmap⟩
      intro e he
      change e ∈ (q.remove jobId).2.ready at he
      unfold PriorityJobQueue.remove at he
      split at he <;> exact he
  | poll now =>
      have htnow : t ≤ now := List.rel_of_pairwise_cons hclock List.mem_cons_self
      obtain ⟨hc, hripe, hpoll⟩ := poll_refines h (hr.mono htnow)
      refine ⟨hc, fun t' ht' => hripe.mono (ht' now (by simp [QueueOp.clock])), _, hpoll, ?_⟩
      exact congrArg QueueAnswer.popped Option.toList_map.symm
  | pop readings =>
      obtain ⟨hc, hripe, r, -, hpop, hres⟩ := popLoop_refines none readings q t h hr hclock
      refine ⟨hc, hripe, r, hpop, ?_⟩
      rw [← hres]
      exact congrArg QueueAnswer.popped Option.toList_map.symm
  | popFor timeoutMs start readings =>
      have hsub : (t :: readings).Sublist (t :: start :: readings) :=
        (List.sublist_cons_self _ _).cons_cons _
      obtain ⟨hc, hripe, r, -, hpop, hres⟩ := popLoop_refines (some (start + max 0 timeoutMs)) readings
        q t h hr (List.Pairwise.sublist hsub hclock)
      refine ⟨hc, fun t' ht' => hripe t' fun x hx => ht' x (hsub.subset hx), r, hpop, ?_⟩
      rw [← hres]
      exact congrArg QueueAnswer.popped Option.toList_map.symm
  | popBatch maxItems waitMs start readings now =>
      exact popBatch_refines h hr maxItems waitMs start readings now hclock
  | close =>
      have hc : q.close.Consistent := ⟨h.seq_nodup, h.seq_lt, h.tombstone_lt, h.index_iff, h.liveReady_eq,
        h.liveDelayed_eq, h.ready_ordered, h.delayed_ordered⟩
      exact ⟨hc, hkeep _ fun e he => he, rfl, rfl⟩
  | size => exact ⟨h, hkeep _ fun e he => he, congrArg QueueAnswer.size h.card_toMap.symm, rfl⟩

theorem calls_run (ops : List QueueOp) :
    ∀ (q : PriorityJobQueue) (t : Int), q.Consistent → q.Ripe t →
      (t :: ops.flatMap QueueOp.clock).Pairwise (· ≤ ·) →
      ∃ gone, q.toMap.Run (q.calls ops).1 gone (q.calls ops).2.toMap := by
  induction ops with
  | nil => exact fun q _ _ _ _ => ⟨[], MapQueue.Run.nil _⟩
  | cons op ops ih =>
      intro q t h hr hclock
      rw [List.flatMap_cons, ← List.cons_append, List.pairwise_append] at hclock
      obtain ⟨hop, hops, hle⟩ := hclock
      obtain ⟨hc, hripe, hstep⟩ := call_refines h hr op hop
      have hlast : ∃ t', (∀ x ∈ t :: op.clock, x ≤ t') ∧
          (t' :: ops.flatMap QueueOp.clock).Pairwise (· ≤ ·) := by
        cases hrest : ops.flatMap QueueOp.clock with
        | nil =>
            obtain ⟨t', ht'⟩ := (t :: op.clock).toFinset.exists_le
            exact ⟨t', fun x hx => ht' x (List.mem_toFinset.mpr hx), List.pairwise_singleton _ _⟩
        | cons y ys =>
            rw [hrest] at hle hops
            refine ⟨y, fun x hx => hle x hx y List.mem_cons_self, ?_⟩
            rw [List.pairwise_cons]
            refine ⟨?_, hops⟩
            intro x hx
            rcases List.mem_cons.mp hx with rfl | hx
            · exact le_refl _
            · exact List.rel_of_pairwise_cons hops hx
      obtain ⟨t', hbound, hsorted⟩ := hlast
      obtain ⟨gone, hrun⟩ := ih (q.call op).2 t' hc (hripe t' hbound) hsorted
      exact ⟨_, MapQueue.Run.cons hstep hrun⟩

/-- **The heap queue refines the map.** Every answer is an answer of the map, a batch is the entry its
waiting loop finds followed by the first of the rest at the later clock reading, and the entries that
are popped, removed or replaced in the run are all different. -/
theorem calls_refines_map (capacity : ℕ) (ops : List QueueOp)
    (hclock : (ops.flatMap QueueOp.clock).Pairwise (· ≤ ·)) :
    ∃ gone, (MapQueue.empty capacity).Run (calls { capacity := capacity } ops).1 gone
        (calls { capacity := capacity } ops).2.toMap ∧ gone.Nodup := by
  have hstart : ∃ t, (t :: ops.flatMap QueueOp.clock).Pairwise (· ≤ ·) := by
    obtain ⟨t, ht⟩ := (ops.flatMap QueueOp.clock).toFinset.bddBelow
    exact ⟨t, List.pairwise_cons.mpr ⟨fun x hx => ht (List.mem_toFinset.mpr hx), hclock⟩⟩
  obtain ⟨t, ht⟩ := hstart
  have hripe : Ripe { capacity := capacity } t := fun e he => absurd he List.not_mem_nil
  obtain ⟨gone, hrun⟩ := calls_run ops { capacity := capacity } t (consistent_empty capacity) hripe ht
  rw [toMap_empty] at hrun
  exact ⟨gone, hrun, (hrun.leaves (MapQueue.sound_empty capacity)).nodup⟩

/-- Two pushes for one job, a poll that finds the newer entry, and a poll that finds nothing. -/
theorem calls_refines_map_replaced :
    ∃ gone, (MapQueue.empty 2).Run
        (calls { capacity := 2 } [.push 0 "a" 1 0, .push 1 "a" 7 3, .poll 3, .poll 4]).1 gone
        (calls { capacity := 2 } [.push 0 "a" 1 0, .push 1 "a" 7 3, .poll 3, .poll 4]).2.toMap ∧
      gone.Nodup :=
  calls_refines_map 2 [.push 0 "a" 1 0, .push 1 "a" 7 3, .poll 3, .poll 4] (by decide)

/-- The second clock reading of `pop_batch` promotes an entry that should have come first: the batch is
the first two entries at no time. -/
theorem popBatch_out_of_order :
    let q := (calls { capacity := 10 } [.push 0 "low" 0 0, .push 0 "high" 1 5]).2
    let batch := (q.popBatch 2 0 0 [0] 5).1.map (·.item)
    batch = [("low", ⟨0, 1, 0⟩), ("high", ⟨1, 2, 5⟩)] ∧ ∀ t m', ¬ q.toMap.FirstN t 2 batch m' := by
  intro q batch
  have hbatch : batch = [("low", ⟨0, 1, 0⟩), ("high", ⟨1, 2, 5⟩)] := by decide
  refine ⟨hbatch, ?_⟩
  intro t m' hfirst
  have hordered := hfirst.ordered
  rw [hbatch] at hordered
  have hprec := (List.rel_of_pairwise_cons hordered List.mem_cons_self).2
  simp [MapEntry.Precedes] at hprec

end PriorityJobQueue

end DistributedJobEngine
