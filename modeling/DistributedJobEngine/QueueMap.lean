import DistributedJobEngine.Queue
import Mathlib.Data.Finmap
import Mathlib.Tactic

/-! The abstract queue: a finite map from job ids to priority, seq and ready time, with a step for each
call and the account of the entries that leave it. -/

namespace DistributedJobEngine

/-- What the abstract queue knows of a job's entry. -/
structure MapEntry where
  priority : Int
  seq : Int
  readyAtMs : Int
  deriving DecidableEq, Repr

/-- Popped no later: a higher priority, or the same priority and a seq that is no larger. -/
def MapEntry.Precedes (a b : MapEntry) : Prop :=
  b.priority < a.priority ∨ (a.priority = b.priority ∧ a.seq ≤ b.seq)

/-- The abstract queue. -/
structure MapQueue where
  entries : Finmap fun _ : JobId => MapEntry
  nextSeq : Int
  capacity : ℕ
  closed : Bool

inductive QueueOp where
  | push (now : Int) (jobId : JobId) (priority readyAtMs : Int)
  | remove (jobId : JobId)
  | poll (now : Int)
  | pop (readings : List Int)
  | popFor (timeoutMs start : Int) (readings : List Int)
  | popBatch (maxItems : ℕ) (waitMs start : Int) (readings : List Int) (now : Int)
  | close
  | size

/-- The clock readings a call takes, in order. -/
def QueueOp.clock : QueueOp → List Int
  | .push now _ _ _ => [now]
  | .poll now => [now]
  | .pop readings => readings
  | .popFor _ start readings => start :: readings
  | .popBatch _ _ start readings now => start :: readings ++ [now]
  | _ => []

inductive QueueAnswer where
  | pushed (status : PushStatus)
  | removed (found : Bool)
  | popped (items : List (JobId × MapEntry))
  | closed
  | size (n : ℕ)

namespace MapQueue

def empty (capacity : ℕ) : MapQueue where
  entries := ∅
  nextSeq := 1
  capacity := capacity
  closed := false

def push (m : MapQueue) (jobId : JobId) (priority readyAtMs : Int) : PushStatus × MapQueue :=
  if m.closed then (.closed, m)
  else if m.capacity ≤ m.entries.keys.card then (.full, m)
  else (.ok, { m with
    entries := m.entries.insert jobId ⟨priority, m.nextSeq, readyAtMs⟩
    nextSeq := m.nextSeq + 1 })

/-- The entry of `jobId` leaves. -/
def drop (m : MapQueue) (jobId : JobId) : MapQueue := { m with entries := m.entries.erase jobId }

/-- `item` is in the map and has matured at time `t`. -/
def Ready (m : MapQueue) (t : Int) (item : JobId × MapEntry) : Prop :=
  m.entries.lookup item.1 = some item.2 ∧ item.2.readyAtMs ≤ t

/-- A poll at time `t` takes the matured entry that precedes every other one, if there is one. -/
def Poll (m : MapQueue) (t : Int) (r : Option (JobId × MapEntry)) (m' : MapQueue) : Prop :=
  match r with
  | none => (∀ item, ¬ m.Ready t item) ∧ m' = m
  | some item => m.Ready t item ∧ (∀ other, m.Ready t other → item.2.Precedes other.2) ∧
      m' = m.drop item.1

/-- The first `n` entries at time `t` in popping order: `items` is in order, what stays behind is
what is not in `items`, and while a matured entry stays behind there are `n` items and each of them
precedes it. -/
structure FirstN (m : MapQueue) (t : Int) (n : ℕ) (items : List (JobId × MapEntry)) (m' : MapQueue) :
    Prop where
  length_le : items.length ≤ n
  ready : ∀ item ∈ items, m.Ready t item
  ordered : items.Pairwise fun a b => a.1 ≠ b.1 ∧ a.2.Precedes b.2
  left : m' = items.foldl (fun m item => m.drop item.1) m
  behind : ∀ other, m'.Ready t other → items.length = n ∧ ∀ item ∈ items, item.2.Precedes other.2

/-- `pop` and `pop_for`: polls that find nothing until one finds an entry, the queue is closed or the
deadline, if there is one, has passed. `found` is the reading of the poll that found it. -/
inductive PopLoop (m : MapQueue) (deadline : Option Int) :
    List Int → Option (Int × (JobId × MapEntry)) → MapQueue → Prop where
  | out : PopLoop m deadline [] none m
  | found {now later item m'} : m.Poll now (some item) m' →
      PopLoop m deadline (now :: later) (some (now, item)) m'
  | stop {now later} : m.Poll now none m → (m.closed = true ∨ ∃ d ∈ deadline, d ≤ now) →
      PopLoop m deadline (now :: later) none m
  | wait {now later r m'} : m.Poll now none m → ¬(m.closed = true ∨ ∃ d ∈ deadline, d ≤ now) →
      PopLoop m deadline later r m' → PopLoop m deadline (now :: later) r m'

/-- One call, its answer and the map after it. -/
def Step (m : MapQueue) : QueueOp → QueueAnswer → MapQueue → Prop
  | .push _ jobId priority readyAtMs, a, m' =>
      a = .pushed (m.push jobId priority readyAtMs).1 ∧ m' = (m.push jobId priority readyAtMs).2
  | .remove jobId, a, m' => a = .removed (decide (jobId ∈ m.entries)) ∧ m' = m.drop jobId
  | .poll now, a, m' => ∃ r, m.Poll now r m' ∧ a = .popped r.toList
  | .pop readings, a, m' =>
      ∃ r, m.PopLoop none readings r m' ∧ a = .popped (r.map Prod.snd).toList
  | .popFor timeoutMs start readings, a, m' =>
      ∃ r, m.PopLoop (some (start + max 0 timeoutMs)) readings r m' ∧ a = .popped (r.map Prod.snd).toList
  | .popBatch maxItems waitMs start readings now, a, m' =>
      (maxItems = 0 ∧ a = .popped [] ∧ m' = m) ∨
      (maxItems ≠ 0 ∧ m.PopLoop (some (start + max 0 waitMs)) readings none m' ∧ a = .popped []) ∨
      ∃ t item m₁ items, maxItems ≠ 0 ∧ m.PopLoop (some (start + max 0 waitMs)) readings (some (t, item)) m₁ ∧
        m₁.FirstN now (maxItems - 1) items m' ∧ a = .popped (item :: items) ∧
        ((∀ other, m.Ready now other → m.Ready t other) → m.FirstN now maxItems (item :: items) m')
  | .close, a, m' => a = .closed ∧ m' = { m with closed := true }
  | .size, a, m' => a = .size m.entries.keys.card ∧ m' = m

/-- The seqs of the entries that leave the map in one call: replaced by a push, removed or popped. -/
def departures (m : MapQueue) : QueueOp → QueueAnswer → List Int
  | .push _ jobId _ _, .pushed .ok => (m.entries.lookup jobId).toList.map (·.seq)
  | .remove jobId, _ => (m.entries.lookup jobId).toList.map (·.seq)
  | _, .popped items => items.map (·.2.seq)
  | _, _ => []

/-- A run of calls with their answers, and the seqs that left the map on the way. -/
inductive Run : MapQueue → List (QueueOp × QueueAnswer) → List Int → MapQueue → Prop where
  | nil (m : MapQueue) : Run m [] [] m
  | cons {m m₁ m' : MapQueue} {op : QueueOp} {a : QueueAnswer} {calls : List (QueueOp × QueueAnswer)}
      {gone : List Int} : m.Step op a m₁ → Run m₁ calls gone m' →
      Run m ((op, a) :: calls) (m.departures op a ++ gone) m'

theorem poll_none {m m' : MapQueue} {t : Int} (h : m.Poll t none m') : m' = m := h.2

/-- The poll of `pop_for` that found an entry is a poll of the map the call started from. -/
theorem PopLoop.poll {m m' : MapQueue} {deadline : Option Int} {t : Int}
    {readings : List Int} {item : JobId × MapEntry} (h : m.PopLoop deadline readings (some (t, item)) m') :
    m.Poll t (some item) m' := by
  generalize hr : some (t, item) = r at h
  induction h with
  | out => cases hr
  | found hpoll =>
      cases hr
      exact hpoll
  | stop => cases hr
  | wait _ _ _ ih => exact ih hr

theorem PopLoop.mem {m m' : MapQueue} {deadline : Option Int} {t : Int} {readings : List Int}
    {item : JobId × MapEntry} (h : m.PopLoop deadline readings (some (t, item)) m') : t ∈ readings := by
  generalize hr : some (t, item) = r at h
  induction h with
  | out => cases hr
  | found _ =>
      cases hr
      exact List.mem_cons_self
  | stop => cases hr
  | wait _ _ _ ih => exact List.mem_cons_of_mem _ (ih hr)

theorem ready_drop {m : MapQueue} {t : Int} {jobId : JobId} {item : JobId × MapEntry} :
    (m.drop jobId).Ready t item ↔ m.Ready t item ∧ item.1 ≠ jobId := by
  unfold Ready drop
  by_cases hj : item.1 = jobId
  · rw [hj, Finmap.lookup_erase]
    simp
  · rw [Finmap.lookup_erase_ne hj]
    tauto

/-- A poll followed by the first `n` of the rest is the first `n + 1`, as long as nothing matures in
between. -/
theorem FirstN.cons {m m₁ m' : MapQueue} {s t : Int} {n : ℕ} {item : JobId × MapEntry}
    {items : List (JobId × MapEntry)} (hst : s ≤ t) (hpoll : m.Poll s (some item) m₁)
    (hsame : ∀ other, m.Ready t other → m.Ready s other) (hrest : m₁.FirstN t n items m') :
    m.FirstN t (n + 1) (item :: items) m' := by
  obtain ⟨hready, hbest, rfl⟩ := hpoll
  have hback : ∀ other, (m.drop item.1).Ready t other → m.Ready t other ∧ other.1 ≠ item.1 :=
    fun other h => ready_drop.mp h
  refine ⟨?_, ?_, ?_, hrest.left, ?_⟩
  · rw [List.length_cons]
    exact Nat.succ_le_succ hrest.length_le
  · intro x hx
    rcases List.mem_cons.mp hx with rfl | hx
    · exact ⟨hready.1, hready.2.trans hst⟩
    · exact (hback x (hrest.ready x hx)).1
  · rw [List.pairwise_cons]
    refine ⟨?_, hrest.ordered⟩
    intro x hx
    have hx' := hback x (hrest.ready x hx)
    exact ⟨hx'.2.symm, hbest x (hsame x hx'.1)⟩
  · intro other hother
    obtain ⟨hlen, hprec⟩ := hrest.behind other hother
    have hmem : (m.drop item.1).Ready t other := by
      rw [hrest.left] at hother
      clear hlen hprec
      generalize m.drop item.1 = m₁ at hother ⊢
      clear hrest hback
      induction items generalizing m₁ with
      | nil => exact hother
      | cons y ys ih => exact (ready_drop.mp (ih _ hother)).1
    refine ⟨by rw [List.length_cons, hlen], ?_⟩
    intro x hx
    rcases List.mem_cons.mp hx with rfl | hx
    · exact hbest other (hsame other (hback other hmem).1)
    · exact hprec x hx

theorem FirstN.none {m : MapQueue} {t : Int} (n : ℕ) (h : ∀ item, ¬ m.Ready t item) :
    m.FirstN t n [] m :=
  ⟨Nat.zero_le _, by simp, List.Pairwise.nil, rfl, fun other hother => absurd hother (h other)⟩

theorem FirstN.zero (m : MapQueue) (t : Int) : m.FirstN t 0 [] m :=
  ⟨Nat.zero_le _, by simp, List.Pairwise.nil, rfl, fun _ _ => ⟨rfl, by simp⟩⟩

/-- Entries have seqs that were handed out, and no two have the same. -/
structure Sound (m : MapQueue) : Prop where
  seq_lt : ∀ jobId a, m.entries.lookup jobId = some a → a.seq < m.nextSeq
  seq_inj : ∀ jobId jobId' a a', m.entries.lookup jobId = some a → m.entries.lookup jobId' = some a' →
    a.seq = a'.seq → jobId = jobId'

/-- The entries with the seqs `gone` have left on the way from `m` to `m'`: they were in `m` or were
pushed after it, no seq is listed twice, and none is in `m'` or can come back. -/
structure Leaves (m : MapQueue) (gone : List Int) (m' : MapQueue) : Prop where
  sound : m'.Sound
  nodup : gone.Nodup
  source : ∀ s ∈ gone, (∃ jobId a, m.entries.lookup jobId = some a ∧ a.seq = s) ∨ m.nextSeq ≤ s
  absent : ∀ s ∈ gone, s < m'.nextSeq ∧ ∀ jobId a, m'.entries.lookup jobId = some a → a.seq ≠ s
  kept : ∀ jobId a, m'.entries.lookup jobId = some a →
    m.entries.lookup jobId = some a ∨ m.nextSeq ≤ a.seq
  nextSeq_le : m.nextSeq ≤ m'.nextSeq

theorem Leaves.refl {m : MapQueue} (h : m.Sound) : m.Leaves [] m :=
  ⟨h, List.nodup_nil, by simp, by simp, fun _ _ ha => Or.inl ha, le_refl _⟩

theorem Leaves.trans {m m₁ m' : MapQueue} {gone gone' : List Int} (h : m.Leaves gone m₁)
    (h' : m₁.Leaves gone' m') : m.Leaves (gone ++ gone') m' := by
  refine ⟨h'.sound, ?_, ?_, ?_, ?_, h.nextSeq_le.trans h'.nextSeq_le⟩
  · refine List.Nodup.append h.nodup h'.nodup ?_
    intro s hs hs'
    obtain ⟨hlt, hout⟩ := h.absent s hs
    rcases h'.source s hs' with ⟨jobId, a, ha, hseq⟩ | hle
    · exact hout jobId a ha hseq
    · exact absurd hlt (not_lt.mpr hle)
  · intro s hs
    rcases List.mem_append.mp hs with hs | hs
    · exact h.source s hs
    · rcases h'.source s hs with ⟨jobId, a, ha, rfl⟩ | hle
      · rcases h.kept jobId a ha with ha | hle
        · exact Or.inl ⟨jobId, a, ha, rfl⟩
        · exact Or.inr hle
      · exact Or.inr (h.nextSeq_le.trans hle)
  · intro s hs
    rcases List.mem_append.mp hs with hs | hs
    · obtain ⟨hlt, hout⟩ := h.absent s hs
      refine ⟨hlt.trans_le h'.nextSeq_le, ?_⟩
      intro jobId a ha hseq
      rcases h'.kept jobId a ha with ha | hle
      · exact hout jobId a ha hseq
      · omega
    · exact h'.absent s hs
  · intro jobId a ha
    rcases h'.kept jobId a ha with ha | hle
    · exact h.kept jobId a ha
    · exact Or.inr (h.nextSeq_le.trans hle)

theorem lookup_drop {m : MapQueue} {jobId jobId' : JobId} {a : MapEntry} :
    (m.drop jobId).entries.lookup jobId' = some a ↔
      m.entries.lookup jobId' = some a ∧ jobId' ≠ jobId := by
  unfold drop
  by_cases hj : jobId' = jobId
  · rw [hj, Finmap.lookup_erase]
    simp
  · rw [Finmap.lookup_erase_ne hj]
    tauto

theorem lookup_of_foldl_drop {items : List (JobId × MapEntry)} {m : MapQueue} {jobId : JobId} {a : MapEntry}
    (h : (items.foldl (fun m item => m.drop item.1) m).entries.lookup jobId = some a) :
    m.entries.lookup jobId = some a := by
  induction items generalizing m with
  | nil => exact h
  | cons item items ih => exact (lookup_drop.mp (ih h)).1

theorem foldl_drop_of_lookup {items : List (JobId × MapEntry)} {m : MapQueue} {jobId : JobId} {a : MapEntry}
    (h : m.entries.lookup jobId = some a) (hitems : ∀ item ∈ items, item.1 ≠ jobId) :
    (items.foldl (fun m item => m.drop item.1) m).entries.lookup jobId = some a := by
  induction items generalizing m with
  | nil => exact h
  | cons item items ih =>
      refine ih (lookup_drop.mpr ⟨h, (hitems item List.mem_cons_self).symm⟩) fun x hx => ?_
      exact hitems x (List.mem_cons_of_mem _ hx)

/-- A matured entry comes before every item that does not precede it. -/
theorem FirstN.before {m m' : MapQueue} {t : Int} {n : ℕ} {items : List (JobId × MapEntry)} {a b : JobId × MapEntry}
    (h : m.FirstN t n items m') (ha : m.Ready t a) (hb : b ∈ items) (hab : ¬ b.2.Precedes a.2) :
    [a, b].Sublist items := by
  obtain ⟨before, after, rfl⟩ := List.append_of_mem hb
  by_cases hmem : a ∈ before
  · exact (List.singleton_sublist.mpr hmem).append (List.singleton_sublist.mpr List.mem_cons_self)
  · -- it is neither left behind nor after `b`
    exfalso
    by_cases hafter : ∃ x ∈ before ++ b :: after, x.1 = a.1
    · obtain ⟨x, hx, hid⟩ := hafter
      have hlook := (h.ready x hx).1
      rw [hid, ha.1, Option.some.injEq] at hlook
      obtain rfl : a = x := Prod.ext hid.symm hlook
      have hafter : a ∈ b :: after := (List.mem_append.mp hx).resolve_left hmem
      rcases List.mem_cons.mp hafter with rfl | hafter
      · exact hab (.inr ⟨rfl, le_rfl⟩)
      · exact hab (List.rel_of_pairwise_cons (List.pairwise_append.mp h.ordered).2.1 hafter).2
    · push Not at hafter
      refine hab ((h.behind a ⟨?_, ha.2⟩).2 b hb)
      rw [h.left]
      exact foldl_drop_of_lookup ha.1 hafter

/-- So it does in a batch, if it has matured when the batch is begun. -/
theorem popBatch_before {m m' : MapQueue} {n : ℕ} {waitMs start now : Int} {readings : List Int}
    {items : List (JobId × MapEntry)} {a b : JobId × MapEntry}
    (h : m.Step (.popBatch n waitMs start readings now) (.popped items) m')
    (ha : m.entries.lookup a.1 = some a.2) (hready : ∀ t ∈ readings ++ [now], a.2.readyAtMs ≤ t)
    (hb : m.entries.lookup b.1 = some b.2) (hmem : b.1 ∈ items.map Prod.fst) (hab : ¬ b.2.Precedes a.2) :
    [a.1, b.1].Sublist (items.map Prod.fst) := by
  rcases h with ⟨-, hitems, -⟩ | ⟨-, -, hitems⟩ | ⟨t, item, m₁, rest, -, hloop, hfirst, hitems, -⟩
  · cases hitems
    cases hmem
  · cases hitems
    cases hmem
  · cases hitems
    obtain ⟨hitem, hbest, rfl⟩ := hloop.poll
    have hat : m.Ready t a := ⟨ha, hready t (List.mem_append_left _ hloop.mem)⟩
    rcases List.mem_cons.mp hmem with hid | hmem
    · have hlook := hitem.1
      rw [← hid, hb, Option.some.injEq] at hlook
      exact absurd (hlook ▸ hbest a hat) hab
    · obtain ⟨x, hx, hid⟩ := List.mem_map.mp hmem
      have hlook := (lookup_drop.mp (hfirst.ready x hx).1).1
      rw [hid, hb, Option.some.injEq] at hlook
      obtain rfl : b = x := Prod.ext hid.symm hlook
      by_cases hsame : item.1 = a.1
      · rw [List.map_cons, hsame]
        exact (List.singleton_sublist.mpr hmem).cons_cons _
      · have hstay : (m.drop item.1).Ready now a := ready_drop.mpr ⟨⟨ha, hready now (by simp)⟩, Ne.symm hsame⟩
        exact ((hfirst.before hstay hx hab).map Prod.fst).cons _

theorem Sound.drop {m : MapQueue} (h : m.Sound) (jobId : JobId) : (m.drop jobId).Sound :=
  ⟨fun id a ha => h.seq_lt id a (lookup_drop.mp ha).1,
    fun id id' a a' ha ha' => h.seq_inj id id' a a' (lookup_drop.mp ha).1 (lookup_drop.mp ha').1⟩

theorem Leaves.drop {m : MapQueue} (h : m.Sound) (jobId : JobId) :
    m.Leaves ((m.entries.lookup jobId).toList.map (·.seq)) (m.drop jobId) := by
  have hmem : ∀ s ∈ (m.entries.lookup jobId).toList.map (·.seq),
      ∃ a, m.entries.lookup jobId = some a ∧ a.seq = s := by
    intro s hs
    obtain ⟨a, ha, rfl⟩ := List.mem_map.mp hs
    exact ⟨a, Option.mem_toList.mp ha, rfl⟩
  refine ⟨h.drop jobId, ?_, ?_, ?_, ?_, le_refl _⟩
  · cases m.entries.lookup jobId <;> simp
  · intro s hs
    obtain ⟨a, ha, hseq⟩ := hmem s hs
    exact Or.inl ⟨jobId, a, ha, hseq⟩
  · intro s hs
    obtain ⟨a, ha, rfl⟩ := hmem s hs
    refine ⟨h.seq_lt jobId a ha, ?_⟩
    intro jobId' a' ha' hseq
    obtain ⟨ha', hne⟩ := lookup_drop.mp ha'
    exact hne (h.seq_inj _ _ _ _ ha' ha hseq)
  · exact fun id a ha => Or.inl (lookup_drop.mp ha).1

/-- Popping entries of different jobs takes exactly these entries out. -/
theorem Leaves.foldl_drop {items : List (JobId × MapEntry)} :
    ∀ {m : MapQueue}, m.Sound → (∀ item ∈ items, m.entries.lookup item.1 = some item.2) →
      items.Pairwise (fun a b => a.1 ≠ b.1) →
      m.Leaves (items.map (·.2.seq)) (items.foldl (fun m item => m.drop item.1) m) := by
  induction items with
  | nil => exact fun h _ _ => Leaves.refl h
  | cons item items ih =>
      intro m h hin hne
      rw [List.pairwise_cons] at hne
      have hfirst := Leaves.drop h item.1
      rw [hin item List.mem_cons_self] at hfirst
      refine hfirst.trans (ih (h.drop item.1) ?_ hne.2)
      intro x hx
      exact lookup_drop.mpr ⟨hin x (List.mem_cons_of_mem _ hx), (hne.1 x hx).symm⟩

theorem Leaves.insert {m : MapQueue} (h : m.Sound) (jobId : JobId) (priority readyAtMs : Int) :
    m.Leaves ((m.entries.lookup jobId).toList.map (·.seq))
      { m with
        entries := m.entries.insert jobId ⟨priority, m.nextSeq, readyAtMs⟩
        nextSeq := m.nextSeq + 1 } := by
  have hdrop := Leaves.drop h jobId
  have hlook : ∀ id a, (m.entries.insert jobId ⟨priority, m.nextSeq, readyAtMs⟩).lookup id = some a →
      (m.drop jobId).entries.lookup id = some a ∨ (id = jobId ∧ a.seq = m.nextSeq) := by
    intro id a ha
    by_cases hj : id = jobId
    · rw [hj, Finmap.lookup_insert, Option.some.injEq] at ha
      exact Or.inr ⟨hj, ha ▸ rfl⟩
    · rw [Finmap.lookup_insert_of_ne _ hj] at ha
      exact Or.inl (lookup_drop.mpr ⟨ha, hj⟩)
  refine ⟨⟨?_, ?_⟩, hdrop.nodup, hdrop.source, ?_, ?_, Int.le_of_lt (Int.lt_succ _)⟩
  · intro id a ha
    rcases hlook id a ha with ha | ⟨-, ha⟩
    · exact (hdrop.sound.seq_lt id a ha).trans (Int.lt_succ _)
    · exact ha ▸ Int.lt_succ _
  · intro id id' a a' ha ha' hseq
    rcases hlook id a ha with ha | ⟨hid, ha⟩ <;> rcases hlook id' a' ha' with ha' | ⟨hid', ha'⟩
    · exact hdrop.sound.seq_inj id id' a a' ha ha' hseq
    · have hlt : a.seq < m.nextSeq := hdrop.sound.seq_lt id a ha
      omega
    · have hlt : a'.seq < m.nextSeq := hdrop.sound.seq_lt id' a' ha'
      omega
    · exact hid.trans hid'.symm
  · intro s hs
    obtain ⟨hlt, hout⟩ := hdrop.absent s hs
    have hlt' : s < m.nextSeq := hlt
    refine ⟨hlt'.trans (Int.lt_succ _), ?_⟩
    intro id a ha
    rcases hlook id a ha with ha | ⟨-, ha⟩
    · exact hout id a ha
    · omega
  · intro id a ha
    rcases hlook id a ha with ha | ⟨-, ha⟩
    · exact hdrop.kept id a ha
    · exact Or.inr ha.ge

theorem Leaves.poll {m m' : MapQueue} {t : Int} {r : Option (JobId × MapEntry)} (h : m.Sound)
    (hpoll : m.Poll t r m') : m.Leaves (r.toList.map (·.2.seq)) m' := by
  cases r with
  | none =>
      rw [poll_none hpoll]
      exact Leaves.refl h
  | some item =>
      obtain ⟨hready, -, rfl⟩ := hpoll
      have hdrop := Leaves.drop h item.1
      rw [hready.1] at hdrop
      exact hdrop

theorem Leaves.popLoop {m m' : MapQueue} {deadline : Option Int} {readings : List Int}
    {r : Option (Int × (JobId × MapEntry))} (h : m.Sound) (hpop : m.PopLoop deadline readings r m') :
    m.Leaves ((r.map Prod.snd).toList.map (·.2.seq)) m' := by
  induction hpop with
  | out => exact Leaves.refl h
  | found hpoll => exact Leaves.poll h hpoll
  | stop => exact Leaves.refl h
  | wait _ _ _ ih => exact ih

theorem Leaves.firstN {m m' : MapQueue} {t : Int} {n : ℕ} {items : List (JobId × MapEntry)}
    (h : m.Sound) (hfirst : m.FirstN t n items m') : m.Leaves (items.map (·.2.seq)) m' := by
  rw [hfirst.left]
  exact Leaves.foldl_drop h (fun item hitem => (hfirst.ready item hitem).1)
    (hfirst.ordered.imp And.left)

theorem Step.leaves {m m' : MapQueue} {op : QueueOp} {a : QueueAnswer} (h : m.Sound)
    (hstep : m.Step op a m') : m.Leaves (m.departures op a) m' := by
  cases op with
  | push now jobId priority readyAtMs =>
      obtain ⟨rfl, rfl⟩ := hstep
      unfold push
      split_ifs
      · exact Leaves.refl h
      · exact Leaves.refl h
      · exact Leaves.insert h jobId priority readyAtMs
  | remove jobId =>
      obtain ⟨rfl, rfl⟩ := hstep
      exact Leaves.drop h jobId
  | poll now =>
      obtain ⟨r, hpoll, rfl⟩ := hstep
      exact Leaves.poll h hpoll
  | pop readings =>
      obtain ⟨r, hpop, rfl⟩ := hstep
      exact Leaves.popLoop h hpop
  | popFor timeoutMs start readings =>
      obtain ⟨r, hpop, rfl⟩ := hstep
      exact Leaves.popLoop h hpop
  | popBatch maxItems waitMs start readings now =>
      rcases hstep with ⟨-, rfl, rfl⟩ | ⟨-, hpop, rfl⟩ | ⟨t, item, m₁, items, -, hpop, hfirst, rfl, -⟩
      · exact Leaves.refl h
      · exact Leaves.popLoop h hpop
      · have hitem := Leaves.popLoop h hpop
        exact hitem.trans (Leaves.firstN hitem.sound hfirst)
  | close =>
      obtain ⟨rfl, rfl⟩ := hstep
      exact ⟨⟨h.seq_lt, h.seq_inj⟩, List.nodup_nil, fun _ hs => absurd hs List.not_mem_nil,
        fun _ hs => absurd hs List.not_mem_nil, fun _ _ ha => Or.inl ha, le_refl _⟩
  | size =>
      obtain ⟨rfl, rfl⟩ := hstep
      exact Leaves.refl h

/-- **No entry leaves twice.** -/
theorem Run.leaves {m m' : MapQueue} {calls : List (QueueOp × QueueAnswer)} {gone : List Int}
    (hrun : m.Run calls gone m') : m.Sound → m.Leaves gone m' := by
  induction hrun with
  | nil m => exact Leaves.refl
  | cons hstep _ ih =>
      intro h
      have hl := hstep.leaves h
      exact hl.trans (ih hl.sound)

theorem sound_empty (capacity : ℕ) : (empty capacity).Sound :=
  ⟨fun _ _ ha => absurd ha (by simp [empty]), fun _ _ _ _ ha => absurd ha (by simp [empty])⟩

end MapQueue

end DistributedJobEngine
