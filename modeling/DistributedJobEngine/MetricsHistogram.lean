import Mathlib.Data.List.Sort
import Mathlib.Data.Rat.Floor
import Mathlib.Tactic

/-! The latency histogram of `metrics.cpp` against the observations it was given. The edges of its buckets double;
the percentile that it estimates is the upper edge of the bucket of the true one. The counters are natural numbers and
`double`s rationals. -/

namespace DistributedJobEngine

/-- The upper edge of a bucket, in microseconds. -/
def bucketUpperUs : ℕ → Int
  | 0 => 16
  | i + 1 => bucketUpperUs i * 2

def kBuckets : ℕ := 24

/-- The search of `observe` for a bucket, which the last bucket ends. -/
def bucketLoop (microseconds : Int) : ℕ → ℕ → ℕ
  | 0, idx => idx
  | rounds + 1, idx =>
      if bucketUpperUs idx < microseconds then bucketLoop microseconds rounds (idx + 1) else idx

structure Histogram where
  buckets : List ℕ := List.replicate kBuckets 0
  count : ℕ := 0
  sumUs : Int := 0
  maxUs : Int := 0
  length_buckets : buckets.length = kBuckets := by simp

namespace Histogram

def observe (h : Histogram) (microseconds : Int) : Histogram where
  buckets := h.buckets.modify (bucketLoop (max 0 microseconds) (kBuckets - 1) 0) (· + 1)
  count := h.count + 1
  sumUs := h.sumUs + max 0 microseconds
  maxUs := max h.maxUs (max 0 microseconds)
  length_buckets := by rw [List.length_modify, h.length_buckets]

/-- The scan of `percentile_us` over the buckets from `i` on. -/
def scan (target : ℚ) : List ℕ → ℕ → ℕ → Int
  | [], _, _ => bucketUpperUs (kBuckets - 1)
  | n :: rest, i, cumulative =>
      if target ≤ ((cumulative + n : ℕ) : ℚ) then bucketUpperUs i else scan target rest (i + 1) (cumulative + n)

def percentileUs (h : Histogram) (p : ℚ) : Int :=
  if h.count = 0 then 0 else scan (p / 100 * h.count) h.buckets 0 0

/-- The histogram after a sequence of observations. -/
def ofList (obs : List Int) : Histogram := obs.foldl observe {}

end Histogram

/-- The nearest-rank percentile of a sequence: the element of that rank among all of them in order. -/
def nearestRank (obs : List Int) (p : ℚ) : Int :=
  (obs.insertionSort (· ≤ ·)).getD (⌈p / 100 * obs.length⌉.toNat - 1) 0

/-- The bucket with the given number contains the value: it covers what lies above the edge before its own. -/
def InBucket (i : ℕ) (x : Int) : Prop := x ≤ bucketUpperUs i ∧ ∀ k < i, bucketUpperUs k < x

/-! ### Buckets -/

theorem bucketUpperUs_pos (i : ℕ) : 0 < bucketUpperUs i := by
  induction i with
  | zero => decide
  | succ i ih =>
      rw [bucketUpperUs]
      omega

theorem bucketUpperUs_mono {i k : ℕ} (h : i ≤ k) : bucketUpperUs i ≤ bucketUpperUs k := by
  induction h with
  | refl => exact le_rfl
  | @step k _ ih =>
      have hpos := bucketUpperUs_pos k
      rw [bucketUpperUs]
      omega

/-- The search ends at the bucket of the value, if the last bucket reaches so far. -/
theorem bucketLoop_inBucket {x : Int} (rounds idx : ℕ) (hbefore : ∀ k < idx, bucketUpperUs k < x)
    (hlast : x ≤ bucketUpperUs (idx + rounds)) :
    InBucket (bucketLoop x rounds idx) x ∧ bucketLoop x rounds idx ≤ idx + rounds := by
  induction rounds generalizing idx with
  | zero => exact ⟨⟨hlast, hbefore⟩, le_rfl⟩
  | succ rounds ih =>
      rw [bucketLoop]
      split_ifs with hx
      · have hstep := ih (idx + 1) (fun k hk => ?_) (by rwa [Nat.add_right_comm])
        · exact ⟨hstep.1, by omega⟩
        · rcases Nat.lt_succ_iff_lt_or_eq.mp hk with hk | rfl
          · exact hbefore k hk
          · exact hx
      · exact ⟨⟨not_lt.mp hx, hbefore⟩, by omega⟩

theorem bucketLoop_zero {x : Int} (hx : x ≤ bucketUpperUs (kBuckets - 1)) :
    InBucket (bucketLoop x (kBuckets - 1) 0) x ∧ bucketLoop x (kBuckets - 1) 0 < kBuckets := by
  obtain ⟨hbucket, hlast⟩ := bucketLoop_inBucket (x := x) (kBuckets - 1) 0
    (fun k hk => absurd hk (Nat.not_lt_zero k)) (by rwa [Nat.zero_add])
  refine ⟨hbucket, ?_⟩
  unfold kBuckets at hlast ⊢
  omega

/-- A value lies in its bucket or below exactly if it is not above the edge. -/
theorem InBucket.le_iff {i k : ℕ} {x : Int} (h : InBucket i x) : i ≤ k ↔ x ≤ bucketUpperUs k := by
  constructor
  · intro hik
    exact h.1.trans (bucketUpperUs_mono hik)
  · intro hx
    by_contra hki
    exact absurd (h.2 k (not_le.mp hki)) (not_lt.mpr hx)

/-- The edges double, so a bucket that is not the first covers the upper half of what its edge covers. -/
theorem InBucket.half_lt {i : ℕ} {x : Int} (h : InBucket i x) :
    bucketUpperUs i = bucketUpperUs 0 ∨ (bucketUpperUs i : ℚ) / 2 < x := by
  cases i with
  | zero => exact .inl rfl
  | succ i =>
      right
      have hlow : (bucketUpperUs i : ℚ) < x := by exact_mod_cast h.2 i i.lt_succ_self
      rw [bucketUpperUs]
      push_cast
      linarith

/-! ### Counting -/

theorem sum_take_modify {l : List ℕ} {idx : ℕ} (h : idx < l.length) (i : ℕ) :
    ((l.modify idx (· + 1)).take i).sum = (l.take i).sum + if idx < i then 1 else 0 := by
  induction l generalizing idx i with
  | nil => cases h
  | cons n l ih =>
      cases i with
      | zero => simp
      | succ i =>
          cases idx with
          | zero =>
              simp only [List.modify_zero_cons, List.take_succ_cons, List.sum_cons, Nat.zero_lt_succ, if_true]
              omega
          | succ idx =>
              simp only [List.modify_succ_cons, List.take_succ_cons, List.sum_cons, Nat.succ_lt_succ_iff]
              rw [ih (Nat.lt_of_succ_lt_succ h), Nat.add_assoc]

namespace Histogram

theorem buckets_observe (h : Histogram) (x : Int) : (h.observe x).buckets =
    h.buckets.modify (bucketLoop (max 0 x) (kBuckets - 1) 0) (· + 1) := rfl

/-- One observation is counted in its bucket. -/
theorem sum_take_observe (h : Histogram) {x : Int} {i : ℕ} (h0 : 0 ≤ x) (hx : x ≤ bucketUpperUs (kBuckets - 1)) :
    ((h.observe x).buckets.take (i + 1)).sum =
      (h.buckets.take (i + 1)).sum + if x ≤ bucketUpperUs i then 1 else 0 := by
  obtain ⟨hbucket, hlast⟩ := bucketLoop_zero hx
  rw [buckets_observe, max_eq_right h0, sum_take_modify (by rwa [h.length_buckets])]
  simp only [Nat.lt_succ_iff, hbucket.le_iff]

/-- **The cumulative counts** are the numbers of observations up to each edge. -/
theorem sum_take_foldl {obs : List Int} (hobs : ∀ x ∈ obs, 0 ≤ x ∧ x ≤ bucketUpperUs (kBuckets - 1)) (h : Histogram)
    (i : ℕ) : ((obs.foldl observe h).buckets.take (i + 1)).sum =
      (h.buckets.take (i + 1)).sum + obs.countP (· ≤ bucketUpperUs i) := by
  induction obs generalizing h with
  | nil => simp
  | cons x obs ih =>
      rw [List.forall_mem_cons] at hobs
      rw [List.foldl_cons, ih hobs.2, sum_take_observe h hobs.1.1 hobs.1.2, List.countP_cons]
      simp only [decide_eq_true_eq]
      omega

theorem sum_take_ofList {obs : List Int} (hobs : ∀ x ∈ obs, 0 ≤ x ∧ x ≤ bucketUpperUs (kBuckets - 1)) (i : ℕ) :
    ((ofList obs).buckets.take (i + 1)).sum = obs.countP (· ≤ bucketUpperUs i) := by
  rw [ofList, sum_take_foldl hobs]
  simp

theorem count_foldl (obs : List Int) (h : Histogram) : (obs.foldl observe h).count = h.count + obs.length := by
  induction obs generalizing h with
  | nil => rfl
  | cons x obs ih =>
      rw [List.foldl_cons, ih, List.length_cons, Nat.add_comm obs.length, ← Nat.add_assoc]
      rfl

theorem count_ofList (obs : List Int) : (ofList obs).count = obs.length := by
  rw [ofList, count_foldl, Nat.zero_add]

/-- The scan stops at the first bucket at which the cumulative count reaches the target. -/
theorem scan_eq {target : ℚ} {l : List ℕ} {k : ℕ} (hk : k < l.length) (i cumulative : ℕ)
    (hreach : target ≤ ((cumulative + (l.take (k + 1)).sum : ℕ) : ℚ))
    (hfirst : ∀ m < k, ((cumulative + (l.take (m + 1)).sum : ℕ) : ℚ) < target) :
    scan target l i cumulative = bucketUpperUs (i + k) := by
  induction l generalizing i cumulative k with
  | nil => cases hk
  | cons n l ih =>
      rw [scan]
      cases k with
      | zero =>
          rw [if_pos (by simpa using hreach), Nat.add_zero]
      | succ k =>
          have hzero := hfirst 0 k.succ_pos
          rw [if_neg (not_le.mpr (by simpa using hzero)),
            ih (k := k) (Nat.lt_of_succ_lt_succ hk) (i + 1) (cumulative + n) ?_ fun m hm => ?_]
          · rw [Nat.add_right_comm, Nat.add_assoc]
          · rwa [List.take_succ_cons, List.sum_cons, ← Nat.add_assoc] at hreach
          · have hm' := hfirst (m + 1) (Nat.succ_lt_succ hm)
            rwa [List.take_succ_cons, List.sum_cons, ← Nat.add_assoc] at hm'

end Histogram

/-! ### Ranks -/

/-- In a sorted list the element of a rank is below a bound exactly if so many elements are. -/
theorem getElem_le_iff_of_sorted {l : List Int} (hl : l.Pairwise (· ≤ ·)) {k : ℕ} (hk : k < l.length) (bound : Int) :
    l[k] ≤ bound ↔ k < l.countP (· ≤ bound) := by
  induction l generalizing k with
  | nil => cases hk
  | cons a l ih =>
      rw [List.pairwise_cons] at hl
      rw [List.countP_cons]
      by_cases ha : a ≤ bound
      · rw [if_pos (decide_eq_true ha)]
        cases k with
        | zero => exact iff_of_true ha (Nat.succ_pos _)
        | succ k =>
            rw [List.getElem_cons_succ, ih hl.2 (Nat.lt_of_succ_lt_succ hk), Nat.succ_lt_succ_iff]
      · have hnone : l.countP (· ≤ bound) = 0 := by
          rw [List.countP_eq_zero]
          intro b hb hle
          exact ha ((hl.1 b hb).trans (of_decide_eq_true hle))
        rw [if_neg (by simpa using ha), hnone]
        refine iff_of_false (fun hle => ha ?_) (Nat.not_lt_zero k)
        cases k with
        | zero => exact hle
        | succ k => exact (hl.1 _ (List.getElem_mem (Nat.lt_of_succ_lt_succ hk))).trans hle

variable {obs : List Int} {p : ℚ}

/-- The rank of a percentile is one of the ranks there are. -/
theorem rank_mem (hne : obs ≠ []) (h0 : 0 < p) (h : p ≤ 100) :
    1 ≤ ⌈p / 100 * obs.length⌉.toNat ∧ ⌈p / 100 * obs.length⌉.toNat ≤ obs.length := by
  have hlength : (0 : ℚ) < obs.length := by exact_mod_cast List.length_pos_iff.mpr hne
  have hpos : 0 < ⌈p / 100 * obs.length⌉ := Int.ceil_pos.mpr (by positivity)
  have hle : ⌈p / 100 * obs.length⌉ ≤ (obs.length : Int) := by
    rw [Int.ceil_le]
    push_cast
    have hp : p / 100 ≤ 1 := by linarith
    nlinarith
  omega

/-- The percentile as an element of the sorted sequence. -/
theorem exists_nearestRank_eq (hne : obs ≠ []) (h0 : 0 < p) (h : p ≤ 100) :
    ∃ hk : ⌈p / 100 * obs.length⌉.toNat - 1 < (obs.insertionSort (· ≤ ·)).length,
      nearestRank obs p = (obs.insertionSort (· ≤ ·))[⌈p / 100 * obs.length⌉.toNat - 1] := by
  obtain ⟨hone, hle⟩ := rank_mem hne h0 h
  have hk : ⌈p / 100 * obs.length⌉.toNat - 1 < (obs.insertionSort (· ≤ ·)).length := by
    rw [(List.perm_insertionSort (· ≤ ·) obs).length_eq]
    omega
  exact ⟨hk, by rw [nearestRank, List.getD_eq_getElem?_getD, List.getElem?_eq_getElem hk, Option.getD_some]⟩

/-- **The nearest-rank percentile is below a bound exactly if the count up to the bound reaches the target.** -/
theorem nearestRank_le_iff (hne : obs ≠ []) (h0 : 0 < p) (h : p ≤ 100) (bound : Int) :
    nearestRank obs p ≤ bound ↔ p / 100 * obs.length ≤ ((obs.countP (· ≤ bound) : ℕ) : ℚ) := by
  have hone := (rank_mem hne h0 h).1
  obtain ⟨hk, hrank⟩ := exists_nearestRank_eq hne h0 h
  rw [hrank, getElem_le_iff_of_sorted (List.pairwise_insertionSort _ _) hk,
    (List.perm_insertionSort (· ≤ ·) obs).countP_eq]
  have hceil : p / 100 * obs.length ≤ ((obs.countP (· ≤ bound) : ℕ) : ℚ) ↔
      ⌈p / 100 * obs.length⌉ ≤ (obs.countP (· ≤ bound) : Int) := by
    rw [Int.ceil_le]
    push_cast
    rfl
  rw [hceil]
  omega

/-! ### Percentiles -/

/-- The nearest-rank percentile is one of the observations. -/
theorem nearestRank_mem (hne : obs ≠ []) (h0 : 0 < p) (h : p ≤ 100) : nearestRank obs p ∈ obs := by
  obtain ⟨hk, hrank⟩ := exists_nearestRank_eq hne h0 h
  rw [hrank]
  exact (List.perm_insertionSort (· ≤ ·) obs).mem_iff.mp (List.getElem_mem hk)

/-- The estimate is the edge of the bucket of the percentile. -/
theorem exists_bucket_percentile (hne : obs ≠ []) (hobs : ∀ x ∈ obs, 0 ≤ x ∧ x ≤ bucketUpperUs (kBuckets - 1))
    (h0 : 0 < p) (h : p ≤ 100) : ∃ i < kBuckets, InBucket i (nearestRank obs p) ∧
      (Histogram.ofList obs).percentileUs p = bucketUpperUs i := by
  obtain ⟨i, hbucket, hlt⟩ : ∃ i, InBucket i (nearestRank obs p) ∧ i < kBuckets :=
    ⟨_, bucketLoop_zero (hobs _ (nearestRank_mem hne h0 h)).2⟩
  -- the cumulative count reaches the target exactly at the edges that the percentile does not exceed
  have hreach : ∀ k, p / 100 * obs.length ≤
      ((0 + ((Histogram.ofList obs).buckets.take (k + 1)).sum : ℕ) : ℚ) ↔ i ≤ k := by
    intro k
    rw [Nat.zero_add, Histogram.sum_take_ofList hobs, ← nearestRank_le_iff hne h0 h, ← hbucket.le_iff]
  refine ⟨i, hlt, hbucket, ?_⟩
  have hcount : (Histogram.ofList obs).count ≠ 0 := by
    rw [Histogram.count_ofList]
    exact fun hzero => hne (List.length_eq_zero_iff.mp hzero)
  rw [Histogram.percentileUs, if_neg hcount, Histogram.count_ofList,
    Histogram.scan_eq (k := i) (by rw [Histogram.length_buckets]; exact hlt) 0 0 ((hreach i).mpr le_rfl)
      fun m hm => ?_,
    Nat.zero_add]
  rw [← not_le, hreach m]
  omega

/-- **Percentiles.** The estimate is the upper edge of the bucket that contains the nearest-rank percentile, which is
therefore at most the estimate and, above the first bucket, more than half of it; and the estimate grows with `p`. -/
theorem histogram_percentile (hne : obs ≠ []) (hobs : ∀ x ∈ obs, 0 ≤ x ∧ x ≤ bucketUpperUs (kBuckets - 1))
    (h0 : 0 < p) (h : p ≤ 100) :
    (∃ i < kBuckets, InBucket i (nearestRank obs p) ∧ (Histogram.ofList obs).percentileUs p = bucketUpperUs i) ∧
      nearestRank obs p ≤ (Histogram.ofList obs).percentileUs p ∧
      ((Histogram.ofList obs).percentileUs p = bucketUpperUs 0 ∨
        ((Histogram.ofList obs).percentileUs p : ℚ) / 2 < nearestRank obs p) ∧
      ∀ p' ≥ p, p' ≤ 100 → (Histogram.ofList obs).percentileUs p ≤ (Histogram.ofList obs).percentileUs p' := by
  obtain ⟨i, hi, hbucket, hedge⟩ := exists_bucket_percentile hne hobs h0 h
  refine ⟨⟨i, hi, hbucket, hedge⟩, hedge ▸ hbucket.1, by rw [hedge]; exact hbucket.half_lt, fun p' hp h' => ?_⟩
  obtain ⟨i', -, hbucket', hedge'⟩ := exists_bucket_percentile hne hobs (h0.trans_le hp) h'
  -- what the larger target reaches, the smaller one reaches too
  have hrank : nearestRank obs p ≤ bucketUpperUs i' := by
    have hreach := (nearestRank_le_iff hne (h0.trans_le hp) h' _).mp hbucket'.1
    refine (nearestRank_le_iff hne h0 h _).mpr (le_trans ?_ hreach)
    gcongr
  rw [hedge, hedge']
  exact bucketUpperUs_mono (hbucket.le_iff.mpr hrank)

/-- Three observations, one of them at the edge of the first bucket. -/
theorem histogram_percentile_median :
    nearestRank [16, 700, 17] 50 = 17 ∧ (Histogram.ofList [16, 700, 17]).percentileUs 50 = 32 ∧
      (Histogram.ofList [16, 700, 17]).percentileUs 50 ≤ (Histogram.ofList [16, 700, 17]).percentileUs 99 := by
  have hmain := @histogram_percentile [16, 700, 17] 50 (by simp) (by decide +kernel) (by norm_num) (by norm_num)
  exact ⟨by decide +kernel, by decide +kernel, hmain.2.2.2 99 (by norm_num) (by norm_num)⟩

end DistributedJobEngine
