import DistributedJobEngine.Job

/-! The backoff of a retry policy with an integer multiplier against its closed form, the power cut off at
`backoff_max_ms`. The loop stops at the first product that reaches the cap; this product is rounded to a
`long long` before it is cut off, and may be too large for one. -/

namespace DistributedJobEngine

namespace RetryPolicy

/-- The range of `long long`. -/
def InLong (v : Int) : Prop := -2 ^ 63 ≤ v ∧ v < 2 ^ 63

instance (v : Int) : Decidable (InLong v) := inferInstanceAs (Decidable (_ ∧ _))

/-- What `std::llround` may be: where the rounded number is no `long long`, its result is unspecified. -/
structure Rounds (round : ℚ → Int) : Prop where
  exact : ∀ d, InLong (llround d) → round d = llround d
  range : ∀ d, InLong (round d)

/-- `delay_after_attempt` with a library that rounds by `round`. -/
def delayOn (round : ℚ → Int) (p : RetryPolicy) (failedAttempt : Int) (draw : UInt64) : Int :=
  let n := max 1 failedAttempt
  p.clampDelay (round (p.backoffLoop (n - 1).toNat p.backoffBaseMs)) draw

/-- A policy of whole numbers, all products of which below the cap are exact. -/
structure Whole (p : RetryPolicy) (base m cap : ℕ) : Prop where
  base_eq : p.backoffBaseMs = base
  multiplier_eq : p.backoffMultiplier = m
  max_eq : p.backoffMaxMs = cap
  one_le : 1 ≤ m
  base_lt : base < 2 ^ 53
  cap_lt : cap < 2 ^ 53

/-- The closed form of the backoff after the `n`-th attempt. -/
def cappedPower (base m cap : ℕ) (n : Int) : Int := ((min (base * m ^ (n - 1).toNat) cap : ℕ) : Int)

/-- With this library the delays are given by the closed form, grow and stay below the cap, and jitter stays below
them. -/
def Backs (round : ℚ → Int) (p : RetryPolicy) (base m cap : ℕ) : Prop :=
  ∀ n : Int, 1 ≤ n → ∀ draw,
    ({ p with jitter := false }.delayOn round n draw = cappedPower base m cap n ∧
      ∀ n' ≥ n, { p with jitter := false }.delayOn round n draw ≤ { p with jitter := false }.delayOn round n' draw) ∧
    { p with jitter := false }.delayOn round n draw ≤ p.backoffMaxMs ∧
      0 ≤ { p with jitter := true }.delayOn round n draw ∧
        { p with jitter := true }.delayOn round n draw ≤ cappedPower base m cap n

/-- No product that the loop forms is too large for a `long long`. -/
def Contained (base m cap : ℕ) : Prop :=
  0 < cap → ∀ i, i = 0 ∨ base * m ^ i < cap → base * m ^ (i + 1) < 2 ^ 63

variable {p : RetryPolicy} {base m cap : ℕ} {round : ℚ → Int}

/-! ### The loop -/

/-- **The loop ends at a power**: the last one, or the first that reaches the cap after one multiplication. -/
theorem backoffLoop_eq (h : p.Whole base m cap) (k i : ℕ) :
    ∃ j ≤ i + k, p.backoffLoop k ((base * m ^ i : ℕ) : ℚ) = ((base * m ^ j : ℕ) : ℚ) ∧
      (j = i + k ∨ i < j ∧ cap ≤ base * m ^ j) ∧ ∀ l, i < l → l < j → base * m ^ l < cap := by
  induction k generalizing i with
  | zero => exact ⟨i, le_rfl, rfl, .inl rfl, fun l hil hli => absurd hil (by omega)⟩
  | succ k ih =>
      have hproduct : ((base * m ^ i : ℕ) : ℚ) * p.backoffMultiplier = ((base * m ^ (i + 1) : ℕ) : ℚ) := by
        rw [h.multiplier_eq, pow_succ, ← mul_assoc]
        push_cast
        rfl
      rw [backoffLoop, hproduct, h.max_eq]
      split_ifs with hcap
      · have hreach : cap ≤ base * m ^ (i + 1) := by exact_mod_cast hcap
        exact ⟨i + 1, by omega, rfl, .inr ⟨by omega, hreach⟩, fun l hil hli => absurd hil (by omega)⟩
      · have hbelow : base * m ^ (i + 1) < cap := by
          rw [not_le] at hcap
          exact_mod_cast hcap
        obtain ⟨j, hj, hloop, hend, hbetween⟩ := ih (i + 1)
        refine ⟨j, by omega, hloop, ?_, fun l hil hlj => ?_⟩
        · rcases hend with hend | ⟨hij, hreach⟩
          · exact .inl (by omega)
          · exact .inr ⟨by omega, hreach⟩
        · rcases Nat.eq_or_lt_of_le (Nat.succ_le_of_lt hil) with rfl | hil
          · exact hbelow
          · exact hbetween l hil hlj

theorem llround_natCast (v : ℕ) : llround (v : ℚ) = v := by
  rw [llround, if_pos (Nat.cast_nonneg v), Int.floor_eq_iff]
  push_cast
  constructor <;> linarith

/-- Past the cap all powers are cut off alike. -/
theorem min_power_eq {j k : ℕ} (hm : 1 ≤ m) (hjk : j ≤ k) (h : j = k ∨ cap ≤ base * m ^ j) :
    min (base * m ^ j) cap = min (base * m ^ k) cap := by
  rcases h with rfl | hreach
  · rfl
  · have hgrow : base * m ^ j ≤ base * m ^ k := Nat.mul_le_mul_left base (Nat.pow_le_pow_right hm hjk)
    rw [min_eq_right hreach, min_eq_right (hreach.trans hgrow)]

theorem cappedPower_mono (hm : 1 ≤ m) {n n' : Int} (h : n ≤ n') :
    cappedPower base m cap n ≤ cappedPower base m cap n' := by
  have hpow : base * m ^ (n - 1).toNat ≤ base * m ^ (n' - 1).toNat :=
    Nat.mul_le_mul_left base (Nat.pow_le_pow_right hm (by omega))
  exact Int.ofNat_le.mpr (min_le_min_right cap hpow)

/-! ### Rounding -/

/-- What the loop of the `n`-th attempt ends at, with what is known about its exponent. -/
theorem Whole.delayOn_eq (h : p.Whole base m cap) (round : ℚ → Int) (n : Int) :
    ∃ j ≤ (n - 1).toNat, (∀ draw, p.delayOn round n draw = p.clampDelay (round ((base * m ^ j : ℕ) : ℚ)) draw) ∧
      (j = (n - 1).toNat ∨ 0 < j ∧ cap ≤ base * m ^ j) ∧ ∀ l, 0 < l → l < j → base * m ^ l < cap := by
  obtain ⟨j, hj, hloop, hend, hbetween⟩ := backoffLoop_eq h (n - 1).toNat 0
  rw [Nat.zero_add] at hj hend
  refine ⟨j, hj, fun draw => ?_, hend, hbetween⟩
  have hiterations : (max 1 n - 1).toNat = (n - 1).toNat := by omega
  have hstart : ((p.backoffBaseMs : Int) : ℚ) = ((base * m ^ 0 : ℕ) : ℚ) := by
    rw [h.base_eq, pow_zero, mul_one]
    rfl
  rw [delayOn, hiterations, hstart, hloop]

/-- The product at which the loop ends is rounded to itself, if the cap is not zero. -/
theorem Contained.round_eq {j : ℕ} (h : Contained base m cap) (hw : p.Whole base m cap) (hround : Rounds round)
    (hcap : 0 < cap) (hbelow : ∀ l, 0 < l → l < j → base * m ^ l < cap) :
    round ((base * m ^ j : ℕ) : ℚ) = ((base * m ^ j : ℕ) : Int) := by
  have hfits : base * m ^ j < 2 ^ 63 := by
    cases j with
    | zero =>
        have hbase := hw.base_lt
        rw [pow_zero, mul_one]
        omega
    | succ j =>
        refine h hcap j ?_
        rcases Nat.eq_zero_or_pos j with hj | hj
        · exact .inl hj
        · exact .inr (hbelow j hj j.lt_succ_self)
  rw [hround.exact, llround_natCast]
  rw [llround_natCast]
  exact ⟨by omega, by exact_mod_cast hfits⟩

/-- Without jitter the rounded product is cut off; with jitter the draw is cut off by that. -/
theorem clampDelay_whole (h : p.Whole base m cap) (rounded : Int) (draw : UInt64) :
    { p with jitter := false }.clampDelay rounded draw = max 0 (min rounded cap) ∧
      0 ≤ { p with jitter := true }.clampDelay rounded draw ∧
        { p with jitter := true }.clampDelay rounded draw ≤ max 0 (min rounded cap) := by
  unfold clampDelay
  dsimp only
  rw [h.max_eq]
  refine ⟨by simp, ?_⟩
  split_ifs with hpos
  · have hmod := Int.emod_nonneg (draw.toNat : Int) (show max 0 (min rounded (cap : Int)) + 1 ≠ 0 by omega)
    have hlt := Int.emod_lt_of_pos (draw.toNat : Int) (show 0 < max 0 (min rounded (cap : Int)) + 1 by omega)
    exact ⟨hmod, by omega⟩
  · exact ⟨by omega, le_rfl⟩

theorem Whole.withJitter (h : p.Whole base m cap) (jitter : Bool) : { p with jitter }.Whole base m cap :=
  ⟨h.base_eq, h.multiplier_eq, h.max_eq, h.one_le, h.base_lt, h.cap_lt⟩

/-- If no product is too large, what is left of the product after rounding is the closed form. -/
theorem Contained.clamped_eq {n : Int} {j : ℕ} (h : Contained base m cap) (hw : p.Whole base m cap)
    (hround : Rounds round) (hj : j ≤ (n - 1).toNat) (hend : j = (n - 1).toNat ∨ 0 < j ∧ cap ≤ base * m ^ j)
    (hbelow : ∀ l, 0 < l → l < j → base * m ^ l < cap) :
    max 0 (min (round ((base * m ^ j : ℕ) : ℚ)) (cap : Int)) = cappedPower base m cap n := by
  rcases Nat.eq_zero_or_pos cap with rfl | hcap
  · rw [cappedPower, Nat.min_zero]
    omega
  · have hsame := min_power_eq hw.one_le hj (hend.imp_right And.right)
    rw [h.round_eq hw hround hcap hbelow, cappedPower, ← hsame]
    omega

/-- A library whose `llround` gives the least `long long` where the rounded number is none, as on x86-64. -/
def wrapping (d : ℚ) : Int := if InLong (llround d) then llround d else -2 ^ 63

theorem rounds_wrapping : Rounds wrapping := by
  refine ⟨fun d hd => if_pos hd, fun d => ?_⟩
  unfold wrapping
  split_ifs with hd
  · exact hd
  · exact ⟨le_rfl, by norm_num⟩

/-- A product that is too large is taken for a negative one, and the delay is zero. -/
theorem Whole.delayOn_wrapping {i : ℕ} (h : p.Whole base m cap) (hi : i = 0 ∨ base * m ^ i < cap)
    (hlarge : 2 ^ 63 ≤ base * m ^ (i + 1)) (draw : UInt64) :
    { p with jitter := false }.delayOn wrapping (i + 2) draw = 0 := by
  have hn : ((i : Int) + 2 - 1).toNat = i + 1 := by omega
  obtain ⟨j, hj, hdelay, hend, -⟩ := (h.withJitter false).delayOn_eq wrapping (i + 2)
  rw [hn] at hj hend
  -- the loop cannot have ended earlier, since the power before is below the cap
  have hlast : j = i + 1 := by
    rcases hend with hend | ⟨hpos, hreach⟩
    · exact hend
    · by_contra hne
      rcases hi with rfl | hbelow
      · omega
      · have hgrow : base * m ^ j ≤ base * m ^ i :=
          Nat.mul_le_mul_left base (Nat.pow_le_pow_right h.one_le (by omega))
        omega
  subst hlast
  have hround : wrapping ((base * m ^ (i + 1) : ℕ) : ℚ) = -2 ^ 63 := by
    rw [wrapping, llround_natCast, if_neg fun hfits : InLong _ => ?_]
    have hlt := hfits.2
    have hge : ((2 ^ 63 : ℕ) : Int) ≤ ((base * m ^ (i + 1) : ℕ) : Int) := Int.ofNat_le.mpr hlarge
    push_cast at hlt hge
    omega
  rw [hdelay, hround, (clampDelay_whole h _ draw).1]
  omega

/-- **Backoff.** The delays are those of the closed form with every library exactly if the loop forms no product that
is too large for a `long long`. -/
theorem backoff_closed_form (h : p.Whole base m cap) :
    (∀ round, Rounds round → p.Backs round base m cap) ↔ Contained base m cap := by
  constructor
  · intro hbacks hcap i hi
    by_contra hlarge
    rw [Nat.not_lt] at hlarge
    have hzero := h.delayOn_wrapping hi hlarge 0
    have hclosed := (hbacks wrapping rounds_wrapping (i + 2) (by omega) 0).1.1
    have hn : ((i : Int) + 2 - 1).toNat = i + 1 := by omega
    have hmin : min (base * m ^ (i + 1)) cap = cap := min_eq_right (by have := h.cap_lt; omega)
    rw [hzero, cappedPower, hn, hmin] at hclosed
    omega
  · intro hcont round hround
    have hplain : ∀ n draw, { p with jitter := false }.delayOn round n draw = cappedPower base m cap n := by
      intro n draw
      obtain ⟨j, hj, hdelay, hend, hbelow⟩ := (h.withJitter false).delayOn_eq round n
      rw [hdelay, (clampDelay_whole h _ draw).1]
      exact hcont.clamped_eq h hround hj hend hbelow
    intro n _ draw
    obtain ⟨j, hj, hdelay, hend, hbelow⟩ := (h.withJitter true).delayOn_eq round n
    have hjitter := (clampDelay_whole h (round ((base * m ^ j : ℕ) : ℚ)) draw).2
    rw [← hdelay, hcont.clamped_eq h hround hj hend hbelow] at hjitter
    refine ⟨⟨hplain n draw, fun n' hn' => ?_⟩, ?_, hjitter⟩
    · rw [hplain, hplain]
      exact cappedPower_mono h.one_le hn'
    · rw [hplain, h.max_eq]
      exact Int.ofNat_le.mpr (min_le_right _ _)

theorem default_whole : ({} : RetryPolicy).Whole 100 2 30000 :=
  ⟨rfl, by norm_num, rfl, by norm_num, by norm_num, by norm_num⟩

/-- The default policy, with the delay after the tenth attempt at its cap. -/
theorem default_backoff : (∀ round, Rounds round → ({} : RetryPolicy).Backs round 100 2 30000) ∧
    ({} : RetryPolicy).delayAfterAttempt 3 0 = 400 ∧ ({} : RetryPolicy).delayAfterAttempt 10 0 = 30000 := by
  refine ⟨(backoff_closed_form default_whole).mpr fun _ i hi => ?_, by decide +kernel, by decide +kernel⟩
  have hsmall : 100 * 2 ^ i < 30000 := by
    rcases hi with rfl | hi
    · norm_num
    · exact hi
  rw [pow_succ]
  omega

/-- A multiplier that the API accepts: the second attempt is delayed by nothing, not by the cap. -/
theorem steep_backoff_lost : ∃ p : RetryPolicy, p.Whole 1 (10 ^ 19) 30000 ∧ Rounds wrapping ∧
    p.delayOn wrapping 2 0 = 0 ∧ cappedPower 1 (10 ^ 19) 30000 2 = 30000 := by
  refine ⟨{ backoffBaseMs := 1, backoffMultiplier := 10 ^ 19 },
    ⟨rfl, by norm_num, rfl, by norm_num, by norm_num, by norm_num⟩, rounds_wrapping, ?_, ?_⟩
  · decide +kernel
  · decide +kernel

end RetryPolicy

end DistributedJobEngine
