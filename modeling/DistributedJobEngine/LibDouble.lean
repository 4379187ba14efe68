import Mathlib.Data.Rat.Floor
import Mathlib.Tactic

/-! The values of the finite numbers of the format binary64. Integers of up to 53 bits are among them, and so large
numbers are all integers. -/

namespace LibDouble

/-- The biased exponent. -/
def exponent (b : BitVec 64) : ℕ := b.toNat / 2 ^ 52 % 2 ^ 11

/-- The fraction, without the leading bit. -/
def fraction (b : BitVec 64) : ℕ := b.toNat % 2 ^ 52

def negative (b : BitVec 64) : Prop := 2 ^ 63 ≤ b.toNat

instance (b : BitVec 64) : Decidable (negative b) := inferInstanceAs (Decidable (2 ^ 63 ≤ b.toNat))

/-- The integer significand; the leading bit is implicit except in subnormal numbers. -/
def significand (b : BitVec 64) : ℕ := if exponent b = 0 then fraction b else 2 ^ 52 + fraction b

/-- Neither an infinity nor a NaN. -/
def Finite (b : BitVec 64) : Prop := exponent b ≠ 2047

/-- The number that finite bits stand for. -/
def value (b : BitVec 64) : ℚ :=
  (if negative b then -1 else 1) * (significand b * 2 ^ ((max 1 (exponent b) : ℤ) - 1075))

theorem significand_lt (b : BitVec 64) : significand b < 2 ^ 53 := by
  have hfraction : fraction b < 2 ^ 52 := Nat.mod_lt _ (by positivity)
  unfold significand
  split_ifs <;> omega

theorem abs_value (b : BitVec 64) : |value b| = significand b * 2 ^ ((max 1 (exponent b) : ℤ) - 1075) := by
  have hpos : (0 : ℚ) ≤ significand b * 2 ^ ((max 1 (exponent b) : ℤ) - 1075) := by positivity
  unfold value
  split_ifs
  · rw [neg_one_mul, abs_neg, abs_of_nonneg hpos]
  · rw [one_mul, abs_of_nonneg hpos]

/-- **Large numbers are integers.** -/
theorem exists_int_of_le {b : BitVec 64} (h : 2 ^ 53 ≤ |value b|) : ∃ n : ℤ, value b = n := by
  have hexp : (1075 : ℤ) ≤ max 1 (exponent b : ℤ) := by
    by_contra hlt
    rw [abs_value] at h
    have hpow : (2 : ℚ) ^ ((max 1 (exponent b) : ℤ) - 1075) ≤ 1 :=
      zpow_le_one_of_nonpos₀ (by norm_num) (by omega)
    have hsig : (significand b : ℚ) < 2 ^ 53 := by exact_mod_cast significand_lt b
    have hprod : (significand b : ℚ) * 2 ^ ((max 1 (exponent b) : ℤ) - 1075) ≤ significand b :=
      mul_le_of_le_one_right (by positivity) hpow
    linarith
  obtain ⟨k, hk⟩ := Int.eq_ofNat_of_zero_le (sub_nonneg.mpr hexp)
  refine ⟨(if negative b then -1 else 1) * (significand b * 2 ^ k), ?_⟩
  unfold value
  rw [hk]
  push_cast
  rfl

/-! ### Integers -/

/-- Bits with the given fields. -/
def ofFields (neg : Bool) (e m : ℕ) : BitVec 64 := BitVec.ofNat 64 ((if neg then 2 ^ 63 else 0) + e * 2 ^ 52 + m)

theorem toNat_ofFields (neg : Bool) {e m : ℕ} (he : e < 2 ^ 11) (hm : m < 2 ^ 52) :
    (ofFields neg e m).toNat = (if neg then 2 ^ 63 else 0) + e * 2 ^ 52 + m := by
  unfold ofFields
  rw [BitVec.toNat_ofNat, Nat.mod_eq_of_lt]
  split_ifs <;> omega

theorem fields_ofFields (neg : Bool) {e m : ℕ} (he : e < 2 ^ 11) (hm : m < 2 ^ 52) :
    exponent (ofFields neg e m) = e ∧ fraction (ofFields neg e m) = m ∧
      (negative (ofFields neg e m) ↔ neg = true) := by
  unfold exponent fraction negative
  rw [toNat_ofFields neg he hm]
  cases neg <;> simp <;> omega

/-- A normal number from its sign, its exponent and its significand. -/
theorem value_ofFields (neg : Bool) {e m : ℕ} (hpos : 0 < e) (he : e < 2 ^ 11) (hm : m < 2 ^ 52) :
    value (ofFields neg e m) = (if neg then -1 else 1) * ((2 ^ 52 + m : ℕ) * 2 ^ ((e : ℤ) - 1075)) := by
  obtain ⟨hexp, hfrac, hneg⟩ := fields_ofFields neg he hm
  unfold value significand
  rw [hexp, hfrac, if_congr hneg rfl rfl, if_neg hpos.ne', max_eq_right (by omega)]

theorem exists_value_natCast (neg : Bool) {a : ℕ} (hpos : 0 < a) (ha : a < 2 ^ 53) :
    ∃ b, Finite b ∧ value b = (if neg then -1 else 1) * (a : ℚ) := by
  -- the integer is scaled so that its leading bit, bit `k`, becomes bit 52
  obtain ⟨k, hk⟩ : ∃ k, a.log2 = k := ⟨_, rfl⟩
  have hlo : 2 ^ k ≤ a := hk ▸ Nat.log2_self_le hpos.ne'
  have hhi : a < 2 ^ (k + 1) := hk ▸ Nat.lt_log2_self
  have hk52 : k ≤ 52 := by
    have hlt := (Nat.log2_lt hpos.ne').mpr ha
    omega
  have hscale : 2 ^ k * 2 ^ (52 - k) = 2 ^ 52 := by rw [← pow_add, Nat.add_sub_cancel' hk52]
  have hle : 2 ^ 52 ≤ a * 2 ^ (52 - k) := hscale ▸ Nat.mul_le_mul_right _ hlo
  have hlt : a * 2 ^ (52 - k) < 2 ^ 53 := by
    have hmul := Nat.mul_lt_mul_of_pos_right hhi (Nat.two_pow_pos (52 - k))
    rw [pow_succ, mul_right_comm, hscale] at hmul
    omega
  have hm : a * 2 ^ (52 - k) - 2 ^ 52 < 2 ^ 52 := by omega
  have he : k + 1023 < 2 ^ 11 := by omega
  refine ⟨ofFields neg (k + 1023) (a * 2 ^ (52 - k) - 2 ^ 52), ?_, ?_⟩
  · rw [Finite, (fields_ofFields neg he hm).1]
    omega
  · rw [value_ofFields neg (by omega) he hm, Nat.add_sub_cancel' hle]
    congr 1
    have hexp : ((k + 1023 : ℕ) : ℤ) - 1075 = -((52 - k : ℕ) : ℤ) := by omega
    rw [hexp, zpow_neg, zpow_natCast, Nat.cast_mul, Nat.cast_pow, Nat.cast_ofNat]
    exact mul_inv_cancel_right₀ (by positivity) _

theorem finite_zero : Finite 0 ∧ value 0 = 0 := by
  have hzero : significand 0 = 0 := by decide
  exact ⟨by unfold Finite; decide, by unfold value; rw [hzero, Nat.cast_zero, zero_mul, mul_zero]⟩

/-- **Integers of up to 53 bits are represented.** -/
theorem exists_value_eq {n : ℤ} (h : n.natAbs < 2 ^ 53) : ∃ b, Finite b ∧ value b = n := by
  rcases Nat.eq_zero_or_pos n.natAbs with hzero | hpos
  · obtain rfl := Int.natAbs_eq_zero.mp hzero
    exact ⟨0, finite_zero.1, by rw [finite_zero.2, Int.cast_zero]⟩
  · obtain ⟨a, rfl | rfl⟩ := n.eq_nat_or_neg
    · rw [Int.natAbs_natCast] at h hpos
      simpa using exists_value_natCast false hpos h
    · rw [Int.natAbs_neg, Int.natAbs_natCast] at h hpos
      simpa using exists_value_natCast true hpos h

end LibDouble
