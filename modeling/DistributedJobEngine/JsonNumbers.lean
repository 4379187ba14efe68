import DistributedJobEngine.ApiJson
import DistributedJobEngine.LibDouble

/-! Numbers from the text of a request to the `int64_t` that `as_int` gives. An integer literal that fits is taken as
it is; any other number goes through a `double`, which keeps it if it is an integer that fits and has a binary64
representation. -/

namespace DistributedJobEngine

open JsonParser

/-! ### The number that is written -/

/-- The number that a JSON number stands for. -/
def numeral (raw : Bytes) : ℚ :=
  let s := (expect 45 raw).getD raw
  let whole := s.takeWhile isDigit
  let afterPoint := (expect 46 (s.dropWhile isDigit)).getD []
  let frac := afterPoint.takeWhile isDigit
  let unscaled := if afterPoint.isEmpty then s.dropWhile isDigit else afterPoint.dropWhile isDigit
  let scale : ℤ := match unscaled with
    | [] => 0
    | _ :: s => (if (expect 45 s).isSome then -1 else 1) * (digitsValue (skipSign s) : ℤ)
  (if (expect 45 raw).isSome then -1 else 1) * digitsValue (whole ++ frac) * 10 ^ (scale - frac.length)

/-- A number as it is written: an integer literal that fits, or the text of any other number. -/
inductive Numeral where
  | int (v : Int)
  | token (raw : Bytes)

namespace Numeral

def value : Numeral → ℚ
  | int v => v
  | token raw => numeral raw

/-- What the parser makes of it. -/
def toJson (libc : Libc) : Numeral → Json
  | int v => .int v
  | token raw => .double (libc.strtod raw)

/-- The conversion of `as_int` is defined: a finite `double` fits. -/
def Defined (libc : Libc) : Numeral → Prop
  | int _ => True
  | token raw => isFinite (libc.strtod raw) = true →
      -2 ^ 63 ≤ LibDouble.value (libc.strtod raw) ∧ LibDouble.value (libc.strtod raw) < 2 ^ 63

/-- The number is an integer of `bits` bits, and has a representation as a `double` if it needs one. -/
def Fits (bits : ℕ) (n : Numeral) : Prop :=
  ∃ v : Int, n.value = v ∧ -2 ^ (bits - 1) ≤ v ∧ v < 2 ^ (bits - 1) ∧
    match n with
    | int _ => True
    | token _ => ∃ b, LibDouble.Finite b ∧ LibDouble.value b = v

end Numeral

/-! ### Conversion -/

/-- Rounding towards zero. -/
def truncRat (q : ℚ) : Int := if 0 ≤ q then ⌊q⌋ else ⌈q⌉

theorem truncRat_intCast (v : Int) : truncRat v = v := by
  unfold truncRat
  split_ifs
  · exact Int.floor_intCast v
  · exact Int.ceil_intCast v

theorem truncRat_mem {q : ℚ} {lo hi : Int} (hlo : lo ≤ q) (hhi : q < hi) (hle : lo ≤ 0) (hpos : 0 < hi) :
    lo ≤ truncRat q ∧ truncRat q < hi := by
  unfold truncRat
  split_ifs with hq
  · exact ⟨hle.trans (Int.floor_nonneg.mpr hq), Int.floor_lt.mpr hhi⟩
  · have hnonpos : ⌈q⌉ ≤ 0 := Int.ceil_le.mpr (by push_cast; linarith)
    exact ⟨by exact_mod_cast hlo.trans (Int.le_ceil q), hnonpos.trans_lt hpos⟩

theorem natAbs_truncRat_lt {q : ℚ} {m : ℕ} (h : |q| < m) : (truncRat q).natAbs < m := by
  rw [abs_lt] at h
  unfold truncRat
  split_ifs with hq
  · have hlt : ⌊q⌋ < (m : ℤ) := Int.floor_lt.mpr (by exact_mod_cast h.2)
    have hnonneg : 0 ≤ ⌊q⌋ := Int.floor_nonneg.mpr hq
    omega
  · have hlt : (-m : ℤ) < ⌈q⌉ := Int.lt_ceil.mpr (by exact_mod_cast h.1)
    have hnonpos : ⌈q⌉ ≤ 0 := Int.ceil_le.mpr (by push_cast; linarith)
    omega

/-- `strtod` is exact where the number has a representation, and the conversion to `int64_t` drops the fraction of
a number that fits. -/
structure Libc.Converts (libc : Libc) : Prop where
  strtod : ∀ raw, (∃ b, LibDouble.Finite b ∧ LibDouble.value b = numeral raw) →
    LibDouble.Finite (libc.strtod raw) ∧ LibDouble.value (libc.strtod raw) = numeral raw
  truncate : ∀ b, LibDouble.Finite b → -2 ^ 63 ≤ LibDouble.value b → LibDouble.value b < 2 ^ 63 →
    libc.truncate b = truncRat (LibDouble.value b)

theorem isFinite_iff {b : BitVec 64} : isFinite b = true ↔ LibDouble.Finite b := by
  unfold isFinite LibDouble.Finite LibDouble.exponent
  rw [bne_iff_ne, ne_eq, ne_eq, not_iff_not, ← BitVec.toNat_inj, BitVec.extractLsb_toNat, Nat.shiftRight_eq_div_pow]
  rfl

namespace Numeral

variable {libc : Libc} {default : Int}

theorem asInt_token (raw : Bytes) : ((token raw).toJson libc).asInt libc default =
    if isFinite (libc.strtod raw) then libc.truncate (libc.strtod raw) else default := rfl

/-- A number with a representation that fits comes out as it is. -/
theorem asInt_token_of_fits (hlibc : libc.Converts) {raw : Bytes} (h : (token raw).Fits 64) :
    (token raw).Defined libc ∧ (((token raw).toJson libc).asInt libc default : ℚ) = numeral raw := by
  obtain ⟨v, hv, hlo, hhi, hrep⟩ := h
  replace hv : numeral raw = v := hv
  obtain ⟨hfinite, hvalue⟩ := hlibc.strtod raw (by rw [hv]; exact hrep)
  rw [hv] at hvalue
  have hrange : -2 ^ 63 ≤ LibDouble.value (libc.strtod raw) ∧ LibDouble.value (libc.strtod raw) < 2 ^ 63 := by
    rw [hvalue]
    exact ⟨by exact_mod_cast hlo, by exact_mod_cast hhi⟩
  refine ⟨fun _ => hrange, ?_⟩
  rw [asInt_token, if_pos (isFinite_iff.mpr hfinite), hlibc.truncate _ hfinite hrange.1 hrange.2, hvalue,
    truncRat_intCast, hv]

/-- An integer that is written has a representation if it comes out of a defined conversion. -/
theorem fits_of_asInt_token (hlibc : libc.Converts) {raw : Bytes} (hdefault : default.natAbs < 2 ^ 53)
    (hdefined : (token raw).Defined libc)
    (h : (((token raw).toJson libc).asInt libc default : ℚ) = numeral raw) : (token raw).Fits 64 := by
  rw [asInt_token] at h
  split_ifs at h with hfinite
  · obtain ⟨hlo, hhi⟩ := hdefined hfinite
    rw [isFinite_iff] at hfinite
    rw [hlibc.truncate _ hfinite hlo hhi] at h
    obtain ⟨hlo', hhi'⟩ := @truncRat_mem _ (-2 ^ 63) (2 ^ 63) (by exact_mod_cast hlo) (by exact_mod_cast hhi)
      (by norm_num) (by norm_num)
    refine ⟨_, h.symm, hlo', hhi', ?_⟩
    by_cases hlarge : 2 ^ 53 ≤ |LibDouble.value (libc.strtod raw)|
    · obtain ⟨n, hn⟩ := LibDouble.exists_int_of_le hlarge
      exact ⟨libc.strtod raw, hfinite, by rw [hn, truncRat_intCast]⟩
    · exact LibDouble.exists_value_eq (natAbs_truncRat_lt (by exact_mod_cast not_le.mp hlarge))
  · -- the default has a representation, so that `strtod` would have found it
    obtain ⟨b, hb, hvalue⟩ := LibDouble.exists_value_eq hdefault
    exact absurd (isFinite_iff.mpr (hlibc.strtod raw ⟨b, hb, hvalue.trans h⟩).1) hfinite

/-- **What `as_int` keeps.** -/
theorem asInt_eq_iff (hlibc : libc.Converts) {n : Numeral} (hdefault : default.natAbs < 2 ^ 53)
    (hint : ∀ v, n = .int v → InInt64 v) :
    n.Defined libc ∧ ((n.toJson libc).asInt libc default : ℚ) = n.value ↔ n.Fits 64 := by
  cases n with
  | int v =>
      obtain ⟨hlo, hhi⟩ := hint v rfl
      exact iff_of_true ⟨trivial, rfl⟩ ⟨v, rfl, hlo, hhi, trivial⟩
  | token raw =>
      exact ⟨fun h => fits_of_asInt_token hlibc hdefault h.1 h.2, asInt_token_of_fits hlibc⟩

/-- **What a cast to `int` keeps besides.** -/
theorem toInt32_eq_iff (hlibc : libc.Converts) {n : Numeral} (hdefault : default.natAbs < 2 ^ 53)
    (hint : ∀ v, n = .int v → InInt64 v) :
    n.Defined libc ∧ (toInt32 ((n.toJson libc).asInt libc default) : ℚ) = n.value ↔ n.Fits 32 := by
  constructor
  · rintro ⟨-, h⟩
    have hlo : -2 ^ 31 ≤ toInt32 ((n.toJson libc).asInt libc default) := Int.le_bmod (by norm_num)
    have hhi : toInt32 ((n.toJson libc).asInt libc default) < 2 ^ 31 := Int.bmod_lt (by norm_num)
    refine ⟨_, h.symm, hlo, hhi, ?_⟩
    cases n with
    | int v => trivial
    | token raw => exact LibDouble.exists_value_eq (by omega)
  · rintro ⟨v, hv, hlo, hhi, hrep⟩
    obtain ⟨hdefined, heq⟩ := (asInt_eq_iff hlibc hdefault hint).mpr ⟨v, hv, by omega, by omega, hrep⟩
    rw [hv] at heq ⊢
    refine ⟨hdefined, ?_⟩
    rw [Int.cast_inj.mp heq, Api.toInt32_of_mem hlo hhi]

end Numeral

end DistributedJobEngine
