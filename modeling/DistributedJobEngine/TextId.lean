import DistributedJobEngine.LibRadix
import DistributedJobEngine.Text

/-! The identifiers of `new_id`: 48 bits of the wall clock as ten letters, the most significant first, and forty bits
of each of two random draws as eight letters, the least significant first. -/

namespace DistributedJobEngine

open LibRadix

/-- Crockford's alphabet of base 32. -/
def alphabet : Bytes := text "0123456789ABCDEFGHJKMNPQRSTVWXYZ"

def idLetter (v : UInt64) : UInt8 := alphabet.getD (v &&& 0x1F).toNat 0

/-- `new_id`, with the reading of the wall clock and the two draws it makes. -/
def newId (kind : UInt8) (wallMs : Int) (r₁ r₂ : UInt64) : Bytes :=
  kind :: 95 ::
    (((List.range 10).reverse.map fun i =>
        idLetter ((UInt64.ofInt wallMs &&& 0xFFFFFFFFFFFF) >>> UInt64.ofNat (i * 5))) ++
      (((List.range 8).map fun i => idLetter (r₁ >>> UInt64.ofNat (i * 5))) ++
        (List.range 8).map fun i => idLetter (r₂ >>> UInt64.ofNat (i * 5))))

/-- The letter of a digit. -/
def letterOf (d : ℕ) : UInt8 := alphabet.getD d 0

theorem letterOf_lt (x y : ℕ) (hxy : x < y) (hy : y < 32) : letterOf x < letterOf y := by
  have hall : ∀ y < 32, ∀ x < y, letterOf x < letterOf y := by decide +kernel
  exact hall y hy x hxy

theorem letterOf_inj (x y : ℕ) (hx : x < 32) (hy : y < 32) (h : letterOf x = letterOf y) : x = y := by
  rcases Nat.lt_trichotomy x y with hlt | heq | hgt
  · exact absurd (h ▸ letterOf_lt x y hlt hy) (UInt8.lt_irrefl _)
  · exact heq
  · exact absurd (h ▸ letterOf_lt y x hgt hx) (UInt8.lt_irrefl _)

/-- The shift by five places for each digit and the mask give the digits in base 32. -/
theorem idLetter_shift (v : UInt64) {i : ℕ} (hi : i * 5 < 64) :
    idLetter (v >>> UInt64.ofNat (i * 5)) = letterOf (digit 32 v.toNat i) := by
  have hshift : (UInt64.ofNat (i * 5)).toNat % 64 = i * 5 := by
    rw [UInt64.toNat_ofNat_of_lt' (by change i * 5 < 2 ^ 64; omega)]
    exact Nat.mod_eq_of_lt hi
  have hmask : (v >>> UInt64.ofNat (i * 5) &&& 0x1F).toNat = digit 32 v.toNat i := by
    rw [UInt64.toNat_and, UInt64.toNat_shiftRight, hshift, Nat.shiftRight_eq_div_pow]
    change _ &&& (2 ^ 5 - 1) = _
    rw [Nat.and_two_pow_sub_one_eq_mod, digit, show (32 : ℕ) = 2 ^ 5 from rfl, ← pow_mul, Nat.mul_comm 5 i]
  rw [idLetter, hmask, letterOf]

/-- The 48 bits that are kept of a time that has no more. -/
theorem toNat_stamp {t : Int} (h0 : 0 ≤ t) (h : t < 2 ^ 48) :
    (UInt64.ofInt t &&& 0xFFFFFFFFFFFF).toNat = t.toNat := by
  have hmod : (t % 2 ^ 64).toNat = t.toNat := by
    rw [Int.emod_eq_of_lt h0 (by omega)]
  rw [UInt64.toNat_and, UInt64.ofInt, hmod, UInt64.toNat_ofNat_of_lt' (by change t.toNat < 2 ^ 64; omega)]
  change t.toNat &&& (2 ^ 48 - 1) = _
  rw [Nat.and_two_pow_sub_one_eq_mod, Nat.mod_eq_of_lt (by omega)]

/-- The sixteen letters of the draws. -/
def drawLetters (r₁ r₂ : UInt64) : Bytes :=
  ((List.range 8).map fun i => letterOf (digit 32 r₁.toNat i)) ++
    (List.range 8).map fun i => letterOf (digit 32 r₂.toNat i)

/-- An identifier in terms of the digits of the time and the draws. -/
theorem newId_eq {t : Int} (h0 : 0 ≤ t) (h : t < 2 ^ 48) (kind : UInt8) (r₁ r₂ : UInt64) :
    newId kind t r₁ r₂ = kind :: 95 :: (letters letterOf 32 10 t.toNat ++ drawLetters r₁ r₂) := by
  have hstamp : ((List.range 10).reverse.map fun i =>
      idLetter ((UInt64.ofInt t &&& 0xFFFFFFFFFFFF) >>> UInt64.ofNat (i * 5))) = letters letterOf 32 10 t.toNat := by
    refine List.map_congr_left fun i hi => ?_
    rw [List.mem_reverse, List.mem_range] at hi
    rw [idLetter_shift _ (by omega), toNat_stamp h0 h]
  have hdraw : ∀ r : UInt64, ((List.range 8).map fun i => idLetter (r >>> UInt64.ofNat (i * 5))) =
      (List.range 8).map fun i => letterOf (digit 32 r.toNat i) := by
    intro r
    refine List.map_congr_left fun i hi => ?_
    rw [List.mem_range] at hi
    rw [idLetter_shift _ (by omega)]
  rw [newId, hstamp, hdraw, hdraw, drawLetters]

theorem drawLetters_eq_iff {r₁ r₂ r₁' r₂' : UInt64} : drawLetters r₁ r₂ = drawLetters r₁' r₂' ↔
    r₁.toNat % 2 ^ 40 = r₁'.toNat % 2 ^ 40 ∧ r₂.toNat % 2 ^ 40 = r₂'.toNat % 2 ^ 40 := by
  unfold drawLetters
  rw [show (2 : ℕ) ^ 40 = 32 ^ 8 from rfl, ← map_letter_eq_iff (by norm_num) letterOf_inj,
    ← map_letter_eq_iff (by norm_num) letterOf_inj]
  constructor
  · intro h
    exact List.append_inj h (by simp)
  · rintro ⟨h₁, h₂⟩
    rw [h₁, h₂]

/-- **Identifiers.** They sort by the time at which they were made, and tell the time and the forty low bits of both
draws. -/
theorem new_id_sorted {t t' : Int} (h0 : 0 ≤ t) (h : t < 2 ^ 48) (h0' : 0 ≤ t') (h' : t' < 2 ^ 48) (kind : UInt8)
    (r₁ r₂ r₁' r₂' : UInt64) :
    (t < t' → newId kind t r₁ r₂ < newId kind t' r₁' r₂') ∧
      (newId kind t r₁ r₂ = newId kind t' r₁' r₂' ↔
        t = t' ∧ r₁.toNat % 2 ^ 40 = r₁'.toNat % 2 ^ 40 ∧ r₂.toNat % 2 ^ 40 = r₂'.toNat % 2 ^ 40) := by
  have hsmall : ∀ {t : Int}, 0 ≤ t → t < 2 ^ 48 → t.toNat % 32 ^ 10 = t.toNat := fun h0 h =>
    Nat.mod_eq_of_lt (by norm_num; omega)
  rw [newId_eq h0 h, newId_eq h0' h']
  refine ⟨fun hlt => ?_, ?_⟩
  · rw [List.cons_lt_cons_self, List.cons_lt_cons_self]
    refine letters_lt (by norm_num) letterOf_lt ?_ _ _
    rw [hsmall h0 h, hsmall h0' h']
    omega
  · have htime : t = t' ↔ letters letterOf 32 10 t.toNat = letters letterOf 32 10 t'.toNat := by
      rw [letters_eq_iff (by norm_num) letterOf_inj, hsmall h0 h, hsmall h0' h']
      omega
    rw [List.cons_inj_right, List.cons_inj_right, htime, ← drawLetters_eq_iff]
    constructor
    · intro h
      exact List.append_inj h (by simp [letters])
    · rintro ⟨hstamp, hdraws⟩
      rw [hstamp, hdraws]

/-- Two identifiers that were made a millisecond apart. -/
theorem new_id_sorted_millisecond :
    newId 106 1700000000000 7 9 < newId 106 1700000000001 3 5 ∧
      newId 106 1700000000000 7 9 ≠ newId 106 1700000000000 7 8 := by
  have hsort := @new_id_sorted 1700000000000 1700000000001 (by norm_num) (by norm_num) (by norm_num) (by norm_num)
    106 7 9 3 5
  have hsame := @new_id_sorted 1700000000000 1700000000000 (by norm_num) (by norm_num) (by norm_num) (by norm_num)
    106 7 9 7 8
  exact ⟨hsort.1 (by norm_num), fun h => absurd (hsame.2.mp h).2.2 (by decide)⟩

end DistributedJobEngine
