import Mathlib.Data.List.Lex
import Mathlib.Tactic

/-! Numbers in positional notation with a fixed number of places. The digits determine the number, and with the most
significant digit first the order of the digit strings is the order of the numbers. -/

namespace LibRadix

/-- The digit with weight `b ^ i`. -/
def digit (b a i : ℕ) : ℕ := a / b ^ i % b

variable {b a a' n : ℕ}

theorem digit_lt (hb : 0 < b) (i : ℕ) : digit b a i < b := Nat.mod_lt _ hb

/-- **The digits determine the number.** -/
theorem digits_eq_iff (hb : 0 < b) : (∀ i < n, digit b a i = digit b a' i) ↔ a % b ^ n = a' % b ^ n := by
  induction n with
  | zero => simp [Nat.mod_one]
  | succ n ih =>
      have hsplit : (∀ i < n + 1, digit b a i = digit b a' i) ↔
          (∀ i < n, digit b a i = digit b a' i) ∧ digit b a n = digit b a' n := by
        simp only [Nat.lt_succ_iff_lt_or_eq, or_imp, forall_and, forall_eq]
      rw [hsplit, ih, Nat.mod_pow_succ, Nat.mod_pow_succ]
      unfold digit
      constructor
      · rintro ⟨hlow, hhigh⟩
        rw [hlow, hhigh]
      · intro h
        have hpos : 0 < b ^ n := Nat.pow_pos hb
        have hlow := congrArg (· % b ^ n) h
        have hhigh := congrArg (· / b ^ n) h
        simp only [Nat.add_mul_mod_self_left, Nat.mod_mod, Nat.add_mul_div_left _ _ hpos,
          Nat.div_eq_of_lt (Nat.mod_lt _ hpos), Nat.zero_add] at hlow hhigh
        exact ⟨hlow, hhigh⟩

/-- A smaller number has a smaller digit, and the same digits with larger weights. -/
theorem exists_smaller_digit (hb : 0 < b) (h : a % b ^ n < a' % b ^ n) :
    ∃ i < n, digit b a i < digit b a' i ∧ ∀ j, i < j → j < n → digit b a j = digit b a' j := by
  induction n with
  | zero => simp [Nat.mod_one] at h
  | succ n ih =>
      have hpos : 0 < b ^ n := Nat.pow_pos hb
      have hlow := Nat.mod_lt a hpos
      have hlow' := Nat.mod_lt a' hpos
      rw [Nat.mod_pow_succ, Nat.mod_pow_succ] at h
      rcases Nat.lt_trichotomy (digit b a n) (digit b a' n) with hlt | heq | hgt
      · exact ⟨n, n.lt_succ_self, hlt, fun j hj hjn => absurd hj (by omega)⟩
      · unfold digit at heq
        rw [heq, Nat.add_lt_add_iff_right] at h
        obtain ⟨i, hi, hlt, habove⟩ := ih h
        refine ⟨i, hi.trans n.lt_succ_self, hlt, fun j hij hjn => ?_⟩
        rcases Nat.lt_succ_iff_lt_or_eq.mp hjn with hjn | rfl
        · exact habove j hij hjn
        · exact heq
      · unfold digit at hgt
        have hmul : b ^ n * (a' / b ^ n % b) + b ^ n ≤ b ^ n * (a / b ^ n % b) := by
          rw [← Nat.mul_succ]
          exact Nat.mul_le_mul_left _ hgt
        exact absurd h (Nat.not_lt.mpr ((Nat.add_le_add_right hlow'.le _).trans
          ((Nat.add_comm _ _).trans_le (hmul.trans (Nat.le_add_left _ _)))))

/-- The letters of a number, the one with the largest weight first. -/
def letters {α : Type*} (letter : ℕ → α) (b n a : ℕ) : List α :=
  (List.range n).reverse.map fun i => letter (digit b a i)

theorem letters_succ {α : Type*} (letter : ℕ → α) :
    letters letter b (n + 1) a = letter (digit b a n) :: letters letter b n a := by
  rw [letters, List.range_succ, List.reverse_append, List.reverse_singleton, List.singleton_append, List.map_cons]
  rfl

/-- **The order of numbers is the order of their letters**, whatever follows them. -/
theorem letters_lt {α : Type*} [LT α] {letter : ℕ → α} (hb : 0 < b)
    (hletter : ∀ x y, x < y → y < b → letter x < letter y) (h : a % b ^ n < a' % b ^ n) (s s' : List α) :
    letters letter b n a ++ s < letters letter b n a' ++ s' := by
  obtain ⟨i, hi, hlt, habove⟩ := exists_smaller_digit hb h
  clear h
  induction n with
  | zero => omega
  | succ n ih =>
      rw [letters_succ, letters_succ, List.cons_append, List.cons_append, List.cons_lt_cons_iff]
      rcases Nat.lt_succ_iff_lt_or_eq.mp hi with hin | rfl
      · exact .inr ⟨by rw [habove n hin n.lt_succ_self], ih hin fun j hij hjn => habove j hij (by omega)⟩
      · exact .inl (hletter _ _ hlt (digit_lt hb _))

/-- **Letters that tell digits apart determine the number.** -/
theorem map_letter_eq_iff {α : Type*} {letter : ℕ → α} (hb : 0 < b)
    (hletter : ∀ x y, x < b → y < b → letter x = letter y → x = y) :
    ((List.range n).map fun i => letter (digit b a i)) = ((List.range n).map fun i => letter (digit b a' i)) ↔
      a % b ^ n = a' % b ^ n := by
  rw [List.map_inj_left, ← digits_eq_iff hb]
  refine forall_congr' fun i => ?_
  rw [List.mem_range]
  exact imp_congr_right fun _ => ⟨hletter _ _ (digit_lt hb i) (digit_lt hb i), congrArg letter⟩

theorem letters_eq_iff {α : Type*} {letter : ℕ → α} (hb : 0 < b)
    (hletter : ∀ x y, x < b → y < b → letter x = letter y → x = y) :
    letters letter b n a = letters letter b n a' ↔ a % b ^ n = a' % b ^ n := by
  rw [letters, letters, List.map_reverse, List.map_reverse, List.reverse_inj, map_letter_eq_iff hb hletter]

end LibRadix
