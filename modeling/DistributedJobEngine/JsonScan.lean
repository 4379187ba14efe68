import DistributedJobEngine.JsonText

/-! What the scanners of the JSON parser read: blanks, string bodies and numbers, each followed by any text
that cannot belong to it. -/

namespace DistributedJobEngine

namespace JsonParser

variable {s t rest : Bytes} {c : UInt8}

@[simp] theorem expect_cons_self (c : UInt8) (s : Bytes) : expect c (c :: s) = some s := if_pos rfl

theorem expect_cons_of_ne {a : UInt8} (h : a ≠ c) (s : Bytes) : expect c (a :: s) = none := if_neg h

@[simp] theorem skipWs_cons_of_not (h : isSpace c = false) (s : Bytes) : skipWs (c :: s) = c :: s :=
  List.dropWhile_cons_of_neg (by simp [h])

theorem skipWs_append_of_all (h : ∀ c ∈ s, isSpace c = true) (t : Bytes) : skipWs (s ++ t) = skipWs t :=
  List.dropWhile_append_of_pos h

theorem isSpace_of_mem_newlineIndent {indent depth : ℕ} :
    ∀ c ∈ Json.newlineIndent indent depth, isSpace c = true := by
  intro c hc
  unfold Json.newlineIndent at hc
  split at hc
  · rcases List.mem_cons.mp hc with rfl | hc
    · rfl
    · rw [List.eq_of_mem_replicate hc]
      rfl
  · cases hc

/-! ### Strings -/

theorem hex4_unicodeEscape (h : c < 32) :
    hex4 48 48 (if c < 16 then 48 else 49) (if c % 16 < 10 then 48 + c % 16 else 87 + c % 16) = some c.toNat :=
  forall_byte (P := fun c => c < 32 →
    hex4 48 48 (if c < 16 then 48 else 49) (if c % 16 < 10 then 48 + c % 16 else 87 + c % 16) = some c.toNat)
    (by decide +kernel) c h

theorem utf8_toNat (h : c < 32) : utf8 c.toNat = [c] :=
  forall_byte (P := fun c => c < 32 → utf8 c.toNat = [c]) (by decide +kernel) c h

theorem escapeSequence_simple {e : UInt8} (he : e ≠ 117) (h : simpleEscape e = some c) (t : Bytes) :
    escapeSequence (e :: t) = .ok ([c], t) := by
  simp only [escapeSequence, he, if_false, h]

theorem escapeSequence_control (h : c < 32) (t : Bytes) :
    escapeSequence ((Json.unicodeEscape c).tail ++ t) = .ok ([c], t) := by
  have hlt : c.toNat < 32 := h
  have hcode : codePoint (48 :: 48 :: (if c < 16 then 48 else 49) ::
      (if c % 16 < 10 then 48 + c % 16 else 87 + c % 16) :: t) = .ok (c.toNat, t) := by
    unfold codePoint hexEscape
    simp only [hex4_unicodeEscape h]
    exact (if_neg (by omega)).trans (if_neg (by omega))
  have hsequence : escapeSequence (117 :: 48 :: 48 :: (if c < 16 then 48 else 49) ::
      (if c % 16 < 10 then 48 + c % 16 else 87 + c % 16) :: t) = .ok ([c], t) := by
    rw [escapeSequence, if_pos rfl, hcode, ← utf8_toNat h]
    rfl
  exact hsequence

/-- An escaped byte is the byte itself, or a backslash and a sequence that stands for it. -/
theorem escapeByte_cases (c : UInt8) :
    (Json.escapeByte c = [c] ∧ c ≠ 34 ∧ ¬c < 32 ∧ c ≠ 92) ∨
      ∃ e, Json.escapeByte c = 92 :: e ∧ ∀ t, escapeSequence (e ++ t) = .ok ([c], t) := by
  unfold Json.escapeByte
  split_ifs with h₁ h₂ h₃ h₄ h₅ h₆ h₇ h₈
  any_goals
    subst c
    exact .inr ⟨_, rfl, escapeSequence_simple (by decide) rfl⟩
  · exact .inr ⟨_, rfl, escapeSequence_control h₈⟩
  · exact .inl ⟨rfl, h₁, h₈, h₂⟩

/-- One escaped byte takes one round of the loop. -/
theorem stringLoop_escapeByte (fuel : ℕ) (out : Bytes) (c : UInt8) (t : Bytes) :
    stringLoop (fuel + 1) out (Json.escapeByte c ++ t) = stringLoop fuel (out ++ [c]) t := by
  rcases escapeByte_cases c with ⟨hbyte, hquote, hcontrol, hslash⟩ | ⟨e, hbyte, hsequence⟩
  · rw [hbyte, List.singleton_append, stringLoop, if_neg hquote, if_neg hcontrol, if_pos hslash]
  · rw [hbyte, List.cons_append, stringLoop, if_neg (by decide), if_neg (by decide), if_neg (by decide),
      hsequence]
    rfl

theorem stringLoop_escape (s rest : Bytes) (fuel : ℕ) (out : Bytes)
    (hfuel : (s.flatMap Json.escapeByte).length < fuel) :
    stringLoop fuel out (s.flatMap Json.escapeByte ++ 34 :: rest) = .ok (out ++ s, rest) := by
  induction s generalizing fuel out with
  | nil =>
      obtain ⟨fuel, rfl⟩ : ∃ n, fuel = n + 1 := ⟨fuel - 1, by simp at hfuel; omega⟩
      rw [List.append_nil]
      rfl
  | cons c s ih =>
      obtain ⟨fuel, rfl⟩ : ∃ n, fuel = n + 1 := ⟨fuel - 1, by omega⟩
      have hone : 0 < (Json.escapeByte c).length := by
        rcases escapeByte_cases c with ⟨hbyte, -⟩ | ⟨e, hbyte, -⟩ <;> rw [hbyte] <;> exact Nat.succ_pos _
      rw [List.flatMap_cons, List.length_append] at hfuel
      rw [List.flatMap_cons, List.append_assoc, stringLoop_escapeByte, ih fuel _ (by omega), List.append_assoc]
      rfl

/-- **Strings written are read back**, whatever bytes they hold. -/
theorem string_escape (s rest : Bytes) : string (s.flatMap Json.escapeByte ++ 34 :: rest) = .ok (s, rest) :=
  stringLoop_escape s rest _ _ (by rw [List.length_append]; omega)

/-! ### Numbers -/

/-- One or more digits. -/
def Digits (s : Bytes) : Prop := s ≠ [] ∧ ∀ c ∈ s, isDigit c = true

/-- The integer part of a number. -/
def Whole (s : Bytes) : Prop := s = [48] ∨ (Digits s ∧ s.head? ≠ some 48)

def Fractional (s : Bytes) : Prop := s = [] ∨ ∃ ds, Digits ds ∧ s = 46 :: ds

def Scaled (s : Bytes) : Prop :=
  s = [] ∨ ∃ e sign ds, (e = 101 ∨ e = 69) ∧ (sign = [] ∨ sign = [43] ∨ sign = [45]) ∧ Digits ds ∧
    s = e :: (sign ++ ds)

/-- The parts of a number of RFC 8259. -/
structure NumberToken (sign whole frac exp : Bytes) : Prop where
  sign : sign = [] ∨ sign = [45]
  whole : Whole whole
  frac : Fractional frac
  exp : Scaled exp

/-- No digit comes next. -/
def NoDigit (s : Bytes) : Prop := startsWithDigit s = false

/-- What comes next cannot belong to a number. -/
def EndsNumber : Bytes → Prop
  | [] => True
  | c :: _ => isDigit c = false ∧ c ≠ 46 ∧ c ≠ 101 ∧ c ≠ 69

theorem EndsNumber.noDigit (h : EndsNumber s) : NoDigit s := by
  cases s with
  | nil => rfl
  | cons c s => exact h.1

theorem Digits.startsWithDigit (h : Digits s) (t : Bytes) : startsWithDigit (s ++ t) = true := by
  cases s with
  | nil => exact absurd rfl h.1
  | cons c s => exact h.2 c List.mem_cons_self

theorem Digits.dropWhile (h : Digits s) (ht : NoDigit t) : (s ++ t).dropWhile isDigit = t := by
  rw [List.dropWhile_append_of_pos h.2]
  cases t with
  | nil => rfl
  | cons c t =>
      have hc : isDigit c = false := ht
      exact List.dropWhile_cons_of_neg (by simp [hc])

theorem Whole.digits (h : Whole s) : Digits s := by
  rcases h with rfl | ⟨hdigits, -⟩
  · exact ⟨List.cons_ne_nil _ _, List.forall_mem_singleton.mpr rfl⟩
  · exact hdigits

theorem integerPart_append (h : Whole s) (ht : NoDigit t) : integerPart (s ++ t) = t := by
  unfold integerPart
  rcases h with rfl | ⟨hdigits, hhead⟩
  · rfl
  · have hexpect : expect 48 (s ++ t) = none := by
      cases s with
      | nil => exact absurd rfl hdigits.1
      | cons c s => exact expect_cons_of_ne (fun hc => hhead (by rw [hc]; rfl)) _
    rw [hexpect]
    exact hdigits.dropWhile ht

theorem fraction_append (h : Fractional s) (ht : NoDigit t) (hdot : s = [] → expect 46 t = none) :
    fraction (s ++ t) = .ok (!s.isEmpty, t) := by
  unfold fraction
  rcases h with rfl | ⟨ds, hds, rfl⟩
  · rw [List.nil_append, hdot rfl]
    rfl
  · rw [List.cons_append, expect_cons_self]
    simp only [hds.startsWithDigit, if_true, hds.dropWhile ht]
    rfl

theorem exponent_append (h : Scaled s) (ht : EndsNumber t) : exponent (s ++ t) = .ok (!s.isEmpty, t) := by
  rcases h with rfl | ⟨e, sign, ds, he, hsign, hds, rfl⟩
  · cases t with
    | nil => rfl
    | cons c t =>
        rw [List.nil_append, exponent, if_neg (by rintro (h | h); exacts [ht.2.2.1 h, ht.2.2.2 h])]
        rfl
  · have hskip : skipSign (sign ++ ds ++ t) = ds ++ t := by
      rcases hsign with rfl | rfl | rfl
      · cases ds with
        | nil => exact absurd rfl hds.1
        | cons c ds =>
            have hc : isDigit c = true := hds.2 c List.mem_cons_self
            have hne : ¬(c = 43 ∨ c = 45) := by
              rintro (rfl | rfl) <;> exact absurd hc (by decide)
            exact if_neg hne
      · rfl
      · rfl
    rw [List.cons_append, exponent, if_pos he, hskip, hds.startsWithDigit, if_pos rfl, hds.dropWhile ht.noDigit]
    rfl

/-- **A number is read to its end**, when what follows cannot belong to it. -/
theorem number_append {sign whole frac exp : Bytes} (libc : Libc) (h : NumberToken sign whole frac exp)
    (hrest : EndsNumber rest) :
    number libc (sign ++ whole ++ frac ++ exp ++ rest) =
      .ok (numberValue libc (frac.isEmpty && exp.isEmpty) (sign ++ whole ++ frac ++ exp), rest) := by
  have hexp : NoDigit (exp ++ rest) := by
    rcases h.exp with rfl | ⟨e, sign, ds, rfl | rfl, -, -, rfl⟩
    · exact hrest.noDigit
    · rfl
    · rfl
  have hdot : expect 46 (exp ++ rest) = none := by
    rcases h.exp with rfl | ⟨e, sign, ds, rfl | rfl, -, -, rfl⟩
    · cases rest with
      | nil => rfl
      | cons c rest => exact expect_cons_of_ne hrest.2.1 _
    · rfl
    · rfl
  have hfrac : NoDigit (frac ++ (exp ++ rest)) := by
    rcases h.frac with rfl | ⟨ds, -, rfl⟩
    · exact hexp
    · rfl
  have hstart : (expect 45 (sign ++ whole ++ frac ++ exp ++ rest)).getD (sign ++ whole ++ frac ++ exp ++ rest) =
      whole ++ (frac ++ (exp ++ rest)) := by
    rcases h.sign with rfl | rfl
    · cases hwhole : whole with
      | nil => exact absurd hwhole h.whole.digits.1
      | cons c ws =>
          have hc : isDigit c = true := h.whole.digits.2 c (by rw [hwhole]; exact List.mem_cons_self)
          have hne : c ≠ 45 := by
            rintro rfl
            exact absurd hc (by decide)
          simp [expect, hne]
    · simp [expect]
  have hlength : (sign ++ whole ++ frac ++ exp ++ rest).take
      ((sign ++ whole ++ frac ++ exp ++ rest).length - rest.length) = sign ++ whole ++ frac ++ exp := by
    rw [List.length_append, Nat.add_sub_cancel]
    exact List.take_left
  unfold number
  simp only [hstart, h.whole.digits.startsWithDigit, if_true, integerPart_append h.whole hfrac,
    fraction_append h.frac hexp fun _ => hdot]
  simp only [bind, Except.bind, exponent_append h.exp hrest, hlength, Bool.not_not]

theorem head_decimal {n : ℕ} (h : 0 < n) : (decimal n).head? ≠ some 48 := by
  induction n using Nat.strong_induction_on with
  | _ n ih =>
      rcases Nat.lt_or_ge n 10 with hlt | hge
      · have hall : ∀ d < 10, 0 < d → (decimal d).head? ≠ some 48 := by decide
        exact hall n hlt h
      · rw [decimal_of_le hge, List.head?_append_of_ne_nil _ (decimal_ne_nil _)]
        exact ih (n / 10) (by omega) (by omega)

theorem digits_decimal (n : ℕ) : Digits (decimal n) := ⟨decimal_ne_nil n, isDigit_of_mem_decimal⟩

theorem whole_decimal (n : ℕ) : Whole (decimal n) := by
  rcases Nat.eq_zero_or_pos n with rfl | h
  · exact .inl rfl
  · exact .inr ⟨digits_decimal n, head_decimal h⟩

theorem digitsValue_decimal (n : ℕ) : digitsValue (decimal n) = n := by
  induction n using Nat.strong_induction_on with
  | _ n ih =>
      rcases Nat.lt_or_ge n 10 with hlt | hge
      · rw [decimal_of_lt hlt]
        simpa [digitsValue] using (digit_ofNat hlt).2
      · have htens : digitsValue (decimal (n / 10)) = n / 10 := ih (n / 10) (by omega)
        rw [digitsValue] at htens ⊢
        rw [decimal_of_le hge, List.foldl_append, htens, List.foldl_cons, List.foldl_nil,
          (digit_ofNat (Nat.mod_lt n (by norm_num))).2]
        omega

theorem integerValue_num (v : Int) : integerValue (num v) = v := by
  unfold num integerValue
  split_ifs with h
  · rw [expect_cons_self]
    simp only [digitsValue_decimal]
    omega
  · have hexpect : expect 45 (decimal v.natAbs) = none := by
      cases hdigits : decimal v.natAbs with
      | nil => exact absurd hdigits (decimal_ne_nil _)
      | cons c ds =>
          have hc : isDigit c = true := isDigit_of_mem_decimal c (by rw [hdigits]; exact List.mem_cons_self)
          refine expect_cons_of_ne (fun h45 => ?_) _
          rw [h45] at hc
          exact absurd hc (by decide)
    rw [hexpect]
    simp only [digitsValue_decimal]
    omega

/-- The range of `int64_t`. -/
def InInt64 (v : Int) : Prop := -(2 : Int) ^ 63 ≤ v ∧ v < (2 : Int) ^ 63

instance (v : Int) : Decidable (InInt64 v) := inferInstanceAs (Decidable (_ ∧ _))

/-- **Integers written are read back.** -/
theorem number_num (libc : Libc) {v : Int} (hv : InInt64 v) (hrest : EndsNumber rest) :
    number libc (num v ++ rest) = .ok (.int v, rest) := by
  have htoken : NumberToken (if v < 0 then [45] else []) (decimal v.natAbs) [] [] :=
    ⟨by split <;> simp, whole_decimal _, .inl rfl, .inl rfl⟩
  have hnum : num v = (if v < 0 then [45] else []) ++ decimal v.natAbs ++ [] ++ [] := by
    unfold num
    split <;> simp
  rw [hnum, number_append libc htoken hrest, ← hnum, numberValue, integerValue_num]
  simp only [List.isEmpty_nil, Bool.and_self, Bool.true_and, decide_eq_true_eq]
  exact congrArg (fun j => Except.ok (j, rest)) (if_pos hv)

end JsonParser

end DistributedJobEngine
