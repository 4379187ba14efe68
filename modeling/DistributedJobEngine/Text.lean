import DistributedJobEngine.LibText

/-! The string helpers of `util.cpp`, over byte strings. -/

namespace DistributedJobEngine

open LibText

abbrev Bytes := List UInt8

/-- The bytes of an ASCII literal. -/
def text (s : String) : Bytes := s.toList.map Char.toUInt8

def cr : UInt8 := 13

def lf : UInt8 := 10

def isSpace (c : UInt8) : Bool := c == 32 || c == 9 || c == 13 || c == 10

def isDigit (c : UInt8) : Bool := 48 ≤ c && c ≤ 57

def split (s : Bytes) (delim : UInt8) : List Bytes := s.splitOn delim

def trim (s : Bytes) : Bytes := trimBy isSpace s

def lowerByte (c : UInt8) : UInt8 := if 65 ≤ c && c ≤ 90 then c + 32 else c

def toLower (s : Bytes) : Bytes := s.map lowerByte

def startsWith (s start : Bytes) : Bool := start.isPrefixOf s

/-- The number that a run of digits stands for. -/
def digitsValue (s : Bytes) : ℕ := s.foldl (fun v c => v * 10 + (c.toNat - 48)) 0

def int64Max : ℕ := 2 ^ 63 - 1

/-- One more digit, unless the value would leave `int64`. -/
def pushDigit (v : ℕ) (c : UInt8) : Option ℕ :=
  if isDigit c then
    let d := c.toNat - 48
    if (int64Max - d) / 10 < v then none else some (v * 10 + d)
  else none

/-- `out` is left alone where the result is none. -/
def parseInt (s : Bytes) : Option Int :=
  match trim s with
  | [] => none
  | c :: rest =>
      let digits := if c == 45 || c == 43 then rest else c :: rest
      if digits.isEmpty then none
      else (digits.foldlM pushDigit 0).map fun (v : ℕ) => if c == 45 then -(v : Int) else (v : Int)

def hexDigit (c : UInt8) : Option ℕ :=
  if 48 ≤ c ∧ c ≤ 57 then some (c.toNat - 48)
  else if 97 ≤ c ∧ c ≤ 102 then some (c.toNat - 97 + 10)
  else if 65 ≤ c ∧ c ≤ 70 then some (c.toNat - 65 + 10)
  else none

/-- A `%` that two hex digits do not follow stands for itself. -/
def urlDecode : Bytes → Bytes
  | [] => []
  | [c] => [if c == 43 then 32 else c]
  | [c, a] => (if c == 43 then 32 else c) :: urlDecode [a]
  | c :: a :: b :: s =>
      if c == 43 then 32 :: urlDecode (a :: b :: s)
      else if c == 37 then
        match hexDigit a, hexDigit b with
        | some hi, some lo => UInt8.ofNat (hi * 16 + lo) :: urlDecode s
        | _, _ => c :: urlDecode (a :: b :: s)
      else c :: urlDecode (a :: b :: s)

/-- `%llu`. -/
def decimal (n : ℕ) : Bytes := (Nat.toDigits 10 n).map Char.toUInt8

/-- `%lld`. -/
def num (v : Int) : Bytes := if v < 0 then 45 :: decimal v.natAbs else decimal v.natAbs

/-- The decimal digits of a number are those of its tenth and its last one. -/
theorem decimal_of_le {n : ℕ} (h : 10 ≤ n) : decimal n = decimal (n / 10) ++ [UInt8.ofNat (48 + n % 10)] := by
  rw [decimal, Nat.toDigits_of_base_le (by norm_num) h, List.map_append, List.map_singleton]
  have hdigit : ∀ d < 10, (Nat.digitChar d).toUInt8 = UInt8.ofNat (48 + d) := by decide
  rw [hdigit _ (Nat.mod_lt _ (by norm_num))]
  rfl

theorem decimal_of_lt {n : ℕ} (h : n < 10) : decimal n = [UInt8.ofNat (48 + n)] := by
  have hdigit : ∀ d < 10, (Nat.toDigits 10 d).map Char.toUInt8 = [UInt8.ofNat (48 + d)] := by decide
  exact hdigit n h

/-- A statement about a byte is one about 256 numbers. -/
theorem forall_byte {P : UInt8 → Prop} (h : ∀ n : Fin 256, P (UInt8.ofFin n)) (c : UInt8) : P c := h c.toFin

theorem digit_ofNat {d : ℕ} (h : d < 10) :
    isDigit (UInt8.ofNat (48 + d)) = true ∧ (UInt8.ofNat (48 + d)).toNat - 48 = d := by
  have hall : ∀ d < 10, isDigit (UInt8.ofNat (48 + d)) = true ∧ (UInt8.ofNat (48 + d)).toNat - 48 = d := by
    decide
  exact hall d h

theorem decimal_ne_nil (n : ℕ) : decimal n ≠ [] := by
  rcases Nat.lt_or_ge n 10 with h | h
  · rw [decimal_of_lt h]
    exact List.cons_ne_nil _ _
  · rw [decimal_of_le h]
    simp

theorem length_decimal_le {n k : ℕ} (h : n < 10 ^ (k + 1)) : (decimal n).length ≤ k + 1 := by
  induction k generalizing n with
  | zero => rw [decimal_of_lt (by simpa using h), List.length_singleton]
  | succ k ih =>
      rcases Nat.lt_or_ge n 10 with hlt | hge
      · rw [decimal_of_lt hlt, List.length_singleton]
        omega
      · have hdiv := ih (n := n / 10) (by rw [pow_succ] at h; omega)
        rw [decimal_of_le hge, List.length_append, List.length_singleton]
        omega

theorem isDigit_of_mem_decimal {n : ℕ} : ∀ c ∈ decimal n, isDigit c = true := by
  induction n using Nat.strong_induction_on with
  | _ n ih =>
      intro c hc
      rcases Nat.lt_or_ge n 10 with h | h
      · rw [decimal_of_lt h, List.mem_singleton] at hc
        rw [hc]
        exact (digit_ofNat h).1
      · rw [decimal_of_le h, List.mem_append, List.mem_singleton] at hc
        rcases hc with hc | rfl
        · exact ih (n / 10) (by omega) c hc
        · exact (digit_ofNat (Nat.mod_lt n (by norm_num))).1

theorem pushDigit_ofNat {v d : ℕ} (hd : d < 10) (hv : v * 10 + d ≤ int64Max) :
    pushDigit v (UInt8.ofNat (48 + d)) = some (v * 10 + d) := by
  obtain ⟨hdigit, hvalue⟩ := digit_ofNat hd
  have hfits : ¬(int64Max - d) / 10 < v := by
    rw [Nat.not_lt, Nat.le_div_iff_mul_le (by norm_num)]
    omega
  unfold pushDigit
  simp only [hdigit, if_true, hvalue, hfits, if_false]

theorem foldlM_pushDigit_decimal {n : ℕ} (h : n ≤ int64Max) : (decimal n).foldlM pushDigit 0 = some n := by
  induction n using Nat.strong_induction_on with
  | _ n ih =>
      rcases Nat.lt_or_ge n 10 with hlt | hge
      · rw [decimal_of_lt hlt, List.foldlM_cons, pushDigit_ofNat hlt (by omega)]
        simp
      · rw [decimal_of_le hge, List.foldlM_append, ih (n / 10) (by omega) (by omega)]
        have hlast := pushDigit_ofNat (v := n / 10) (Nat.mod_lt n (by norm_num : 10 > 0)) (by omega)
        simp only [Option.bind_eq_bind, Option.bind_some, List.foldlM_cons, hlast, List.foldlM_nil,
          Option.pure_def, Option.some.injEq]
        omega

theorem not_isSpace_of_isDigit {c : UInt8} (h : isDigit c = true) : isSpace c = false := by
  exact forall_byte (P := fun c => isDigit c = true → isSpace c = false) (by decide +kernel) c h

/-- Text of digits, perhaps after a sign, has no space at its ends. -/
theorem tight_decimal (n : ℕ) : Tight isSpace (decimal n) :=
  ⟨fun _ hx => not_isSpace_of_isDigit (isDigit_of_mem_decimal _ (List.mem_of_head? hx)),
    fun _ hx => not_isSpace_of_isDigit (isDigit_of_mem_decimal _ (List.mem_of_getLast? hx))⟩

theorem tight_num (v : Int) : Tight isSpace (num v) := by
  unfold num
  split
  · refine ⟨fun x hx => ?_, fun x hx => ?_⟩
    · cases hx
      rfl
    · rw [List.getLast?_cons, Option.mem_some_iff] at hx
      have hlast := (tight_decimal v.natAbs).2 x
      rw [List.getLast?_eq_getLast_of_ne_nil (decimal_ne_nil _), Option.getD_some] at hx
      rw [List.getLast?_eq_getLast_of_ne_nil (decimal_ne_nil _)] at hlast
      exact hlast (Option.mem_some_iff.mpr hx)
  · exact tight_decimal _

/-- **Numbers written are read back.** -/
theorem not_sign_of_isDigit {c : UInt8} (h : isDigit c = true) : (c == 45) = false ∧ (c == 43) = false :=
  forall_byte (P := fun c => isDigit c = true → (c == 45) = false ∧ (c == 43) = false) (by decide +kernel) c h

theorem parseInt_num {v : Int} (h : v.natAbs ≤ int64Max) : parseInt (num v) = some v := by
  have hfold := foldlM_pushDigit_decimal h
  unfold parseInt
  rw [trim, trimBy_of_tight (tight_num v), num]
  split_ifs with hneg
  · have hempty : (decimal v.natAbs).isEmpty = false := by
      simpa [List.isEmpty_iff] using decimal_ne_nil v.natAbs
    simp only [beq_self_eq_true, Bool.true_or, if_true, hempty, Bool.false_eq_true, if_false, hfold,
      Option.map_some, Option.some.injEq]
    omega
  · cases hdigits : decimal v.natAbs with
    | nil => exact absurd hdigits (decimal_ne_nil _)
    | cons c rest =>
        have hc : isDigit c = true := isDigit_of_mem_decimal c (by rw [hdigits]; exact List.mem_cons_self)
        have hsign := not_sign_of_isDigit hc
        rw [hdigits] at hfold
        simp only [hsign.1, hsign.2, Bool.or_self, Bool.false_eq_true, if_false, List.isEmpty_cons, hfold,
          Option.map_some, Option.some.injEq]
        omega

end DistributedJobEngine
