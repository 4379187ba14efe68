import DistributedJobEngine.Text

/-! `parse_int` over `int64_t`, with its out parameter. No computation of its loop leaves the type, whatever the text
and however long, and the loop accepts a text exactly if it is an integer whose magnitude fits. -/

namespace DistributedJobEngine

open LibText

/-- The result of a computation in `int64_t`, if it does not overflow. -/
def int64 (v : Int) : Option Int := if -2 ^ 63 ≤ v ∧ v < 2 ^ 63 then some v else none

/-- The `int` that a digit stands for. -/
def digitOf (c : UInt8) : Int := c.toNat - 48

/-- The loop of `parse_int`: no result at all after an overflow, and no number where it returns `false`. -/
def digitLoop : Bytes → Int → Option (Option Int)
  | [], v => some (some v)
  | c :: s, v =>
      if isDigit c = true then do
        let room ← int64 (2 ^ 63 - 1 - digitOf c)
        if room.tdiv 10 < v then some none
        else
          let shifted ← int64 (v * 10)
          let sum ← int64 (shifted + digitOf c)
          digitLoop s sum
      else some none

/-- `parse_int`: what it returns, and `out` after the call. -/
def parseIntInto (s : Bytes) (out : Int) : Option (Bool × Int) :=
  match trim s with
  | [] => some (false, out)
  | c :: rest =>
      let digits := if c == 45 || c == 43 then rest else c :: rest
      if digits.isEmpty then some (false, out)
      else
        (digitLoop digits 0).bind fun found =>
          match found with
          | none => some (false, out)
          | some v => (int64 (if c == 45 then -v else v)).map fun v => (true, v)

/-- The text is an integer, perhaps with a sign, between blanks. -/
def Denotes (s : Bytes) (v : Int) : Prop :=
  ∃ before sign digits after, s = before ++ (sign ++ digits) ++ after ∧
    (∀ c ∈ before, isSpace c = true) ∧ (∀ c ∈ after, isSpace c = true) ∧
      (sign = [] ∨ sign = text "+" ∨ sign = text "-") ∧ digits ≠ [] ∧ (∀ c ∈ digits, isDigit c = true) ∧
        v = if sign = text "-" then -(digitsValue digits : Int) else digitsValue digits

/-! ### The loop -/

theorem int64_eq {v : Int} (h : -2 ^ 63 ≤ v ∧ v < 2 ^ 63) : int64 v = some v := if_pos h

theorem toNat_of_isDigit {c : UInt8} (h : isDigit c = true) : 48 ≤ c.toNat ∧ c.toNat ≤ 57 := by
  unfold isDigit at h
  simp only [Bool.and_eq_true, decide_eq_true_eq, UInt8.le_iff_toNat_le] at h
  exact h

/-- One round: the test before the multiplication keeps both computations in range. -/
theorem digitLoop_cons {c : UInt8} {s : Bytes} {v : ℕ} :
    digitLoop (c :: s) v = (pushDigit v c).elim (some none) fun w => digitLoop s w := by
  rw [digitLoop, digitOf]
  unfold pushDigit
  by_cases hdigit : isDigit c = true
  · obtain ⟨hlow, hhigh⟩ := toNat_of_isDigit hdigit
    have hroom : ((int64Max - (c.toNat - 48) : ℕ) : Int) = 2 ^ 63 - 1 - ((c.toNat : Int) - 48) := by
      unfold int64Max
      omega
    rw [if_pos hdigit, if_pos hdigit, ← hroom, int64_eq (by unfold int64Max at hroom ⊢; omega)]
    dsimp only [Option.bind_eq_bind, Option.bind_some]
    have htest : ((int64Max - (c.toNat - 48) : ℕ) : Int).tdiv 10 < v ↔ (int64Max - (c.toNat - 48)) / 10 < v := by
      rw [show ((10 : Int)) = ((10 : ℕ) : Int) from rfl, ← Int.ofNat_tdiv]
      exact Int.ofNat_lt
    by_cases hfull : (int64Max - (c.toNat - 48)) / 10 < v
    · rw [if_pos (htest.mpr hfull), if_pos hfull]
      rfl
    · rw [if_neg (mt htest.mp hfull), if_neg hfull]
      have hsum : v * 10 + (c.toNat - 48) ≤ int64Max := by
        unfold int64Max at hfull ⊢
        omega
      unfold int64Max at hsum
      rw [int64_eq (by omega), Option.bind_some, int64_eq (by omega), Option.bind_some, Option.elim_some]
      congr 1
      omega
  · rw [if_neg hdigit, if_neg hdigit]
    rfl

theorem pushDigit_eq_some {v w : ℕ} {c : UInt8} :
    pushDigit v c = some w ↔ isDigit c = true ∧ w = v * 10 + (c.toNat - 48) ∧ w ≤ int64Max := by
  unfold pushDigit
  by_cases hdigit : isDigit c = true
  · obtain ⟨hlow, hhigh⟩ := toNat_of_isDigit hdigit
    have hfits : (int64Max - (c.toNat - 48)) / 10 < v ↔ int64Max < v * 10 + (c.toNat - 48) := by
      unfold int64Max
      omega
    rw [if_pos hdigit]
    dsimp only
    split_ifs with hfull
    · rw [hfits] at hfull
      constructor
      · intro h
        cases h
      · rintro ⟨-, rfl, hle⟩
        omega
    · rw [hfits] at hfull
      rw [Option.some.injEq]
      constructor
      · rintro rfl
        exact ⟨hdigit, rfl, by omega⟩
      · rintro ⟨-, rfl, -⟩
        rfl
  · rw [if_neg hdigit]
    constructor
    · intro h
      cases h
    · intro h
      exact absurd h.1 hdigit

/-- **The loop never overflows**, and finds what it finds over the natural numbers. -/
theorem digitLoop_eq {s : Bytes} {v : ℕ} :
    digitLoop s v = some ((s.foldlM pushDigit v).map fun w : ℕ => (w : Int)) := by
  induction s generalizing v with
  | nil => rfl
  | cons c s ih =>
      rw [digitLoop_cons, List.foldlM_cons]
      cases hpush : pushDigit v c with
      | none => rfl
      | some w => exact ih

theorem le_foldl_digits (s : Bytes) (v : ℕ) : v ≤ s.foldl (fun v c => v * 10 + (c.toNat - 48)) v := by
  induction s generalizing v with
  | nil => exact le_rfl
  | cons c s ih =>
      rw [List.foldl_cons]
      have hrest := ih (v * 10 + (c.toNat - 48))
      omega

/-- The test in every round is exact: the loop succeeds if and only if the whole number fits. -/
theorem foldlM_pushDigit_eq_some {s : Bytes} {v w : ℕ} (hv : v ≤ int64Max) : s.foldlM pushDigit v = some w ↔
    (∀ c ∈ s, isDigit c = true) ∧ w = s.foldl (fun v c => v * 10 + (c.toNat - 48)) v ∧ w ≤ int64Max := by
  induction s generalizing v with
  | nil =>
      rw [List.foldlM_nil, List.foldl_nil, Option.pure_def, Option.some.injEq]
      constructor
      · rintro rfl
        exact ⟨by simp, rfl, hv⟩
      · rintro ⟨-, rfl, -⟩
        rfl
  | cons c s ih =>
      rw [List.foldlM_cons, Option.bind_eq_bind, Option.bind_eq_some_iff, List.forall_mem_cons, List.foldl_cons]
      constructor
      · rintro ⟨u, hu, hs⟩
        obtain ⟨hdigit, rfl, hle⟩ := pushDigit_eq_some.mp hu
        obtain ⟨hdigits, hw, hfits⟩ := (ih hle).mp hs
        exact ⟨⟨hdigit, hdigits⟩, hw, hfits⟩
      · rintro ⟨⟨hdigit, hdigits⟩, hw, hfits⟩
        have hle : v * 10 + (c.toNat - 48) ≤ int64Max := (hw ▸ le_foldl_digits s _).trans hfits
        exact ⟨_, pushDigit_eq_some.mpr ⟨hdigit, rfl, hle⟩, (ih hle).mpr ⟨hdigits, hw, hfits⟩⟩

theorem foldlM_pushDigit_zero {s : Bytes} {w : ℕ} : s.foldlM pushDigit 0 = some w ↔
    (∀ c ∈ s, isDigit c = true) ∧ w = digitsValue s ∧ w ≤ int64Max :=
  foldlM_pushDigit_eq_some (Nat.zero_le _)

/-! ### The whole text -/

/-- A sign and digits have no blank at their ends. -/
theorem tight_signed {sign digits : Bytes} (hsign : sign = [] ∨ sign = text "+" ∨ sign = text "-") (hne : digits ≠ [])
    (hdigits : ∀ c ∈ digits, isDigit c = true) : Tight isSpace (sign ++ digits) := by
  refine ⟨fun x hx => ?_, fun x hx => ?_⟩
  · rcases hsign with rfl | rfl | rfl
    · exact not_isSpace_of_isDigit (hdigits x (List.mem_of_head? hx))
    · cases hx
      rfl
    · cases hx
      rfl
  · rw [List.getLast?_append_of_ne_nil _ hne] at hx
    exact not_isSpace_of_isDigit (hdigits x (List.mem_of_getLast? hx))

/-- The sign that `parse_int` sees before the digits, if there is one. -/
def Signed (sign digits : Bytes) : Prop :=
  sign = [] ∧ (∀ c ∈ digits.head?, (c == 45) = false ∧ (c == 43) = false) ∨ sign = text "+" ∨ sign = text "-"

/-- The trimmed text with its sign told apart. -/
theorem parseInt_of_trim {s sign digits : Bytes} (htrim : trim s = sign ++ digits)
    (hsign : Signed sign digits) :
    parseInt s = if digits.isEmpty then none
      else (digits.foldlM pushDigit 0).map fun v : ℕ => if sign = text "-" then -(v : Int) else (v : Int) := by
  unfold parseInt
  rw [htrim]
  rcases hsign with ⟨rfl, hhead⟩ | rfl | rfl
  · cases digits with
    | nil => rfl
    | cons c rest =>
        obtain ⟨hminus, hplus⟩ := hhead c rfl
        simp only [List.nil_append, hminus, hplus, Bool.or_self, Bool.false_eq_true, if_false]
        rfl
  · rfl
  · rfl

/-- Every text that is not blank has a sign or does not. -/
theorem exists_sign (s : Bytes) : ∃ sign digits, s = sign ++ digits ∧ Signed sign digits := by
  cases s with
  | nil => exact ⟨[], [], rfl, .inl ⟨rfl, by simp⟩⟩
  | cons c rest =>
      by_cases hminus : c = 45
      · exact ⟨text "-", rest, by rw [hminus]; rfl, .inr (.inr rfl)⟩
      · by_cases hplus : c = 43
        · exact ⟨text "+", rest, by rw [hplus]; rfl, .inr (.inl rfl)⟩
        · refine ⟨[], c :: rest, rfl, .inl ⟨rfl, fun x hx => ?_⟩⟩
          rw [List.head?_cons, Option.mem_some_iff] at hx
          subst hx
          exact ⟨beq_eq_false_iff_ne.mpr hminus, beq_eq_false_iff_ne.mpr hplus⟩

/-- **`parse_int` is exact**: it finds the integer that is written, if its magnitude fits. -/
theorem parseInt_iff {s : Bytes} {v : Int} : parseInt s = some v ↔ Denotes s v ∧ v.natAbs ≤ int64Max := by
  constructor
  · intro h
    obtain ⟨before, after, hs, hbefore, hafter⟩ := exists_trimBy isSpace s
    obtain ⟨sign, digits, htrim, hsign⟩ := exists_sign (trim s)
    rw [parseInt_of_trim htrim hsign] at h
    by_cases hempty : digits.isEmpty = true
    · rw [if_pos hempty] at h
      cases h
    rw [if_neg hempty] at h
    obtain ⟨w, hw, rfl⟩ := Option.map_eq_some_iff.mp h
    obtain ⟨hdigits, rfl, hfits⟩ := foldlM_pushDigit_zero.mp hw
    refine ⟨⟨before, sign, digits, after, ?_, hbefore, hafter, hsign.imp_left And.left, ?_, hdigits, rfl⟩, ?_⟩
    · rw [← htrim]
      exact hs
    · rwa [List.isEmpty_iff] at hempty
    · split_ifs <;> omega
  · rintro ⟨⟨before, sign, digits, after, rfl, hbefore, hafter, hsign, hne, hdigits, rfl⟩, hfits⟩
    have htrim : trim (before ++ (sign ++ digits) ++ after) = sign ++ digits :=
      trimBy_append hbefore (tight_signed hsign hne hdigits) hafter
    rw [parseInt_of_trim htrim (hsign.imp_left fun h => ⟨h, fun c hc =>
      not_sign_of_isDigit (hdigits c (List.mem_of_head? hc))⟩), if_neg (by rwa [List.isEmpty_iff])]
    have hw : digits.foldlM pushDigit 0 = some (digitsValue digits) := by
      refine foldlM_pushDigit_zero.mpr ⟨hdigits, rfl, ?_⟩
      split_ifs at hfits <;> omega
    rw [hw]
    rfl

/-- The end of the call, for digits with or without a minus before them. -/
theorem finish_digits (digits : Bytes) (neg : Bool) (out : Int) {found : Option Int → Option (Bool × Int)}
    (hnone : found none = some (false, out))
    (hsome : ∀ v, found (some v) = (int64 (if neg then -v else v)).map fun v => (true, v)) :
    (digitLoop digits 0).bind found =
      let r := (digits.foldlM pushDigit 0).map fun v : ℕ => if neg then -(v : Int) else (v : Int)
      some (r.isSome, r.getD out) := by
  have hloop := digitLoop_eq (s := digits) (v := 0)
  rw [Nat.cast_zero] at hloop
  rw [hloop, Option.bind_some]
  cases hfold : digits.foldlM pushDigit 0 with
  | none => exact hnone
  | some w =>
      have hw := (foldlM_pushDigit_zero.mp hfold).2.2
      unfold int64Max at hw
      rw [Option.map_some, hsome, int64_eq (by split_ifs <;> omega)]
      rfl

/-- The call over `int64_t` does not overflow and agrees with the function over the integers. -/
theorem parseIntInto_eq (s : Bytes) (out : Int) :
    parseIntInto s out = some ((parseInt s).isSome, (parseInt s).getD out) := by
  unfold parseIntInto parseInt
  cases trim s with
  | nil => rfl
  | cons c rest =>
      dsimp only
      obtain ⟨digits, hdigits⟩ : ∃ digits, (if c == 45 || c == 43 then rest else c :: rest) = digits := ⟨_, rfl⟩
      rw [hdigits]
      by_cases hempty : digits.isEmpty = true
      · rw [if_pos hempty, if_pos hempty]
        rfl
      · rw [if_neg hempty, if_neg hempty]
        exact finish_digits digits (c == 45) out rfl fun v => rfl

/-- **Exactness of `parse_int`.** Every call ends without an overflow; it succeeds exactly on the integers whose
magnitude fits, with their value, and leaves `out` alone otherwise. -/
theorem parse_int_exact (s : Bytes) (out : Int) : ∃ ok out', parseIntInto s out = some (ok, out') ∧
    (ok = true ↔ ∃ v, Denotes s v ∧ v.natAbs ≤ int64Max) ∧
      (∀ v, Denotes s v → v.natAbs ≤ int64Max → out' = v) ∧ (ok = false → out' = out) := by
  refine ⟨_, _, parseIntInto_eq s out, ?_, fun v hv hfits => ?_, fun hnone => ?_⟩
  · rw [Option.isSome_iff_exists]
    exact exists_congr fun v => parseInt_iff
  · rw [parseInt_iff.mpr ⟨hv, hfits⟩, Option.getD_some]
  · rw [Option.isSome_eq_false_iff, Option.isNone_iff_eq_none] at hnone
    rw [hnone, Option.getD_none]

end DistributedJobEngine
