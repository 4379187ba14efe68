import Mathlib.Data.List.DropRight
import Mathlib.Data.List.Infix
import Mathlib.Tactic

/-! Searching and cutting sequences over any alphabet: the first occurrence of a pattern, the two parts
around the first occurrence of a symbol, and trimming at both ends. -/

namespace LibText

variable {α : Type} [DecidableEq α]

/-- The position of the first occurrence of `pattern`. -/
def findSub (pattern : List α) : List α → Option ℕ
  | [] => if pattern = [] then some 0 else none
  | a :: s => if pattern.isPrefixOf (a :: s) then some 0 else (findSub pattern s).map (· + 1)

/-- The parts before and after the first `c`. -/
def cut (c : α) : List α → Option (List α × List α)
  | [] => none
  | a :: s => if a = c then some ([], s) else (cut c s).map fun p => (a :: p.1, p.2)

/-- Drops what satisfies `p` at both ends. -/
def trimBy (p : α → Bool) (s : List α) : List α := (s.dropWhile p).rdropWhile p

section Find

variable {pattern s t : List α} {i : ℕ}

theorem findSub_eq_some : findSub pattern s = some i ↔
    i ≤ s.length ∧ pattern <+: s.drop i ∧ ∀ j < i, ¬pattern <+: s.drop j := by
  induction s generalizing i with
  | nil =>
      unfold findSub
      split
      · next h =>
          subst h
          simp only [Option.some.injEq, List.length_nil, Nat.le_zero]
          constructor
          · rintro rfl
            simp
          · rintro ⟨rfl, -⟩
            rfl
      · next h => simp [h]
  | cons a s ih =>
      unfold findSub
      split
      · next h =>
          rw [List.isPrefixOf_iff_prefix] at h
          simp only [Option.some.injEq]
          constructor
          · rintro rfl
            exact ⟨Nat.zero_le _, h, fun j hj => absurd hj (Nat.not_lt_zero j)⟩
          · rintro ⟨-, -, hfirst⟩
            by_contra hne
            exact hfirst 0 (Nat.pos_of_ne_zero (Ne.symm hne)) h
      · next h =>
          rw [List.isPrefixOf_iff_prefix] at h
          rw [Option.map_eq_some_iff]
          constructor
          · rintro ⟨k, hk, rfl⟩
            obtain ⟨hle, hoccurs, hfirst⟩ := ih.mp hk
            refine ⟨Nat.succ_le_succ hle, hoccurs, fun j hj => ?_⟩
            cases j with
            | zero => exact h
            | succ j => exact hfirst j (Nat.lt_of_succ_lt_succ hj)
          · rintro ⟨hle, hoccurs, hfirst⟩
            cases i with
            | zero => exact absurd hoccurs h
            | succ i =>
                exact ⟨i, ih.mpr ⟨Nat.le_of_succ_le_succ hle, hoccurs,
                  fun j hj => hfirst (j + 1) (Nat.succ_lt_succ hj)⟩, rfl⟩

theorem findSub_eq_none : findSub pattern s = none ↔ ∀ j ≤ s.length, ¬pattern <+: s.drop j := by
  constructor
  · intro h j hj hoccurs
    -- the smallest such position would have been found
    have hex : ∃ k, k ≤ s.length ∧ pattern <+: s.drop k := ⟨j, hj, hoccurs⟩
    obtain ⟨hle, hfound⟩ := Nat.find_spec hex
    have hsome : findSub pattern s = some (Nat.find hex) :=
      findSub_eq_some.mpr ⟨hle, hfound, fun k hk hpre =>
        Nat.find_min hex hk ⟨(Nat.le_of_lt hk).trans hle, hpre⟩⟩
    rw [h] at hsome
    cases hsome
  · intro h
    cases hfind : findSub pattern s with
    | none => rfl
    | some i =>
        obtain ⟨hle, hoccurs, -⟩ := findSub_eq_some.mp hfind
        exact absurd hoccurs (h i hle)

theorem findSub_length (h : findSub pattern s = some i) : i + pattern.length ≤ s.length := by
  obtain ⟨hle, hoccurs, -⟩ := findSub_eq_some.mp h
  have hlength := hoccurs.length_le
  rw [List.length_drop] at hlength
  omega

omit [DecidableEq α] in
theorem prefix_drop_append (hi : i + pattern.length ≤ s.length) :
    pattern <+: (s ++ t).drop i ↔ pattern <+: s.drop i := by
  rw [List.drop_append_of_le_length (by omega)]
  constructor
  · intro h
    refine List.prefix_of_prefix_length_le h (List.prefix_append _ _) ?_
    rw [List.length_drop]
    omega
  · exact fun h => h.trans (List.prefix_append _ _)

/-- What follows does not move an occurrence that is complete. -/
theorem findSub_append (h : findSub pattern s = some i) : findSub pattern (s ++ t) = some i := by
  have hlength := findSub_length h
  obtain ⟨hle, hoccurs, hfirst⟩ := findSub_eq_some.mp h
  refine findSub_eq_some.mpr ⟨?_, (prefix_drop_append hlength).mpr hoccurs, fun j hj => ?_⟩
  · rw [List.length_append]
    omega
  · rw [prefix_drop_append (by omega)]
    exact hfirst j hj

/-- An occurrence that shows up only with what follows ends in it. -/
theorem lt_of_findSub_append (hnone : findSub pattern s = none) (h : findSub pattern (s ++ t) = some i) :
    s.length < i + pattern.length := by
  by_contra hle
  obtain ⟨-, hoccurs, -⟩ := findSub_eq_some.mp h
  rw [prefix_drop_append (by omega)] at hoccurs
  exact findSub_eq_none.mp hnone i (by omega) hoccurs

/-- A pattern does not start in a text that lacks its first symbol. -/
theorem findSub_append_of_notMem {c : α} (pattern : List α) (h : c ∉ s) (t : List α) :
    findSub (c :: pattern) (s ++ t) = (findSub (c :: pattern) t).map (· + s.length) := by
  induction s with
  | nil => simp
  | cons a s ih =>
      rw [List.mem_cons, not_or] at h
      have hprefix : (c :: pattern).isPrefixOf (a :: (s ++ t)) = false := by
        simp [List.isPrefixOf, h.1]
      rw [List.cons_append, findSub, hprefix, ih h.2, Option.map_map]
      simp only [Bool.false_eq_true, if_false, List.length_cons]
      congr 1

end Find

section Cut

variable {c : α} {s a b : List α}

theorem cut_eq_some : cut c s = some (a, b) ↔ s = a ++ c :: b ∧ c ∉ a := by
  induction s generalizing a with
  | nil => simp [cut]
  | cons x s ih =>
      unfold cut
      split
      · next h =>
          subst h
          constructor
          · intro hcut
            cases hcut
            exact ⟨rfl, List.not_mem_nil⟩
          · rintro ⟨heq, hnot⟩
            cases a with
            | nil =>
                cases heq
                rfl
            | cons y a =>
                cases heq
                exact absurd List.mem_cons_self hnot
      · next h =>
          rw [Option.map_eq_some_iff]
          constructor
          · rintro ⟨⟨a', b'⟩, hcut, heq⟩
            cases heq
            obtain ⟨rfl, hnot⟩ := ih.mp hcut
            exact ⟨rfl, by simp [Ne.symm h, hnot]⟩
          · rintro ⟨heq, hnot⟩
            cases a with
            | nil =>
                cases heq
                exact absurd rfl h
            | cons y a =>
                cases heq
                exact ⟨(a, b), ih.mpr ⟨rfl, fun hmem => hnot (List.mem_cons_of_mem _ hmem)⟩, rfl⟩

theorem cut_append (h : c ∉ a) : cut c (a ++ c :: b) = some (a, b) := cut_eq_some.mpr ⟨rfl, h⟩

end Cut

section Trim

omit [DecidableEq α]

variable {p : α → Bool} {x : α} {s t a b : List α}

theorem rdropWhile_append_cons (hx : p x = false) :
    (s ++ x :: t).rdropWhile p = s ++ x :: t.rdropWhile p := by
  induction t using List.reverseRecOn with
  | nil => rw [List.rdropWhile_concat_neg _ _ _ (by simp [hx]), List.rdropWhile_nil]
  | append_singleton t y ih =>
      rw [show s ++ x :: (t ++ [y]) = (s ++ x :: t) ++ [y] by simp]
      cases hy : p y with
      | true => rw [List.rdropWhile_concat_pos _ _ _ hy, List.rdropWhile_concat_pos _ _ _ hy, ih]
      | false =>
          rw [List.rdropWhile_concat_neg _ _ _ (by simp [hy]), List.rdropWhile_concat_neg _ _ _ (by simp [hy])]
          simp

theorem rdropWhile_of_all (h : ∀ y ∈ b, p y = true) : b.rdropWhile p = [] :=
  List.rdropWhile_eq_nil_iff.mpr h

theorem dropWhile_append_of_all (h : ∀ y ∈ a, p y = true) : (a ++ s).dropWhile p = s.dropWhile p :=
  List.dropWhile_append_of_pos h

/-- The two ends of a sequence, if it has any, do not satisfy `p`. -/
def Tight (p : α → Bool) (s : List α) : Prop :=
  (∀ x ∈ s.head?, p x = false) ∧ ∀ x ∈ s.getLast?, p x = false

/-- Trimming takes off what was put around a tight sequence. -/
theorem trimBy_append (ha : ∀ y ∈ a, p y = true) (hs : Tight p s) (hb : ∀ y ∈ b, p y = true) :
    trimBy p (a ++ s ++ b) = s := by
  unfold trimBy
  rw [List.append_assoc, dropWhile_append_of_all ha]
  cases s with
  | nil =>
      rw [List.nil_append, List.dropWhile_eq_nil_iff.mpr hb]
      rfl
  | cons x s =>
      have hx : p x = false := hs.1 x rfl
      rw [List.cons_append, List.dropWhile_cons_of_neg (by simp [hx]), ← List.cons_append]
      obtain ⟨u, y, hu⟩ : ∃ u y, x :: s = u ++ [y] :=
        ⟨_, _, (List.dropLast_append_getLast (List.cons_ne_nil x s)).symm⟩
      have hy : p y = false := hs.2 y (by rw [hu]; simp)
      rw [hu, List.append_assoc, List.singleton_append, rdropWhile_append_cons hy, rdropWhile_of_all hb]

/-- What trimming takes off lies around what it leaves. -/
theorem exists_trimBy (p : α → Bool) (s : List α) :
    ∃ a b, s = a ++ trimBy p s ++ b ∧ (∀ y ∈ a, p y = true) ∧ ∀ y ∈ b, p y = true := by
  refine ⟨s.takeWhile p, (s.dropWhile p).rtakeWhile p, ?_, fun y hy => List.mem_takeWhile_imp hy,
    fun y hy => List.mem_rtakeWhile_imp hy⟩
  rw [trimBy, List.append_assoc, List.rdropWhile_append_rtakeWhile, List.takeWhile_append_dropWhile]

theorem trimBy_of_tight (hs : Tight p s) : trimBy p s = s := by
  have h := trimBy_append (a := []) (b := []) (by simp) hs (by simp)
  simpa using h

/-- Trimming does not see what it takes off at the end. -/
theorem trimBy_concat (hx : p x = true) : trimBy p (s ++ [x]) = trimBy p s := by
  unfold trimBy
  by_cases hall : ∀ y ∈ s, p y = true
  · rw [List.dropWhile_eq_nil_iff.mpr hall, dropWhile_append_of_all hall, List.dropWhile_cons_of_pos hx]
    rfl
  · have hne : s.dropWhile p ≠ [] := fun h => hall (List.dropWhile_eq_nil_iff.mp h)
    have hdrop : (s ++ [x]).dropWhile p = s.dropWhile p ++ [x] := by
      rw [List.dropWhile_append, if_neg (by simpa [List.isEmpty_iff] using hne)]
    rw [hdrop, List.rdropWhile_concat_pos _ _ _ hx]

theorem trimBy_cons (hx : p x = true) : trimBy p (x :: s) = trimBy p s := by
  unfold trimBy
  rw [List.dropWhile_cons_of_pos hx]

theorem trimBy_rdropWhile : trimBy p (s.rdropWhile p) = trimBy p s := by
  induction s using List.reverseRecOn with
  | nil => rfl
  | append_singleton s y ih =>
      cases hy : p y with
      | true => rw [List.rdropWhile_concat_pos _ _ _ hy, ih, trimBy_concat hy]
      | false => rw [List.rdropWhile_concat_neg _ _ _ (by simp [hy])]

end Trim

end LibText
