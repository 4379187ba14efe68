import Mathlib.Tactic

/-! Computations that can fail: a result of a sequence is made of the results of its parts. -/

namespace LibExcept

variable {ε α β : Type}

theorem bind_eq_ok {x : Except ε α} {f : α → Except ε β} {b : β} :
    x >>= f = .ok b ↔ ∃ a, x = .ok a ∧ f a = .ok b := by
  cases x with
  | error e => exact ⟨nofun, fun ⟨_, h, _⟩ => nomatch h⟩
  | ok a =>
      constructor
      · exact fun h => ⟨a, rfl, h⟩
      · rintro ⟨a', ha, h⟩
        cases ha
        exact h

/-- The results of a list are those of its elements, in order. -/
theorem getElem?_of_mapM {f : α → Except ε β} {xs : List α} {ys : List β} (h : xs.mapM f = .ok ys) {i : ℕ} {y : β}
    (hy : ys[i]? = some y) : ∃ x, xs[i]? = some x ∧ f x = .ok y := by
  induction xs generalizing ys i with
  | nil =>
      cases h
      cases hy
  | cons x xs ih =>
      rw [List.mapM_cons] at h
      obtain ⟨y', hx, h⟩ := bind_eq_ok.mp h
      obtain ⟨ys', hxs, h⟩ := bind_eq_ok.mp h
      cases h
      cases i with
      | zero =>
          cases hy
          exact ⟨x, rfl, hx⟩
      | succ i => exact ih hxs hy

end LibExcept
