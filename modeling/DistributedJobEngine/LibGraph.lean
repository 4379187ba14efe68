import Mathlib.Data.Fintype.Card
import Mathlib.Data.List.Nodup
import Mathlib.Logic.Relation
import Mathlib.Tactic

/-! Relations over finite sets of nodes: cycles, orders in which every node comes after its predecessors, and
sets closed under successors. -/

namespace LibGraph

variable {α : Type} {r : α → α → Prop}

/-- Some node is reached from itself. -/
def Cyclic (r : α → α → Prop) : Prop := ∃ a, Relation.TransGen r a a

/-- Every element of the list comes after all of its predecessors. -/
def Sorted (r : α → α → Prop) (l : List α) : Prop :=
  ∀ pre b post, l = pre ++ b :: post → ∀ a, r a b → a ∈ pre

theorem sorted_nil : Sorted r [] := by
  intro pre b post h
  simp at h

theorem Sorted.concat {l : List α} {b : α} (h : Sorted r l) (hb : ∀ a, r a b → a ∈ l) : Sorted r (l ++ [b]) := by
  intro pre c post heq a hac
  rcases List.eq_nil_or_concat post with rfl | ⟨post, d, rfl⟩
  · obtain ⟨rfl, hc⟩ := List.append_inj' heq rfl
    cases hc
    exact hb a hac
  · rw [List.concat_eq_append, ← List.cons_append, ← List.append_assoc] at heq
    obtain ⟨rfl, -⟩ := List.append_inj' heq rfl
    exact h pre c post rfl a hac

/-- Everything from which an element is reached comes before it. -/
theorem Sorted.mem_of_transGen {l : List α} (h : Sorted r l) {pre post : List α} {a b : α}
    (hl : l = pre ++ b :: post) (hab : Relation.TransGen r a b) : a ∈ pre := by
  induction hab using Relation.TransGen.head_induction_on with
  | single hab => exact h pre b post hl _ hab
  | @head a c hac hcb ih =>
      obtain ⟨first, second, rfl⟩ := List.append_of_mem ih
      refine List.mem_append_left _ (h first c (second ++ b :: post) ?_ a hac)
      rw [hl, List.append_assoc, List.cons_append]

/-- **An order excludes a cycle.** -/
theorem Sorted.not_cyclic {l : List α} (h : Sorted r l) (hl : l.Nodup) (hmem : ∀ a b, r a b → b ∈ l) : ¬Cyclic r := by
  rintro ⟨a, ha⟩
  have hal : a ∈ l := by
    obtain ⟨c, -, hca⟩ := Relation.TransGen.tail'_iff.mp ha
    exact hmem c a hca
  obtain ⟨pre, post, rfl⟩ := List.append_of_mem hal
  exact List.disjoint_of_nodup_append hl (h.mem_of_transGen rfl ha) List.mem_cons_self

/-- **A set without a source holds a cycle.** -/
theorem cyclic_of_stuck {l : List α} (hne : l ≠ []) (h : ∀ b ∈ l, ∃ a ∈ l, r a b) : Cyclic r := by
  by_contra hacyclic
  let before : {a // a ∈ l} → {a // a ∈ l} → Prop := fun a b => Relation.TransGen r a b
  have htrans : IsTrans _ before := ⟨fun _ _ _ hab hbc => hab.trans hbc⟩
  have hirrefl : Std.Irrefl before := ⟨fun a ha => hacyclic ⟨a, ha⟩⟩
  have hfinite : Finite {a // a ∈ l} := List.finite_toSet l
  have hwf : WellFounded before := Finite.wellFounded_of_trans_of_irrefl before
  obtain ⟨first, hfirst⟩ := List.exists_mem_of_ne_nil l hne
  obtain ⟨⟨b, hb⟩, -, hmin⟩ := hwf.has_min Set.univ ⟨⟨first, hfirst⟩, Set.mem_univ _⟩
  obtain ⟨a, ha, hab⟩ := h b hb
  exact hmin ⟨a, ha⟩ (Set.mem_univ _) (Relation.TransGen.single hab)

/-- A set that holds the successors of `a` and of its own elements holds all that is reached from `a`. -/
theorem mem_of_closed {s : α → Prop} {a b : α} (hstart : ∀ b, r a b → s b) (hclosed : ∀ b c, s b → r b c → s c)
    (h : Relation.TransGen r a b) : s b := by
  induction h with
  | single hab => exact hstart _ hab
  | tail _ hbc ih => exact hclosed _ _ ih hbc

/-! ### Search with a worklist -/

/-- A search from `a` that has visited `seen` and has `frontier` before it. -/
structure Searching (r : α → α → Prop) (a : α) (seen frontier : List α) : Prop where
  nodup : seen.Nodup
  reached : ∀ b, b ∈ seen ∨ b ∈ frontier → Relation.TransGen r a b
  covered : ∀ b c, b = a ∨ b ∈ seen → r b c → c ∈ seen ∨ c ∈ frontier

namespace Searching

variable {a b : α} {seen frontier : List α}

theorem start (h : ∀ b, r a b ↔ b ∈ frontier) : Searching r a [] frontier where
  nodup := List.nodup_nil
  reached b hb := by
    rcases hb with hb | hb
    · cases hb
    · exact .single ((h b).mpr hb)
  covered b c hb hbc := by
    rcases hb with rfl | hb
    · exact .inr ((h c).mp hbc)
    · cases hb

/-- A node that was visited before is dropped. -/
theorem drop (h : Searching r a seen (b :: frontier)) (hb : b ∈ seen) : Searching r a seen frontier where
  nodup := h.nodup
  reached c hc := h.reached c (hc.imp_right (List.mem_cons_of_mem _))
  covered c d hc hcd := by
    rcases h.covered c d hc hcd with hd | hd
    · exact .inl hd
    · rcases List.mem_cons.mp hd with rfl | hd
      · exact .inl hb
      · exact .inr hd

/-- A new node is visited and its successors join the frontier. -/
theorem visit (h : Searching r a seen (b :: frontier)) (hb : b ∉ seen) {succ : List α}
    (hsucc : ∀ c, r b c ↔ c ∈ succ) : Searching r a (b :: seen) (succ ++ frontier) where
  nodup := List.nodup_cons.mpr ⟨hb, h.nodup⟩
  reached c hc := by
    have hab := h.reached b (.inr List.mem_cons_self)
    rw [List.mem_cons, List.mem_append] at hc
    rcases hc with (rfl | hc) | hc | hc
    · exact hab
    · exact h.reached c (.inl hc)
    · exact hab.tail ((hsucc c).mpr hc)
    · exact h.reached c (.inr (List.mem_cons_of_mem _ hc))
  covered c d hc hcd := by
    rw [List.mem_cons, List.mem_append]
    rw [List.mem_cons, or_left_comm] at hc
    rcases hc with rfl | hc
    · exact .inr (.inl ((hsucc d).mp hcd))
    · rcases h.covered c d hc hcd with hd | hd
      · exact .inl (.inr hd)
      · exact (List.mem_cons.mp hd).imp .inl .inr

/-- **The search is complete** when nothing is left to visit. -/
theorem mem_seen_iff (h : Searching r a seen []) : b ∈ seen ↔ Relation.TransGen r a b := by
  refine ⟨fun hb => h.reached b (.inl hb), mem_of_closed (fun c hac => ?_) fun c d hc hcd => ?_⟩
  · exact (h.covered a c (.inl rfl) hac).resolve_right List.not_mem_nil
  · exact (h.covered c d (.inr hc) hcd).resolve_right List.not_mem_nil

end Searching

end LibGraph
