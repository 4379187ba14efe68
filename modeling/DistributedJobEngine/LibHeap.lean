import Mathlib.Data.List.Sort

/-! A max-heap over a Boolean comparator, observed through its greatest element only. The elements
are kept in the order in which they would be popped, so the head is the top and the tail is the
heap after a pop. A comparator `less` orders the elements strictly and weakly. -/

namespace LibHeap

variable {α : Type*} (less : α → α → Bool)

/-- The two laws a comparator has to satisfy. -/
structure Comparator : Prop where
  asymm : ∀ a b, less a b = true → less b a = false
  negTrans : ∀ a b c, less a b = false → less b c = false → less a c = false

/-- The heap after adding one element. -/
def push (heap : List α) (a : α) : List α :=
  heap.orderedInsert (fun x y => less x y = false) a

/-- No element is less than one that is popped after it. -/
def Ordered (heap : List α) : Prop := heap.Pairwise fun x y => less x y = false

variable {less}

@[simp] theorem mem_push {heap : List α} {a b : α} : b ∈ push less heap a ↔ b = a ∨ b ∈ heap :=
  List.mem_orderedInsert _

theorem push_perm (heap : List α) (a : α) : (push less heap a).Perm (a :: heap) :=
  List.perm_orderedInsert _ a heap

theorem Ordered.push (hless : Comparator less) {heap : List α} (h : Ordered less heap) (a : α) :
    Ordered less (push less heap a) := by
  have : Std.Total fun x y : α => less x y = false := ⟨fun x y => by
    cases hxy : less x y with
    | false => exact Or.inl rfl
    | true => exact Or.inr (hless.asymm x y hxy)⟩
  have : IsTrans α fun x y : α => less x y = false := ⟨hless.negTrans⟩
  exact List.Pairwise.orderedInsert a heap h

end LibHeap
