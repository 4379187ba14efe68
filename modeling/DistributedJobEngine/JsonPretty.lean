import DistributedJobEngine.JsonRoundTrip

/-! The round trip of values without a `double`, compact and indented. The width of an indentation is computed
in `int`, so that a wide indentation of a deep value leaves its range. -/

namespace DistributedJobEngine

namespace JsonParser

/-- Parsing asks the C library for nothing but `strtod`. -/
theorem value_congr {libc libc' : Libc} (h : libc.strtod = libc'.strtod) (levels : ℕ) :
    value libc levels = value libc' levels := by
  have hnumber : number libc = number libc' := by
    funext s
    simp only [number, numberValue, h]
  induction levels with
  | zero =>
      funext s
      rw [value, value]
  | succ levels ih =>
      funext s
      cases s with
      | nil => rfl
      | cons c s => rw [value, value, ih, hnumber]

end JsonParser

namespace Json

/-- The text of a value without a `double` does not depend on how one is printed. -/
theorem Integral.dumpInto_congr {j : Json} (h : j.Integral) (libc libc' : Libc) (indent depth : ℕ) :
    j.dumpInto libc indent depth = j.dumpInto libc' indent depth := by
  induction h generalizing depth with
  | array items h ih =>
      rw [dumpInto, dumpInto, JsonParser.dumpItems_eq, JsonParser.dumpItems_eq,
        List.map_congr_left fun j hj => by rw [ih j hj]]
  | object members h ih =>
      rw [dumpInto, dumpInto, JsonParser.dumpMembers_eq, JsonParser.dumpMembers_eq,
        List.map_congr_left fun m hm => by rw [ih m hm]]
  | _ => rfl

/-- **A value without a `double` is read back from its text**, compact or indented. -/
theorem Integral.parse_dumpInto {j : Json} (hint : j.Integral) (libc : Libc) (indent : ℕ) (h : j.Plain)
    (hheight : j.height ≤ JsonParser.maxDepth) : parse libc (j.dumpInto libc indent 0) = .ok j := by
  -- with no `double` to print, the library may as well print numbers
  let libc' : Libc := { libc with formatDouble := zeroLibc.formatDouble }
  have hprints : libc'.PrintsNumbers := zeroLibc_printsNumbers
  have hparse := Json.parse_dumpInto hprints indent h hheight
  rw [hint.reread_eq, hint.dumpInto_congr libc' libc] at hparse
  have hvalue := @JsonParser.value_congr libc libc' rfl (JsonParser.maxDepth + 1)
  rw [parse, JsonParser.run] at hparse ⊢
  rw [hvalue]
  exact hparse

/-! ### The width of an indentation -/

mutual

/-- The depths at which `dump_into` breaks a line, each of which it multiplies by the indentation. -/
def lineBreaks (depth : ℕ) : Json → List ℕ
  | .array items => if items.isEmpty then [] else itemBreaks depth items ++ [depth]
  | .object members => if members.isEmpty then [] else memberBreaks depth members ++ [depth]
  | _ => []

def itemBreaks (depth : ℕ) : List Json → List ℕ
  | [] => []
  | j :: items => (depth + 1) :: (lineBreaks (depth + 1) j ++ itemBreaks depth items)

def memberBreaks (depth : ℕ) : List (Bytes × Json) → List ℕ
  | [] => []
  | (_, j) :: members => (depth + 1) :: (lineBreaks (depth + 1) j ++ memberBreaks depth members)

end

def intMax : ℕ := 2 ^ 31 - 1

/-- `dump_pretty`. The product `indent * d` is one of `int`; nothing is said of the text when it overflows. -/
def dumpPrettyInt (libc : Libc) (indent : ℕ) (j : Json) : Option Bytes :=
  if ∀ d ∈ j.lineBreaks 0, indent * d ≤ intMax then some (j.dumpPretty libc indent) else none

theorem memberBreaks_eq (depth : ℕ) (members : List (Bytes × Json)) :
    memberBreaks depth members = itemBreaks depth (members.map Prod.snd) := by
  induction members with
  | nil => rfl
  | cons m members ih => rw [memberBreaks, ih, List.map_cons, itemBreaks]

theorem heightMembers_eq (members : List (Bytes × Json)) :
    heightMembers members = heightItems (members.map Prod.snd) := by
  induction members with
  | nil => rfl
  | cons m members ih => rw [heightMembers, ih, List.map_cons, heightItems]

/-- Lines are broken down to the deepest value, and no deeper. -/
structure Breaks (depth height : ℕ) (breaks : List ℕ) : Prop where
  le : ∀ d ∈ breaks, d ≤ depth + height
  deepest : 0 < height → depth + height ∈ breaks

theorem breaks_items {depth : ℕ} {items : List Json}
    (h : ∀ j ∈ items, Breaks (depth + 1) j.height (j.lineBreaks (depth + 1))) :
    Breaks depth (heightItems items) (itemBreaks depth items) := by
  induction items with
  | nil => exact ⟨by simp [itemBreaks], fun h => absurd h (Nat.lt_irrefl 0)⟩
  | cons j items ih =>
      rw [List.forall_mem_cons] at h
      have hrest := ih h.2
      rw [heightItems, itemBreaks]
      refine ⟨fun d hd => ?_, fun _ => ?_⟩
      · rcases List.mem_cons.mp hd with rfl | hd
        · omega
        · rcases List.mem_append.mp hd with hd | hd
          · have hle := h.1.le d hd
            omega
          · have hle := hrest.le d hd
            omega
      · rcases Nat.lt_or_ge (j.height + 1) (heightItems items) with hlt | hge
        · rw [max_eq_right (Nat.le_of_lt hlt)]
          exact List.mem_cons_of_mem _ (List.mem_append_right _ (hrest.deepest (by omega)))
        · rw [max_eq_left hge]
          rcases Nat.eq_zero_or_pos j.height with hzero | hpos
          · rw [hzero]
            exact List.mem_cons_self
          · have hmem := h.1.deepest hpos
            rw [show depth + (j.height + 1) = depth + 1 + j.height by omega]
            exact List.mem_cons_of_mem _ (List.mem_append_left _ hmem)

theorem breaks_lineBreaks {j : Json} (h : j.Plain) (depth : ℕ) : Breaks depth j.height (j.lineBreaks depth) := by
  have hclosed : ∀ {depth height : ℕ} {breaks : List ℕ}, Breaks depth height breaks →
      Breaks depth height (breaks ++ [depth]) := by
    intro depth height breaks hbreaks
    refine ⟨fun d hd => ?_, fun hpos => List.mem_append_left _ (hbreaks.deepest hpos)⟩
    rcases List.mem_append.mp hd with hd | hd
    · exact hbreaks.le d hd
    · rw [List.mem_singleton.mp hd]
      exact Nat.le_add_right _ _
  induction h generalizing depth with
  | array items h ih =>
      rw [lineBreaks, height]
      split
      · next hempty =>
          rw [List.isEmpty_iff.mp hempty]
          exact ⟨by simp, fun h => absurd h (Nat.lt_irrefl 0)⟩
      · exact hclosed (breaks_items fun j hj => ih j hj (depth + 1))
  | object members h hkeys ih =>
      rw [lineBreaks, height]
      split
      · next hempty =>
          rw [List.isEmpty_iff.mp hempty]
          exact ⟨by simp, fun h => absurd h (Nat.lt_irrefl 0)⟩
      · rw [memberBreaks_eq, heightMembers_eq]
        refine hclosed (breaks_items fun j hj => ?_)
        obtain ⟨m, hm, rfl⟩ := List.mem_map.mp hj
        exact ih m hm (depth + 1)
  | _ => exact ⟨by simp [lineBreaks], fun h => absurd h (Nat.lt_irrefl 0)⟩

/-- Every product fits exactly when the deepest one does. -/
theorem lineBreaks_fit_iff {j : Json} (h : j.Plain) (indent : ℕ) :
    (∀ d ∈ j.lineBreaks 0, indent * d ≤ intMax) ↔ indent * j.height ≤ intMax := by
  have hbreaks := breaks_lineBreaks h 0
  rw [show j.height = 0 + j.height by omega]
  constructor
  · intro hall
    rcases Nat.eq_zero_or_pos j.height with hzero | hpos
    · rw [hzero]
      exact Nat.zero_le _
    · exact hall _ (hbreaks.deepest hpos)
  · exact fun hle d hd => (Nat.mul_le_mul_left indent (hbreaks.le d hd)).trans hle

/-- **The round trip.** A value without a `double` that is nested at most 64 levels deep is read back from its
compact text, and from its indented text exactly when the width of the deepest line fits an `int`. -/
theorem round_trip_iff (libc : Libc) {j : Json} (h : j.Plain) (hint : j.Integral) (hheight : j.height ≤ 64) :
    parse libc (j.dump libc) = .ok j ∧
      ∀ indent, 1 ≤ indent → indent ≤ intMax →
        ((∃ t, j.dumpPrettyInt libc indent = some t ∧ parse libc t = .ok j) ↔ indent * j.height ≤ intMax) := by
  refine ⟨hint.parse_dumpInto libc 0 h hheight, fun indent _ _ => ?_⟩
  rw [← lineBreaks_fit_iff h, dumpPrettyInt]
  split
  · next hfit => exact ⟨fun _ => hfit, fun _ => ⟨_, rfl, hint.parse_dumpInto libc indent h hheight⟩⟩
  · next hfit => exact ⟨fun ⟨_, ht, _⟩ => (nomatch ht), fun h => absurd h hfit⟩

/-- A value of every kind, with characters that are escaped. -/
def order : Json :=
  .object [(text "id", .str (text "a\"1\n")), (text "items", .array [.int (-7), .bool true, .null, .object []])]

theorem order_plain : order.Plain := by
  refine .object _ ?_ (by decide)
  simp only [List.forall_mem_cons]
  refine ⟨.str _, .array _ ?_, by simp⟩
  simp only [List.forall_mem_cons]
  exact ⟨.int _ (by decide), .bool _, .null, .object _ (by simp) (by simp), by simp⟩

theorem order_integral : order.Integral := by
  refine .object _ ?_
  simp only [List.forall_mem_cons]
  refine ⟨.str _, .array _ ?_, by simp⟩
  simp only [List.forall_mem_cons]
  exact ⟨.int _, .bool _, .null, .object _ (by simp), by simp⟩

theorem round_trip_order : parse zeroLibc (order.dump zeroLibc) = .ok order ∧
    ∃ t, order.dumpPrettyInt zeroLibc 2 = some t ∧ parse zeroLibc t = .ok order := by
  obtain ⟨hdump, hpretty⟩ := round_trip_iff zeroLibc order_plain order_integral (by decide)
  exact ⟨hdump, (hpretty 2 (by decide) (by decide)).mpr (by decide)⟩

/-- A null two levels down. -/
def nestedNull : Json := .array [.array [.null]]

theorem nestedNull_plain : nestedNull.Plain := .array _ (by simpa using Plain.array _ (by simpa using Plain.null))

theorem nestedNull_integral : nestedNull.Integral :=
  .array _ (by simpa using Integral.array _ (by simpa using Integral.null))

/-- At the widest indentation the second level overflows. -/
theorem nestedNull_overflows :
    nestedNull.Plain ∧ nestedNull.Integral ∧ nestedNull.height = 2 ∧
      nestedNull.dumpPrettyInt zeroLibc 2147483647 = none := by
  refine ⟨nestedNull_plain, nestedNull_integral, rfl, if_neg fun hfit => ?_⟩
  exact absurd ((lineBreaks_fit_iff nestedNull_plain 2147483647).mp hfit) (by decide)

end Json

end DistributedJobEngine
