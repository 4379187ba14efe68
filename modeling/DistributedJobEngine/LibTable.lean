import Mathlib.Data.List.Nodup
import Mathlib.Tactic

/-! A relational table: rows in insertion order with a primary key. Inserting a key that is there fails,
updating a key that is not there changes nothing, and an upsert replaces the row of its key. -/

namespace LibTable

variable {κ ρ : Type} [DecidableEq κ] {key : ρ → κ}

/-- Rows in insertion order; no two have the same key. -/
@[ext] structure Table (key : ρ → κ) where
  rows : List ρ
  nodup : (rows.map key).Nodup

namespace Table

def empty : Table key := ⟨[], List.nodup_nil⟩

def lookup (t : Table key) (k : κ) : Option ρ := t.rows.find? fun r => decide (key r = k)

def updateRows (rows : List ρ) (r : ρ) (key : ρ → κ) : List ρ :=
  rows.map fun x => if key x = key r then r else x

omit [DecidableEq κ] in
theorem map_key_of_forall {f : ρ → ρ} (hf : ∀ x, key (f x) = key x) (rows : List ρ) :
    (rows.map f).map key = rows.map key := by
  rw [List.map_map]
  exact List.map_congr_left fun x _ => hf x

theorem map_key_updateRows (rows : List ρ) (r : ρ) :
    (updateRows rows r key).map key = rows.map key := by
  apply map_key_of_forall
  intro x
  split_ifs with h
  · exact h.symm
  · rfl

def insert (t : Table key) (r : ρ) : Option (Table key) :=
  if h : key r ∈ t.rows.map key then none
  else some ⟨t.rows ++ [r], by
    rw [List.map_append, List.map_singleton]
    exact List.Nodup.append t.nodup (List.nodup_singleton _)
      (List.disjoint_singleton.mpr h)⟩

def update (t : Table key) (r : ρ) : Table key :=
  ⟨updateRows t.rows r key, by
    rw [map_key_updateRows]
    exact t.nodup⟩

def upsert (t : Table key) (r : ρ) : Table key :=
  ⟨(t.rows.filter fun x => decide (key x ≠ key r)) ++ [r], by
    rw [List.map_append, List.map_singleton]
    refine List.Nodup.append (t.nodup.sublist (List.filter_sublist.map key)) (List.nodup_singleton _) ?_
    rw [List.disjoint_singleton, List.mem_map]
    rintro ⟨x, hx, hkey⟩
    exact of_decide_eq_true (List.mem_filter.mp hx).2 hkey⟩

variable {t : Table key} {r : ρ} {k : κ}

theorem lookup_eq_some {x : ρ} : t.lookup k = some x ↔ x ∈ t.rows ∧ key x = k := by
  constructor
  · intro h
    have hmem := List.mem_of_find?_eq_some h
    have hkey := List.find?_some h
    exact ⟨hmem, of_decide_eq_true hkey⟩
  · rintro ⟨hmem, rfl⟩
    cases hfind : t.lookup (key x) with
    | none =>
        have hne := List.find?_eq_none.mp hfind x hmem
        simp at hne
    | some y =>
        have hy := List.mem_of_find?_eq_some hfind
        have hkey := List.find?_some hfind
        rw [List.inj_on_of_nodup_map t.nodup hy hmem (of_decide_eq_true hkey)]

theorem key_of_lookup {x : ρ} (h : t.lookup k = some x) : key x = k := (lookup_eq_some.mp h).2

theorem lookup_eq_none : t.lookup k = none ↔ k ∉ t.rows.map key := by
  rw [List.mem_map]
  constructor
  · rintro h ⟨x, hx, hkey⟩
    rw [lookup_eq_some.mpr ⟨hx, hkey⟩] at h
    cases h
  · intro h
    cases hl : t.lookup k with
    | none => rfl
    | some x => exact absurd ⟨x, lookup_eq_some.mp hl⟩ h

theorem insert_eq_some {t' : Table key} :
    t.insert r = some t' ↔ t.lookup (key r) = none ∧ t'.rows = t.rows ++ [r] := by
  unfold insert
  by_cases h : key r ∈ t.rows.map key
  · rw [dif_pos h, lookup_eq_none]
    simp only [reduceCtorEq, false_iff]
    exact fun hc => hc.1 h
  · rw [dif_neg h, lookup_eq_none, Option.some.injEq, Table.ext_iff]
    exact ⟨fun he => ⟨h, he.symm⟩, fun he => he.2.symm⟩

theorem insert_of_fresh (h : t.lookup (key r) = none) : ∃ t', t.insert r = some t' := by
  unfold insert
  rw [dif_neg (lookup_eq_none.mp h)]
  exact ⟨_, rfl⟩

theorem lookup_of_insert {t' : Table key} (h : t.insert r = some t') :
    t'.lookup k = if key r = k then some r else t.lookup k := by
  obtain ⟨hnone, hrows⟩ := insert_eq_some.mp h
  unfold lookup at hnone ⊢
  rw [hrows, List.find?_append, List.find?_singleton]
  by_cases hk : key r = k
  · subst hk
    simp [hnone]
  · simp [hk]

theorem lookup_update :
    (t.update r).lookup k = if key r = k then (t.lookup k).map fun _ => r else t.lookup k := by
  have hfind : ∀ rows : List ρ, (updateRows rows r key).find? (fun x => decide (key x = k)) =
      if key r = k then (rows.find? fun x => decide (key x = k)).map fun _ => r
      else rows.find? fun x => decide (key x = k) := by
    intro rows
    induction rows with
    | nil => simp [updateRows]
    | cons x rows ih =>
        unfold updateRows at ih ⊢
        rw [List.map_cons, List.find?_cons, List.find?_cons, ih]
        by_cases hx : key x = key r
        · by_cases hk : key r = k <;> simp [hx, hk]
        · by_cases hk : key x = k
          · have hr : key r ≠ k := fun hr => hx (hk.trans hr.symm)
            rw [if_neg hx, if_neg hr, if_neg hr]
          · simp [hx, hk]
  exact hfind t.rows

theorem lookup_upsert : (t.upsert r).lookup k = if key r = k then some r else t.lookup k := by
  apply Option.ext
  intro x
  rw [lookup_eq_some]
  change x ∈ t.rows.filter _ ++ [r] ∧ key x = k ↔ _
  rw [List.mem_append, List.mem_filter, List.mem_singleton, decide_eq_true_eq]
  split_ifs with hk
  · rw [Option.some.injEq]
    constructor
    · rintro ⟨⟨-, hne⟩ | rfl, hx⟩
      · exact absurd (hx.trans hk.symm) hne
      · rfl
    · rintro rfl
      exact ⟨.inr rfl, hk⟩
  · rw [lookup_eq_some]
    constructor
    · rintro ⟨⟨hx, -⟩ | rfl, hkey⟩
      · exact ⟨hx, hkey⟩
      · exact absurd hkey hk
    · rintro ⟨hx, hkey⟩
      exact ⟨.inl ⟨hx, fun h => hk (h.symm.trans hkey)⟩, hkey⟩

/-- The last of a list of rows that has the key. -/
def last (key : ρ → κ) (rows : List ρ) (k : κ) : Option ρ := rows.reverse.find? fun r => decide (key r = k)

theorem last_append (rows rows' : List ρ) : last key (rows ++ rows') k = (last key rows' k).or (last key rows k) := by
  rw [last, List.reverse_append, List.find?_append]
  rfl

theorem last_singleton : last key [r] k = if key r = k then some r else none := by
  rw [last, List.reverse_singleton, List.find?_singleton]
  simp only [decide_eq_true_eq]

theorem last_cons (rows : List ρ) :
    last key (r :: rows) k = (last key rows k).or (if key r = k then some r else none) := by
  rw [← List.singleton_append, last_append, last_singleton]

theorem mem_of_last {rows : List ρ} (h : last key rows k = some r) : r ∈ rows ∧ key r = k := by
  have hkey : decide (key r = k) = true := List.find?_some (p := fun r => decide (key r = k)) h
  exact ⟨List.mem_reverse.mp (List.mem_of_find?_eq_some h), of_decide_eq_true hkey⟩

theorem updateRows_append (rows rows' : List ρ) (r : ρ) :
    updateRows (rows ++ rows') r key = updateRows rows r key ++ updateRows rows' r key :=
  List.map_append

theorem updateRows_of_not_mem {rows : List ρ} (h : key r ∉ rows.map key) : updateRows rows r key = rows := by
  unfold updateRows
  conv_rhs => rw [← List.map_id rows]
  apply List.map_congr_left
  intro x hx
  have hkey : key x ≠ key r := fun hkey => h (hkey ▸ List.mem_map_of_mem hx)
  exact if_neg hkey

theorem countP_updateRows {rows : List ρ} {x : ρ} (hnodup : (rows.map key).Nodup) (hx : x ∈ rows)
    (hkey : key x = key r) (P : ρ → Bool) :
    (updateRows rows r key).countP P + (P x).toNat = rows.countP P + (P r).toNat := by
  induction rows with
  | nil => cases hx
  | cons y rows ih =>
      rw [List.map_cons, List.nodup_cons] at hnodup
      have hcons : updateRows (y :: rows) r key = (if key y = key r then r else y) :: updateRows rows r key := rfl
      rw [hcons, List.countP_cons, List.countP_cons]
      rcases List.mem_cons.mp hx with rfl | hx
      · rw [if_pos hkey, updateRows_of_not_mem (hkey ▸ hnodup.1)]
        cases P x <;> cases P r <;> simp
      · have hne : key y ≠ key r := fun hc => hnodup.1 (List.mem_map.mpr ⟨x, hx, hkey.trans hc.symm⟩)
        have hrest := ih hnodup.2 hx
        rw [if_neg hne]
        omega

/-- An update takes the old row out of a count and the new one in. -/
theorem countP_update {x : ρ} (h : t.lookup (key r) = some x) (P : ρ → Bool) :
    (t.update r).rows.countP P + (P x).toNat = t.rows.countP P + (P r).toNat :=
  countP_updateRows t.nodup (lookup_eq_some.mp h).1 (lookup_eq_some.mp h).2 P

/-- The rows after a sequence of updates. -/
def updateAll (key : ρ → κ) (rows updates : List ρ) : List ρ :=
  updates.foldl (fun rows r => updateRows rows r key) rows

theorem updateAll_append (rows rows' : List ρ) (updates : List ρ) :
    updateAll key (rows ++ rows') updates = updateAll key rows updates ++ updateAll key rows' updates := by
  induction updates generalizing rows rows' with
  | nil => rfl
  | cons r updates ih =>
      unfold updateAll at ih ⊢
      rw [List.foldl_cons, updateRows_append, ih, List.foldl_cons, List.foldl_cons]

theorem updateAll_updates_append (rows updates updates' : List ρ) :
    updateAll key rows (updates ++ updates') = updateAll key (updateAll key rows updates) updates' :=
  List.foldl_append

theorem updateAll_of_disjoint {rows updates : List ρ} (h : ∀ r ∈ updates, key r ∉ rows.map key) :
    updateAll key rows updates = rows := by
  induction updates with
  | nil => rfl
  | cons r updates ih =>
      unfold updateAll at ih ⊢
      rw [List.foldl_cons, updateRows_of_not_mem (h r List.mem_cons_self)]
      exact ih fun x hx => h x (List.mem_cons_of_mem _ hx)

theorem map_key_updateAll (rows updates : List ρ) :
    (updateAll key rows updates).map key = rows.map key := by
  induction updates generalizing rows with
  | nil => rfl
  | cons r updates ih => exact (ih _).trans (map_key_updateRows rows r)

/-- A row that no update names keeps its place and its value. -/
theorem mem_updateAll_of_ne {rows updates : List ρ} {x : ρ} (h : ∀ r ∈ updates, key r ≠ key x) :
    x ∈ updateAll key rows updates ↔ x ∈ rows := by
  induction updates generalizing rows with
  | nil => rfl
  | cons r updates ih =>
      have hr : key r ≠ key x := h r List.mem_cons_self
      refine (ih fun y hy => h y (List.mem_cons_of_mem _ hy)).trans ?_
      unfold updateRows
      rw [List.mem_map]
      constructor
      · rintro ⟨y, hy, heq⟩
        split_ifs at heq
        · exact absurd (congrArg key heq) hr
        · exact heq ▸ hy
      · intro hx
        refine ⟨x, hx, if_neg ?_⟩
        exact fun hc => hr hc.symm

theorem rows_foldl_update (updates : List ρ) : (updates.foldl update t).rows = updateAll key t.rows updates := by
  induction updates generalizing t with
  | nil => rfl
  | cons r updates ih => exact ih

end Table

end LibTable
