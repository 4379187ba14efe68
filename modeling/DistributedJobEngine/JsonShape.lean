import DistributedJobEngine.JsonRoundTrip

/-! What the parser returns: values whose integers are `int64`, whose objects have distinct keys, and which
are nested no deeper than the limit. -/

namespace DistributedJobEngine

namespace JsonParser

variable {value : Bytes → Except JsonError (Parsed Json)} {P : Json → Prop}

theorem mem_setMember {key : Bytes} {v : Json} {members : List (Bytes × Json)} {m : Bytes × Json}
    (h : m ∈ setMember key v members) : m = (key, v) ∨ m ∈ members := by
  induction members with
  | nil => exact .inl (List.mem_singleton.mp h)
  | cons first members ih =>
      rw [setMember] at h
      split at h
      · rcases List.mem_cons.mp h with h | h
        · exact .inl h
        · exact .inr (List.mem_cons_of_mem _ h)
      · rcases List.mem_cons.mp h with h | h
        · exact .inr (by rw [h]; exact List.mem_cons_self)
        · rcases ih h with h | h
          · exact .inl h
          · exact .inr (List.mem_cons_of_mem _ h)

theorem map_fst_setMember (key : Bytes) (v : Json) (members : List (Bytes × Json)) :
    (setMember key v members).map Prod.fst =
      if key ∈ members.map Prod.fst then members.map Prod.fst else members.map Prod.fst ++ [key] := by
  induction members with
  | nil => rfl
  | cons m members ih =>
      rw [setMember]
      by_cases hm : m.1 = key
      · rw [if_pos hm, if_pos (by rw [List.map_cons, hm]; exact List.mem_cons_self), List.map_cons, List.map_cons, hm]
      · rw [if_neg hm, List.map_cons, ih, List.map_cons]
        by_cases hmem : key ∈ members.map Prod.fst
        · rw [if_pos hmem, if_pos (List.mem_cons_of_mem _ hmem)]
        · rw [if_neg hmem, if_neg (by rw [List.mem_cons, not_or]; exact ⟨Ne.symm hm, hmem⟩), List.cons_append]

theorem nodup_setMember {key : Bytes} {v : Json} {members : List (Bytes × Json)}
    (h : (members.map Prod.fst).Nodup) : ((setMember key v members).map Prod.fst).Nodup := by
  rw [map_fst_setMember]
  split
  · exact h
  · next hnot => exact h.append (List.nodup_singleton _) (List.disjoint_singleton.mpr hnot)

theorem arrayLoop_ok (hvalue : ∀ s j t, value s = .ok (j, t) → P j) {fuel : ℕ} {acc : List Json} {s t : Bytes}
    {j : Json} (hacc : ∀ x ∈ acc, P x) (h : arrayLoop value fuel acc s = .ok (j, t)) :
    ∃ items, j = .array items ∧ ∀ x ∈ items, P x := by
  induction fuel generalizing acc s with
  | zero => cases h
  | succ fuel ih =>
      rw [arrayLoop] at h
      cases hv : value (skipWs s) with
      | error e =>
          rw [hv] at h
          cases h
      | ok r =>
          have hacc' : ∀ x ∈ acc ++ [r.1], P x := by
            rw [List.forall_mem_append, List.forall_mem_singleton]
            exact ⟨hacc, hvalue _ _ _ hv⟩
          rw [hv] at h
          simp only [bind, Except.bind] at h
          split at h
          · cases h
          · split_ifs at h
            · exact ih hacc' h
            · cases h
              exact ⟨_, rfl, hacc'⟩
            · cases h

theorem objectLoop_ok (hvalue : ∀ s j t, value s = .ok (j, t) → P j) {fuel : ℕ} {acc : List (Bytes × Json)}
    {s t : Bytes} {j : Json} (hacc : ∀ m ∈ acc, P m.2) (hkeys : (acc.map Prod.fst).Nodup)
    (h : objectLoop value fuel acc s = .ok (j, t)) :
    ∃ members, j = .object members ∧ (∀ m ∈ members, P m.2) ∧ (members.map Prod.fst).Nodup := by
  induction fuel generalizing acc s with
  | zero => cases h
  | succ fuel ih =>
      rw [objectLoop] at h
      split at h
      · cases h
      · next s₁ hquote =>
          cases hkey : string s₁ with
          | error e =>
              rw [hkey] at h
              cases h
          | ok k =>
              rw [hkey] at h
              simp only [bind, Except.bind] at h
              split at h
              · cases h
              · next s₂ hcolon =>
                  cases hv : value (skipWs s₂) with
                  | error e =>
                      rw [hv] at h
                      cases h
                  | ok r =>
                      have hacc' : ∀ m ∈ setMember k.1 r.1 acc, P m.2 := by
                        intro m hm
                        rcases mem_setMember hm with rfl | hm
                        · exact hvalue _ _ _ hv
                        · exact hacc m hm
                      rw [hv] at h
                      simp only at h
                      split at h
                      · cases h
                      · split_ifs at h
                        · exact ih hacc' (nodup_setMember hkeys) h
                        · cases h
                          exact ⟨_, rfl, hacc', nodup_setMember hkeys⟩
                        · cases h

theorem literal_ok {word s t : Bytes} {j j' : Json} (h : literal word j s = .ok (j', t)) : j' = j := by
  rw [literal] at h
  split at h
  · cases h
    rfl
  · cases h

theorem numberValue_plain (libc : Libc) (integral : Bool) (raw : Bytes) :
    (numberValue libc integral raw).Plain ∧ (numberValue libc integral raw).height = 0 := by
  unfold numberValue
  split
  · next h =>
      rw [Bool.and_eq_true, decide_eq_true_eq] at h
      exact ⟨.int _ h.2, rfl⟩
  · exact ⟨.double _, rfl⟩

theorem number_ok {libc : Libc} {s t : Bytes} {j : Json} (h : number libc s = .ok (j, t)) :
    j.Plain ∧ j.height = 0 := by
  unfold number at h
  simp only at h
  split at h
  · cases hfraction : fraction (integerPart ((expect 45 s).getD s)) with
    | error e =>
        rw [hfraction] at h
        cases h
    | ok f =>
        rw [hfraction] at h
        simp only [bind, Except.bind] at h
        cases hexponent : exponent f.2 with
        | error e =>
            rw [hexponent] at h
            cases h
        | ok x =>
            rw [hexponent] at h
            cases h
            exact numberValue_plain _ _ _
  · cases h

/-- **What the parser returns** is a well-formed value within the levels it may use. -/
theorem value_ok {libc : Libc} {levels : ℕ} : ∀ s j t, JsonParser.value libc levels s = .ok (j, t) →
    j.Plain ∧ j.height < levels := by
  induction levels with
  | zero =>
      intro s j t h
      cases s <;> cases h
  | succ levels ih =>
      intro s j t h
      cases s with
      | nil => cases h
      | cons c s =>
          rw [JsonParser.value] at h
          split_ifs at h
          · -- an object
            rw [object] at h
            split at h
            · cases h
              exact ⟨.object [] (by simp) List.nodup_nil, Nat.succ_pos _⟩
            · obtain ⟨members, rfl, hmembers, hkeys⟩ := objectLoop_ok ih (by simp) (by simp) h
              exact ⟨.object members (fun m hm => (hmembers m hm).1) hkeys,
                Json.heightMembers_lt.mpr fun m hm => (hmembers m hm).2⟩
          · -- an array
            rw [array] at h
            split at h
            · cases h
              exact ⟨.array [] (by simp), Nat.succ_pos _⟩
            · obtain ⟨items, rfl, hitems⟩ := arrayLoop_ok ih (by simp) h
              exact ⟨.array items fun x hx => (hitems x hx).1, Json.heightItems_lt.mpr fun x hx => (hitems x hx).2⟩
          · cases hstring : string s with
            | error e =>
                rw [hstring] at h
                cases h
            | ok r =>
                rw [hstring] at h
                cases h
                exact ⟨.str _, Nat.succ_pos _⟩
          · rw [literal_ok h]
            exact ⟨.bool true, Nat.succ_pos _⟩
          · rw [literal_ok h]
            exact ⟨.bool false, Nat.succ_pos _⟩
          · rw [literal_ok h]
            exact ⟨.null, Nat.succ_pos _⟩
          · obtain ⟨hplain, hheight⟩ := number_ok h
            exact ⟨hplain, by omega⟩

end JsonParser

/-- What `Json::parse` accepts is well formed and nested at most 64 levels deep. -/
theorem Json.parse_ok {libc : Libc} {t : Bytes} {j : Json} (h : Json.parse libc t = .ok j) :
    j.Plain ∧ j.height ≤ JsonParser.maxDepth := by
  rw [Json.parse] at h
  cases hrun : JsonParser.run libc t with
  | error e =>
      rw [hrun] at h
      cases h
  | ok j' =>
      rw [hrun] at h
      cases h
      rw [JsonParser.run] at hrun
      cases hvalue : JsonParser.value libc (JsonParser.maxDepth + 1) (JsonParser.skipWs t) with
      | error e =>
          rw [hvalue] at hrun
          cases hrun
      | ok r =>
          rw [hvalue] at hrun
          simp only [bind, Except.bind] at hrun
          split at hrun
          · cases hrun
            obtain ⟨hplain, hheight⟩ := JsonParser.value_ok _ _ _ hvalue
            exact ⟨hplain, Nat.le_of_lt_succ hheight⟩
          · cases hrun

end DistributedJobEngine
