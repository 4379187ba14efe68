import DistributedJobEngine.JsonScan

/-! Reading back what the serialiser writes. A value comes back as it was, up to the numbers that are kept
as a `double`, when it is nested at most as deep as the parser allows; a value nested deeper is refused. -/

namespace DistributedJobEngine

namespace Json

/-- A value as the constructors of `Json` build it: integers are `int64`, and `set` keeps the keys of an
object distinct. -/
inductive Plain : Json → Prop where
  | null : Plain .null
  | bool (b : Bool) : Plain (.bool b)
  | int (v : Int) (h : JsonParser.InInt64 v) : Plain (.int v)
  | double (bits : BitVec 64) : Plain (.double bits)
  | str (s : Bytes) : Plain (.str s)
  | array (items : List Json) (h : ∀ j ∈ items, Plain j) : Plain (.array items)
  | object (members : List (Bytes × Json)) (h : ∀ m ∈ members, Plain m.2)
      (hkeys : (members.map Prod.fst).Nodup) : Plain (.object members)

mutual

/-- The number of levels below a value. -/
def height : Json → ℕ
  | .array items => heightItems items
  | .object members => heightMembers members
  | _ => 0

def heightItems : List Json → ℕ
  | [] => 0
  | j :: items => max (height j + 1) (heightItems items)

def heightMembers : List (Bytes × Json) → ℕ
  | [] => 0
  | (_, j) :: members => max (height j + 1) (heightMembers members)

end

/-- `n` brackets around an empty array. -/
def nested : ℕ → Json
  | 0 => .array []
  | n + 1 => .array [nested n]

mutual

/-- What is read back: a `double` becomes what the parser makes of its text, and one that is not finite
becomes null. -/
def reread (libc : Libc) : Json → Json
  | .double bits =>
      if isFinite bits then
        match JsonParser.number libc (libc.formatDouble bits) with
        | .ok (j, _) => j
        | .error _ => .null
      else .null
  | .array items => .array (rereadItems libc items)
  | .object members => .object (rereadMembers libc members)
  | j => j

def rereadItems (libc : Libc) : List Json → List Json
  | [] => []
  | j :: items => reread libc j :: rereadItems libc items

def rereadMembers (libc : Libc) : List (Bytes × Json) → List (Bytes × Json)
  | [] => []
  | (key, j) :: members => (key, reread libc j) :: rereadMembers libc members

end

/-- No number of the value is kept as a `double`. -/
inductive Integral : Json → Prop where
  | null : Integral .null
  | bool (b : Bool) : Integral (.bool b)
  | int (v : Int) : Integral (.int v)
  | str (s : Bytes) : Integral (.str s)
  | array (items : List Json) (h : ∀ j ∈ items, Integral j) : Integral (.array items)
  | object (members : List (Bytes × Json)) (h : ∀ m ∈ members, Integral m.2) : Integral (.object members)

theorem rereadItems_eq (libc : Libc) (items : List Json) : rereadItems libc items = items.map (reread libc) := by
  induction items with
  | nil => rfl
  | cons j items ih => rw [rereadItems, ih, List.map_cons]

theorem rereadMembers_eq (libc : Libc) (members : List (Bytes × Json)) :
    rereadMembers libc members = members.map fun m => (m.1, reread libc m.2) := by
  induction members with
  | nil => rfl
  | cons m members ih => rw [rereadMembers, ih, List.map_cons]

theorem Integral.reread_eq {j : Json} (libc : Libc) (h : j.Integral) : j.reread libc = j := by
  induction h with
  | array items h ih =>
      rw [reread, rereadItems_eq, List.map_congr_left ih, List.map_id']
  | object members h ih =>
      rw [reread, rereadMembers_eq]
      congr 1
      exact (List.map_congr_left fun m hm => by rw [ih m hm]).trans (List.map_id' members)
  | _ => rfl

theorem heightItems_lt {n : ℕ} {items : List Json} : heightItems items < n + 1 ↔ ∀ j ∈ items, j.height < n := by
  induction items with
  | nil => simp [heightItems]
  | cons j items ih =>
      rw [heightItems, max_lt_iff, ih, List.forall_mem_cons]
      simp

theorem heightMembers_lt {n : ℕ} {members : List (Bytes × Json)} :
    heightMembers members < n + 1 ↔ ∀ m ∈ members, m.2.height < n := by
  induction members with
  | nil => simp [heightMembers]
  | cons m members ih =>
      rw [heightMembers, max_lt_iff, ih, List.forall_mem_cons]
      simp

end Json

/-- The text the C library prints for a finite `double` is a number of RFC 8259. -/
def Libc.PrintsNumbers (libc : Libc) : Prop :=
  ∀ bits, isFinite bits = true → ∃ sign whole frac exp, JsonParser.NumberToken sign whole frac exp ∧
    libc.formatDouble bits = sign ++ whole ++ frac ++ exp

/-- A C library that prints every `double` as a zero. -/
def zeroLibc : Libc := ⟨fun _ => text "0", fun _ => 0, fun _ => 0, fun _ => 0⟩

theorem zeroLibc_printsNumbers : zeroLibc.PrintsNumbers :=
  fun _ _ => ⟨[], [48], [], [], ⟨.inl rfl, .inl rfl, .inl rfl, .inl rfl⟩, rfl⟩

namespace JsonParser

variable {value : Bytes → Except JsonError (Parsed Json)} {piece close rest : Bytes} {pieces : List Bytes}

/-- The value parser reads `j` off the front of `piece`, and leaves what follows. -/
def Reads (value : Bytes → Except JsonError (Parsed Json)) (piece : Bytes) (j : Json) : Prop :=
  ∀ t, EndsNumber t → value (skipWs (piece ++ t)) = .ok (j, t)

/-- The value parser refuses `piece`, whatever follows. -/
def Refuses (value : Bytes → Except JsonError (Parsed Json)) (piece : Bytes) : Prop :=
  ∀ t, EndsNumber t → ∃ e, value (skipWs (piece ++ t)) = .error e

theorem endsNumber_blank (hclose : ∀ c ∈ close, isSpace c = true) : EndsNumber close := by
  cases close with
  | nil => trivial
  | cons b close =>
      exact forall_byte (P := fun b => isSpace b = true → isDigit b = false ∧ b ≠ 46 ∧ b ≠ 101 ∧ b ≠ 69)
        (by decide +kernel) b (hclose b List.mem_cons_self)

theorem endsNumber_close (hclose : ∀ c ∈ close, isSpace c = true) {c : UInt8} (hc : EndsNumber [c]) :
    EndsNumber (close ++ c :: rest) := by
  have hblank := endsNumber_blank hclose
  cases close with
  | nil => exact hc
  | cons b close => exact hblank

theorem endsNumber_comma (t : Bytes) : EndsNumber ([44] ++ t) :=
  show isDigit 44 = false ∧ (44 : UInt8) ≠ 46 ∧ (44 : UInt8) ≠ 101 ∧ (44 : UInt8) ≠ 69 by decide

theorem endsNumber_bracket : EndsNumber [93] :=
  show isDigit 93 = false ∧ (93 : UInt8) ≠ 46 ∧ (93 : UInt8) ≠ 101 ∧ (93 : UInt8) ≠ 69 by decide

theorem endsNumber_brace : EndsNumber [125] :=
  show isDigit 125 = false ∧ (125 : UInt8) ≠ 46 ∧ (125 : UInt8) ≠ 101 ∧ (125 : UInt8) ≠ 69 by decide

theorem intercalate_cons_cons (sep first second : Bytes) (others : List Bytes) :
    sep.intercalate (first :: second :: others) = first ++ (sep ++ sep.intercalate (second :: others)) := by
  simp [List.intercalate]

theorem skipWs_idem (s : Bytes) : skipWs (skipWs s) = skipWs s := List.dropWhile_idempotent isSpace s

/-- The items of an array are read one after the other. -/
theorem arrayLoop_reads {js : List Json} (h : List.Forall₂ (Reads value) pieces js) (hne : pieces ≠ [])
    (hclose : ∀ c ∈ close, isSpace c = true) (fuel : ℕ) (acc : List Json) (hfuel : pieces.length ≤ fuel) :
    arrayLoop value fuel acc ([44].intercalate pieces ++ (close ++ 93 :: rest)) =
      .ok (.array (acc ++ js), rest) := by
  induction h generalizing fuel acc with
  | nil => exact absurd rfl hne
  | @cons piece j pieces js hpiece hrest ih =>
      obtain ⟨fuel, rfl⟩ : ∃ n, fuel = n + 1 := ⟨fuel - 1, by simp only [List.length_cons] at hfuel; omega⟩
      cases hrest with
      | nil =>
          rw [List.intercalate_singleton, arrayLoop, hpiece _ (endsNumber_close hclose endsNumber_bracket)]
          simp only [bind, Except.bind, skipWs_append_of_all hclose,
            skipWs_cons_of_not (by decide : isSpace 93 = false)]
          rfl
      | @cons second j' others js' hsecond hothers =>
          have hnext := ih (List.cons_ne_nil _ _) fuel (acc ++ [j]) (by simpa using hfuel)
          rw [intercalate_cons_cons, List.append_assoc, List.append_assoc, arrayLoop,
            hpiece _ (endsNumber_comma _)]
          simp only [bind, Except.bind, List.singleton_append,
            skipWs_cons_of_not (by decide : isSpace 44 = false), if_true]
          rw [hnext, List.append_assoc]
          rfl

/-- An array one of whose items is refused is refused. -/
theorem arrayLoop_refuses (h : ∀ p ∈ pieces, (∃ j, Reads value p j) ∨ Refuses value p)
    (hbad : ∃ p ∈ pieces, Refuses value p) (hclose : ∀ c ∈ close, isSpace c = true) (fuel : ℕ)
    (acc : List Json) :
    ∃ e, arrayLoop value fuel acc ([44].intercalate pieces ++ (close ++ 93 :: rest)) = .error e := by
  induction pieces generalizing fuel acc with
  | nil =>
      obtain ⟨p, hp, -⟩ := hbad
      cases hp
  | cons piece pieces ih =>
      cases fuel with
      | zero => exact ⟨_, rfl⟩
      | succ fuel =>
          cases pieces with
          | nil =>
              obtain ⟨p, hp, hrefuses⟩ := hbad
              rw [List.mem_singleton.mp hp] at hrefuses
              obtain ⟨e, he⟩ := hrefuses (close ++ 93 :: rest)
                (endsNumber_close hclose endsNumber_bracket)
              refine ⟨e, ?_⟩
              rw [List.intercalate_singleton, arrayLoop, he]
              rfl
          | cons second others =>
              rw [intercalate_cons_cons, List.append_assoc, List.append_assoc, arrayLoop]
              rcases h piece List.mem_cons_self with ⟨j, hreads⟩ | hrefuses
              · have hlater : ∃ p ∈ second :: others, Refuses value p := by
                  obtain ⟨p, hp, hrefuses⟩ := hbad
                  rcases List.mem_cons.mp hp with rfl | hp
                  · -- it is read, so it is not the refused one
                    obtain ⟨e, he⟩ := hrefuses [] trivial
                    rw [hreads [] trivial] at he
                    cases he
                  · exact ⟨p, hp, hrefuses⟩
                obtain ⟨e, he⟩ := ih (fun p hp => h p (List.mem_cons_of_mem _ hp)) hlater fuel (acc ++ [j])
                refine ⟨e, ?_⟩
                rw [hreads _ (endsNumber_comma _)]
                simp only [bind, Except.bind, List.singleton_append,
                  skipWs_cons_of_not (by decide : isSpace 44 = false), if_true]
                exact he
              · obtain ⟨e, he⟩ := hrefuses _ (endsNumber_comma ([44].intercalate (second :: others) ++
                  (close ++ 93 :: rest)))
                refine ⟨e, ?_⟩
                rw [he]
                rfl

/-- `piece` is the text of a member: blanks, the key, a colon and the text `body` of the value. -/
def MemberText (piece key body : Bytes) : Prop :=
  ∀ t, skipWs (piece ++ t) = Json.escape key ++ 58 :: (body ++ t)

/-- A round of the loop of `object` reads a member up to its value, and goes on from there. -/
theorem objectLoop_member {key body : Bytes} (h : MemberText piece key body) (fuel : ℕ)
    (members : List (Bytes × Json)) (t : Bytes) :
    objectLoop value (fuel + 1) members (piece ++ t) = (do
      let (v, s) ← value (skipWs (body ++ t))
      match skipWs s with
      | [] => fail "unterminated object" []
      | c :: s =>
          if c = 44 then objectLoop value fuel (setMember key v members) s
          else if c = 125 then .ok (.object (setMember key v members), s)
          else fail "expected ',' or '\x7d' in object" (c :: s)) := by
  have hkey : Json.escape key ++ 58 :: (body ++ t) =
      34 :: (key.flatMap Json.escapeByte ++ 34 :: 58 :: (body ++ t)) := by
    simp [Json.escape]
  rw [objectLoop, h t, hkey, expect_cons_self]
  simp only [string_escape, bind, Except.bind]
  rewrite [skipWs_cons_of_not (by decide : isSpace 58 = false), expect_cons_self]
  rfl

theorem setMember_of_notMem {key : Bytes} (v : Json) {members : List (Bytes × Json)}
    (h : key ∉ members.map Prod.fst) : setMember key v members = members ++ [(key, v)] := by
  induction members with
  | nil => rfl
  | cons m members ih =>
      rw [List.map_cons, List.mem_cons, not_or] at h
      rw [setMember, if_neg (Ne.symm h.1), ih h.2, List.cons_append]

/-- The members of an object are read one after the other. -/
theorem objectLoop_reads {ms : List (Bytes × Json)}
    (h : List.Forall₂ (fun piece m => ∃ body, MemberText piece m.1 body ∧ Reads value body m.2) pieces ms)
    (hne : pieces ≠ []) (hclose : ∀ c ∈ close, isSpace c = true) (fuel : ℕ) (acc : List (Bytes × Json))
    (hkeys : ((acc ++ ms).map Prod.fst).Nodup) (hfuel : pieces.length ≤ fuel) :
    objectLoop value fuel acc ([44].intercalate pieces ++ (close ++ 125 :: rest)) =
      .ok (.object (acc ++ ms), rest) := by
  induction h generalizing fuel acc with
  | nil => exact absurd rfl hne
  | @cons piece m pieces ms hpiece hrest ih =>
      obtain ⟨fuel, rfl⟩ : ∃ n, fuel = n + 1 := ⟨fuel - 1, by simp only [List.length_cons] at hfuel; omega⟩
      obtain ⟨body, htext, hreads⟩ := hpiece
      have hfresh : m.1 ∉ acc.map Prod.fst := by
        rw [List.map_append, List.map_cons] at hkeys
        exact fun hmem => List.disjoint_of_nodup_append hkeys hmem List.mem_cons_self
      cases hrest with
      | nil =>
          rw [List.intercalate_singleton, objectLoop_member htext,
            hreads _ (endsNumber_close hclose endsNumber_brace)]
          simp only [bind, Except.bind, skipWs_append_of_all hclose,
            skipWs_cons_of_not (by decide : isSpace 125 = false), setMember_of_notMem _ hfresh]
          rfl
      | @cons second m' others ms' hsecond hothers =>
          have hnext := ih (List.cons_ne_nil _ _) fuel (acc ++ [m]) (by simpa using hkeys) (by simpa using hfuel)
          rw [intercalate_cons_cons, List.append_assoc, List.append_assoc, objectLoop_member htext,
            hreads _ (endsNumber_comma _)]
          simp only [bind, Except.bind, List.singleton_append,
            skipWs_cons_of_not (by decide : isSpace 44 = false), if_true, setMember_of_notMem _ hfresh]
          rw [hnext, List.append_assoc]
          rfl

/-- An object one of whose values is refused is refused. -/
theorem objectLoop_refuses
    (h : ∀ p ∈ pieces, ∃ key body, MemberText p key body ∧ ((∃ j, Reads value body j) ∨ Refuses value body))
    (hbad : ∃ p ∈ pieces, ∃ key body, MemberText p key body ∧ Refuses value body)
    (hclose : ∀ c ∈ close, isSpace c = true) (fuel : ℕ) (acc : List (Bytes × Json)) :
    ∃ e, objectLoop value fuel acc ([44].intercalate pieces ++ (close ++ 125 :: rest)) = .error e := by
  induction pieces generalizing fuel acc with
  | nil =>
      obtain ⟨p, hp, -⟩ := hbad
      cases hp
  | cons piece pieces ih =>
      cases fuel with
      | zero => exact ⟨_, rfl⟩
      | succ fuel =>
          cases pieces with
          | nil =>
              obtain ⟨p, hp, key, body, htext, hrefuses⟩ := hbad
              rw [List.mem_singleton.mp hp] at htext
              obtain ⟨e, he⟩ := hrefuses (close ++ 125 :: rest) (endsNumber_close hclose endsNumber_brace)
              refine ⟨e, ?_⟩
              rw [List.intercalate_singleton, objectLoop_member htext, he]
              rfl
          | cons second others =>
              rw [intercalate_cons_cons, List.append_assoc, List.append_assoc]
              obtain ⟨p, hp, key, body, htext, hrefuses⟩ := hbad
              rcases List.mem_cons.mp hp with rfl | hp
              · obtain ⟨e, he⟩ := hrefuses _ (endsNumber_comma ([44].intercalate (second :: others) ++
                  (close ++ 125 :: rest)))
                refine ⟨e, ?_⟩
                rw [objectLoop_member htext, he]
                rfl
              · obtain ⟨key', body', htext', hreads | hrefuses'⟩ := h piece List.mem_cons_self
                · obtain ⟨j, hreads⟩ := hreads
                  obtain ⟨e, he⟩ := ih (fun p hp => h p (List.mem_cons_of_mem _ hp))
                    ⟨p, hp, key, body, htext, hrefuses⟩ fuel (setMember key' j acc)
                  refine ⟨e, ?_⟩
                  rw [objectLoop_member htext', hreads _ (endsNumber_comma _)]
                  simp only [bind, Except.bind, List.singleton_append,
                    skipWs_cons_of_not (by decide : isSpace 44 = false), if_true]
                  exact he
                · obtain ⟨e, he⟩ := hrefuses' _ (endsNumber_comma ([44].intercalate (second :: others) ++
                    (close ++ 125 :: rest)))
                  refine ⟨e, ?_⟩
                  rw [objectLoop_member htext', he]
                  rfl

/-- The text of a value starts with a byte that is neither blank nor closes a bracket. -/
theorem dumpInto_starts {libc : Libc} (hlibc : libc.PrintsNumbers) (indent depth : ℕ) (j : Json) :
    ∃ c s, j.dumpInto libc indent depth = c :: s ∧ isSpace c = false ∧ c ≠ 93 ∧ c ≠ 125 := by
  have hdigit : ∀ c : UInt8, isDigit c = true → isSpace c = false ∧ c ≠ 93 ∧ c ≠ 125 :=
    forall_byte (P := fun c => isDigit c = true → isSpace c = false ∧ c ≠ 93 ∧ c ≠ 125) (by decide +kernel)
  have hnumber : ∀ sign digits tail : Bytes, (sign = [] ∨ sign = [45]) → Digits digits →
      ∃ c s, sign ++ digits ++ tail = c :: s ∧ isSpace c = false ∧ c ≠ 93 ∧ c ≠ 125 := by
    rintro sign digits tail (rfl | rfl) hdigits
    · cases digits with
      | nil => exact absurd rfl hdigits.1
      | cons c digits => exact ⟨c, _, rfl, hdigit c (hdigits.2 c List.mem_cons_self)⟩
    · exact ⟨45, _, rfl, by decide⟩
  cases j with
  | null => exact ⟨110, _, rfl, by decide⟩
  | bool b =>
      cases b
      · exact ⟨102, _, rfl, by decide⟩
      · exact ⟨116, _, rfl, by decide⟩
  | int v =>
      obtain ⟨c, s, hstart, hc⟩ := hnumber (if v < 0 then [45] else []) (decimal v.natAbs) []
        (by split <;> simp) (digits_decimal _)
      refine ⟨c, s, ?_, hc⟩
      rw [← hstart, Json.dumpInto, num]
      split <;> simp
  | double bits =>
      rw [Json.dumpInto]
      cases hfinite : isFinite bits with
      | false => exact ⟨110, _, rfl, by decide⟩
      | true =>
          obtain ⟨sign, whole, frac, exp, htoken, heq⟩ := hlibc bits hfinite
          obtain ⟨c, s, hstart, hc⟩ := hnumber sign whole (frac ++ exp) htoken.sign htoken.whole.digits
          refine ⟨c, s, ?_, hc⟩
          rw [if_pos rfl, heq, List.append_assoc, hstart]
  | str s => exact ⟨34, _, rfl, by decide⟩
  | array items =>
      rw [Json.dumpInto]
      split
      · exact ⟨91, _, rfl, by decide⟩
      · exact ⟨91, _, rfl, by decide⟩
  | object members =>
      rw [Json.dumpInto]
      split
      · exact ⟨123, _, rfl, by decide⟩
      · exact ⟨123, _, rfl, by decide⟩

theorem skipWs_dumpInto {libc : Libc} (hlibc : libc.PrintsNumbers) (indent depth : ℕ) (j : Json) (t : Bytes) :
    skipWs (j.dumpInto libc indent depth ++ t) = j.dumpInto libc indent depth ++ t := by
  obtain ⟨c, s, hstart, hspace, -⟩ := dumpInto_starts hlibc indent depth j
  rw [hstart, List.cons_append, skipWs_cons_of_not hspace]

/-- Line breaks before a value do not matter. -/
theorem skipWs_indented {libc : Libc} (hlibc : libc.PrintsNumbers) (indent depth depth' : ℕ) (j : Json)
    (t : Bytes) :
    skipWs (Json.newlineIndent indent depth ++ j.dumpInto libc indent depth' ++ t) =
      j.dumpInto libc indent depth' ++ t := by
  rw [List.append_assoc, skipWs_append_of_all isSpace_of_mem_newlineIndent, skipWs_dumpInto hlibc]

theorem length_le_intercalate (pieces : List Bytes) : pieces.length ≤ ([44].intercalate pieces).length + 1 := by
  induction pieces with
  | nil => exact Nat.zero_le _
  | cons first pieces ih =>
      cases pieces with
      | nil => simp
      | cons second others =>
          rw [intercalate_cons_cons, List.length_append, List.length_append, List.length_cons, List.length_singleton]
          omega

theorem arrayLoop_skipWs (fuel : ℕ) (acc : List Json) (s : Bytes) :
    arrayLoop value (fuel + 1) acc (skipWs s) = arrayLoop value (fuel + 1) acc s := by
  rw [arrayLoop, arrayLoop, skipWs_idem]

theorem objectLoop_skipWs (fuel : ℕ) (acc : List (Bytes × Json)) (s : Bytes) :
    objectLoop value (fuel + 1) acc (skipWs s) = objectLoop value (fuel + 1) acc s := by
  rw [objectLoop, objectLoop, skipWs_idem]

/-- A text that starts like a number is read as one. -/
theorem value_of_number {libc : Libc} {c : UInt8} (hc : isDigit c = true ∨ c = 45) (levels : ℕ) (s : Bytes) :
    JsonParser.value libc (levels + 1) (c :: s) = number libc (c :: s) := by
  have hne : c ≠ 123 ∧ c ≠ 91 ∧ c ≠ 34 ∧ c ≠ 116 ∧ c ≠ 102 ∧ c ≠ 110 :=
    forall_byte (P := fun c => isDigit c = true ∨ c = 45 →
      c ≠ 123 ∧ c ≠ 91 ∧ c ≠ 34 ∧ c ≠ 116 ∧ c ≠ 102 ∧ c ≠ 110) (by decide +kernel) c hc
  obtain ⟨h₁, h₂, h₃, h₄, h₅, h₆⟩ := hne
  rw [JsonParser.value, if_neg h₁, if_neg h₂, if_neg h₃, if_neg h₄, if_neg h₅, if_neg h₆]

theorem NumberToken.starts {sign whole frac exp : Bytes} (h : NumberToken sign whole frac exp) (t : Bytes) :
    ∃ c s, sign ++ whole ++ frac ++ exp ++ t = c :: s ∧ (isDigit c = true ∨ c = 45) := by
  rcases h.sign with rfl | rfl
  · cases hwhole : whole with
    | nil => exact absurd hwhole h.whole.digits.1
    | cons c ws =>
        exact ⟨c, _, rfl, .inl (h.whole.digits.2 c (by rw [hwhole]; exact List.mem_cons_self))⟩
  · exact ⟨45, _, rfl, .inr rfl⟩

theorem value_of_token {libc : Libc} {sign whole frac exp : Bytes} (h : NumberToken sign whole frac exp)
    (levels : ℕ) (t : Bytes) :
    JsonParser.value libc (levels + 1) (sign ++ whole ++ frac ++ exp ++ t) =
      number libc (sign ++ whole ++ frac ++ exp ++ t) := by
  obtain ⟨c, s, hstart, hc⟩ := h.starts t
  rw [hstart]
  exact value_of_number hc levels s

/-- The items of an array are printed as texts that the parser reads one level further down. -/
theorem dumpItems_reads {libc : Libc} (hlibc : libc.PrintsNumbers) (indent depth : ℕ) {levels : ℕ} {items : List Json}
    (h : ∀ j ∈ items, ∀ t, EndsNumber t →
      JsonParser.value libc levels (j.dumpInto libc indent (depth + 1) ++ t) = .ok (j.reread libc, t)) :
    List.Forall₂ (Reads (JsonParser.value libc levels)) (Json.dumpItems libc indent depth items)
      (Json.rereadItems libc items) := by
  induction items with
  | nil => exact .nil
  | cons j items ih =>
      rw [List.forall_mem_cons] at h
      rw [Json.dumpItems, Json.rereadItems]
      refine .cons (fun t ht => ?_) (ih h.2)
      rw [skipWs_indented hlibc]
      exact h.1 t ht

theorem memberText_dumpMembers (libc : Libc) (indent depth : ℕ) (key : Bytes) (j : Json) :
    MemberText (Json.newlineIndent indent (depth + 1) ++ Json.escape key ++ 58 :: (if 0 < indent then [32] else []) ++
        j.dumpInto libc indent (depth + 1)) key
      ((if 0 < indent then [32] else []) ++ j.dumpInto libc indent (depth + 1)) := by
  intro t
  simp only [List.append_assoc, List.cons_append]
  rw [skipWs_append_of_all isSpace_of_mem_newlineIndent, Json.escape, List.cons_append,
    skipWs_cons_of_not (by decide : isSpace 34 = false)]

theorem skipWs_gap {libc : Libc} (hlibc : libc.PrintsNumbers) (indent depth : ℕ) (j : Json) (t : Bytes) :
    skipWs ((if 0 < indent then [32] else []) ++ j.dumpInto libc indent depth ++ t) =
      j.dumpInto libc indent depth ++ t := by
  rw [List.append_assoc, skipWs_append_of_all (by split <;> simp [isSpace]), skipWs_dumpInto hlibc]

theorem dumpMembers_reads {libc : Libc} (hlibc : libc.PrintsNumbers) (indent depth : ℕ) {levels : ℕ}
    {members : List (Bytes × Json)}
    (h : ∀ m ∈ members, ∀ t, EndsNumber t →
      JsonParser.value libc levels (m.2.dumpInto libc indent (depth + 1) ++ t) = .ok (m.2.reread libc, t)) :
    List.Forall₂ (fun piece m => ∃ body, MemberText piece m.1 body ∧ Reads (JsonParser.value libc levels) body m.2)
      (Json.dumpMembers libc indent depth members) (Json.rereadMembers libc members) := by
  induction members with
  | nil => exact .nil
  | cons m members ih =>
      rw [List.forall_mem_cons] at h
      rw [Json.dumpMembers, Json.rereadMembers]
      refine .cons ⟨_, memberText_dumpMembers libc indent depth m.1 m.2, fun t ht => ?_⟩ (ih h.2)
      rw [skipWs_gap hlibc]
      exact h.1 t ht

/-- The text of a non-empty array, after its bracket, is not that of an empty one. -/
theorem expect_bracket_dumpItems {libc : Libc} (hlibc : libc.PrintsNumbers) (indent depth : ℕ) {items : List Json}
    (hne : items ≠ []) (t : Bytes) :
    expect 93 (skipWs ([44].intercalate (Json.dumpItems libc indent depth items) ++ t)) = none := by
  cases items with
  | nil => exact absurd rfl hne
  | cons j items =>
      obtain ⟨c, s, hstart, -, hc, -⟩ := dumpInto_starts hlibc indent (depth + 1) j
      cases items with
      | nil =>
          rw [Json.dumpItems, Json.dumpItems, List.intercalate_singleton, skipWs_indented hlibc, hstart]
          exact expect_cons_of_ne hc _
      | cons second others =>
          rw [Json.dumpItems, Json.dumpItems, intercalate_cons_cons, List.append_assoc, skipWs_indented hlibc, hstart]
          exact expect_cons_of_ne hc _

/-- The text of a non-empty object, after its brace, is not that of an empty one. -/
theorem expect_brace_dumpMembers (libc : Libc) (indent depth : ℕ) {members : List (Bytes × Json)}
    (hne : members ≠ []) (t : Bytes) :
    expect 125 (skipWs ([44].intercalate (Json.dumpMembers libc indent depth members) ++ t)) = none := by
  cases members with
  | nil => exact absurd rfl hne
  | cons m members =>
      have htext := memberText_dumpMembers libc indent depth m.1 m.2
      cases members with
      | nil =>
          rw [Json.dumpMembers, Json.dumpMembers, List.intercalate_singleton, htext]
          rfl
      | cons second others =>
          rw [Json.dumpMembers, Json.dumpMembers, intercalate_cons_cons, List.append_assoc, htext]
          rfl

theorem array_eq_loop (value : Bytes → Except JsonError (Parsed Json)) {libc : Libc} (hlibc : libc.PrintsNumbers)
    (indent depth : ℕ) {items : List Json} (hne : items ≠ []) (t : Bytes) :
    ∃ fuel, (Json.dumpItems libc indent depth items).length ≤ fuel ∧
      array value ([44].intercalate (Json.dumpItems libc indent depth items) ++ t) =
        arrayLoop value fuel [] ([44].intercalate (Json.dumpItems libc indent depth items) ++ t) := by
  refine ⟨([44].intercalate (Json.dumpItems libc indent depth items) ++ t).length + 1, ?_, ?_⟩
  · have hle := length_le_intercalate (Json.dumpItems libc indent depth items)
    rw [List.length_append]
    omega
  · rw [array, expect_bracket_dumpItems hlibc indent depth hne t]
    exact arrayLoop_skipWs _ _ _

theorem object_eq_loop (value : Bytes → Except JsonError (Parsed Json)) (libc : Libc) (indent depth : ℕ)
    {members : List (Bytes × Json)} (hne : members ≠ []) (t : Bytes) :
    ∃ fuel, (Json.dumpMembers libc indent depth members).length ≤ fuel ∧
      object value ([44].intercalate (Json.dumpMembers libc indent depth members) ++ t) =
        objectLoop value fuel [] ([44].intercalate (Json.dumpMembers libc indent depth members) ++ t) := by
  refine ⟨([44].intercalate (Json.dumpMembers libc indent depth members) ++ t).length + 1, ?_, ?_⟩
  · have hle := length_le_intercalate (Json.dumpMembers libc indent depth members)
    rw [List.length_append]
    omega
  · rw [object, expect_brace_dumpMembers libc indent depth hne t]
    exact objectLoop_skipWs _ _ _

theorem value_dumpArray {libc : Libc} {indent depth levels : ℕ} {items : List Json} (hne : items ≠ []) (t : Bytes) :
    JsonParser.value libc (levels + 1) ((Json.array items).dumpInto libc indent depth ++ t) =
      array (JsonParser.value libc levels) ([44].intercalate (Json.dumpItems libc indent depth items) ++
        (Json.newlineIndent indent depth ++ 93 :: t)) := by
  have hempty : items.isEmpty = false := by simpa [List.isEmpty_iff] using hne
  rw [Json.dumpInto, hempty]
  simp only [Bool.false_eq_true, if_false, List.append_assoc, List.cons_append, List.nil_append]
  rw [JsonParser.value, if_neg (by decide), if_pos rfl]

theorem value_dumpObject {libc : Libc} {indent depth levels : ℕ} {members : List (Bytes × Json)}
    (hne : members ≠ []) (t : Bytes) :
    JsonParser.value libc (levels + 1) ((Json.object members).dumpInto libc indent depth ++ t) =
      object (JsonParser.value libc levels) ([44].intercalate (Json.dumpMembers libc indent depth members) ++
        (Json.newlineIndent indent depth ++ 125 :: t)) := by
  have hempty : members.isEmpty = false := by simpa [List.isEmpty_iff] using hne
  rw [Json.dumpInto, hempty]
  simp only [Bool.false_eq_true, if_false, List.append_assoc, List.cons_append, List.nil_append]
  rw [JsonParser.value, if_pos rfl]

/-- **A value comes back** from its text, compact or indented, whatever follows it, when it is nested at most
as deep as the parser allows. -/
theorem value_dumpInto {libc : Libc} (hlibc : libc.PrintsNumbers) (indent : ℕ) {j : Json} (h : j.Plain) :
    ∀ levels depth t, EndsNumber t → j.height < levels →
      JsonParser.value libc levels (j.dumpInto libc indent depth ++ t) = .ok (j.reread libc, t) := by
  induction h with
  | null =>
      rintro (_ | levels) depth t - hlevels
      · cases hlevels
      · rfl
  | bool b =>
      rintro (_ | levels) depth t - hlevels
      · cases hlevels
      · cases b <;> rfl
  | int v hv =>
      rintro (_ | levels) depth t ht hlevels
      · cases hlevels
      · obtain ⟨c, s, hnum⟩ : ∃ c s, num v = c :: s := List.exists_cons_of_ne_nil (by
          unfold num
          split
          · exact List.cons_ne_nil _ _
          · exact decimal_ne_nil _)
        have hc : isDigit c = true ∨ c = 45 := by
          unfold num at hnum
          split at hnum
          · cases hnum
            exact .inr rfl
          · exact .inl (isDigit_of_mem_decimal c (by rw [hnum]; exact List.mem_cons_self))
        have hread := number_num libc hv ht
        rw [Json.dumpInto]
        rw [hnum, List.cons_append] at hread ⊢
        rw [value_of_number hc, hread]
        rfl
  | double bits =>
      rintro (_ | levels) depth t ht hlevels
      · cases hlevels
      · cases hfinite : isFinite bits with
        | false =>
            rw [Json.dumpInto, Json.reread, hfinite]
            rfl
        | true =>
            obtain ⟨sign, whole, frac, exp, htoken, heq⟩ := hlibc bits hfinite
            have halone := number_append libc htoken (show EndsNumber [] from trivial)
            rw [List.append_nil] at halone
            rw [Json.dumpInto, Json.reread, hfinite, if_pos rfl, if_pos rfl, heq, value_of_token htoken,
              number_append libc htoken ht, halone]
  | str s =>
      rintro (_ | levels) depth t - hlevels
      · cases hlevels
      · have hquote : Json.escape s ++ t = 34 :: (s.flatMap Json.escapeByte ++ 34 :: t) := by simp [Json.escape]
        rw [Json.dumpInto, hquote, JsonParser.value, if_neg (by decide), if_neg (by decide), if_pos rfl,
          string_escape]
        rfl
  | array items h ih =>
      rintro (_ | levels) depth t - hlevels
      · cases hlevels
      · by_cases hne : items = []
        · subst hne
          rfl
        · rw [Json.height, Json.heightItems_lt] at hlevels
          have hreads := dumpItems_reads hlibc indent depth
            fun j hj t ht => ih j hj levels (depth + 1) t ht (hlevels j hj)
          obtain ⟨fuel, hfuel, hloop⟩ := array_eq_loop (JsonParser.value libc levels) hlibc indent depth hne
            (Json.newlineIndent indent depth ++ 93 :: t)
          have hpieces : Json.dumpItems libc indent depth items ≠ [] := by
            cases items with
            | nil => exact absurd rfl hne
            | cons j items => exact List.cons_ne_nil _ _
          rw [value_dumpArray hne, hloop, arrayLoop_reads hreads hpieces isSpace_of_mem_newlineIndent fuel [] hfuel]
          rfl
  | object members h hkeys ih =>
      rintro (_ | levels) depth t - hlevels
      · cases hlevels
      · by_cases hne : members = []
        · subst hne
          rfl
        · rw [Json.height, Json.heightMembers_lt] at hlevels
          have hreads := dumpMembers_reads hlibc indent depth
            fun m hm t ht => ih m hm levels (depth + 1) t ht (hlevels m hm)
          obtain ⟨fuel, hfuel, hloop⟩ := object_eq_loop (JsonParser.value libc levels) libc indent depth hne
            (Json.newlineIndent indent depth ++ 125 :: t)
          have hpieces : Json.dumpMembers libc indent depth members ≠ [] := by
            cases members with
            | nil => exact absurd rfl hne
            | cons m members => exact List.cons_ne_nil _ _
          have hread : ([] ++ Json.rereadMembers libc members).map Prod.fst = members.map Prod.fst := by
            rw [List.nil_append, Json.rereadMembers_eq, List.map_map]
            rfl
          rw [value_dumpObject hne, hloop, objectLoop_reads hreads hpieces isSpace_of_mem_newlineIndent fuel []
            (by rw [hread]; exact hkeys) hfuel]
          rfl

theorem dumpItems_eq (libc : Libc) (indent depth : ℕ) (items : List Json) :
    Json.dumpItems libc indent depth items =
      items.map fun j => Json.newlineIndent indent (depth + 1) ++ j.dumpInto libc indent (depth + 1) := by
  induction items with
  | nil => rfl
  | cons j items ih => rw [Json.dumpItems, ih, List.map_cons]

theorem dumpMembers_eq (libc : Libc) (indent depth : ℕ) (members : List (Bytes × Json)) :
    Json.dumpMembers libc indent depth members =
      members.map fun m => Json.newlineIndent indent (depth + 1) ++ Json.escape m.1 ++
        58 :: (if 0 < indent then [32] else []) ++ m.2.dumpInto libc indent (depth + 1) := by
  induction members with
  | nil => rfl
  | cons m members ih => rw [Json.dumpMembers, ih, List.map_cons]

/-- **A value nested too deep is refused.** -/
theorem value_dumpInto_deep {libc : Libc} (hlibc : libc.PrintsNumbers) (indent : ℕ) {j : Json} (h : j.Plain) :
    ∀ levels depth t, EndsNumber t → levels ≤ j.height →
      ∃ e, JsonParser.value libc levels (j.dumpInto libc indent depth ++ t) = .error e := by
  induction h with
  | array items hitems ih =>
      rintro (_ | levels) depth t - hlevels
      · exact ⟨_, rfl⟩
      · rw [Json.height, ← Nat.not_lt, Json.heightItems_lt] at hlevels
        push Not at hlevels
        obtain ⟨deep, hdeep, hheight⟩ := hlevels
        have hrefuses : ∀ j ∈ items, levels ≤ j.height → Refuses (JsonParser.value libc levels)
            (Json.newlineIndent indent (depth + 1) ++ j.dumpInto libc indent (depth + 1)) := by
          intro j hj hle t ht
          rw [skipWs_indented hlibc]
          exact ih j hj levels (depth + 1) t ht hle
        obtain ⟨fuel, -, hloop⟩ := array_eq_loop (JsonParser.value libc levels) hlibc indent depth
          (List.ne_nil_of_mem hdeep) (Json.newlineIndent indent depth ++ 93 :: t)
        rw [value_dumpArray (List.ne_nil_of_mem hdeep), hloop, dumpItems_eq]
        refine arrayLoop_refuses (fun p hp => ?_) ⟨_, List.mem_map_of_mem hdeep, hrefuses deep hdeep hheight⟩
          isSpace_of_mem_newlineIndent fuel []
        obtain ⟨j, hj, rfl⟩ := List.mem_map.mp hp
        rcases Nat.lt_or_ge j.height levels with hlt | hge
        · refine .inl ⟨j.reread libc, fun t ht => ?_⟩
          rw [skipWs_indented hlibc]
          exact value_dumpInto hlibc indent (hitems j hj) levels (depth + 1) t ht hlt
        · exact .inr (hrefuses j hj hge)
  | object members hmembers hkeys ih =>
      rintro (_ | levels) depth t - hlevels
      · exact ⟨_, rfl⟩
      · rw [Json.height, ← Nat.not_lt, Json.heightMembers_lt] at hlevels
        push Not at hlevels
        obtain ⟨deep, hdeep, hheight⟩ := hlevels
        have hrefuses : ∀ m ∈ members, levels ≤ m.2.height → Refuses (JsonParser.value libc levels)
            ((if 0 < indent then [32] else []) ++ m.2.dumpInto libc indent (depth + 1)) := by
          intro m hm hle t ht
          rw [skipWs_gap hlibc]
          exact ih m hm levels (depth + 1) t ht hle
        obtain ⟨fuel, -, hloop⟩ := object_eq_loop (JsonParser.value libc levels) libc indent depth
          (List.ne_nil_of_mem hdeep) (Json.newlineIndent indent depth ++ 125 :: t)
        rw [value_dumpObject (List.ne_nil_of_mem hdeep), hloop, dumpMembers_eq]
        refine objectLoop_refuses (fun p hp => ?_) ⟨_, List.mem_map_of_mem hdeep, deep.1, _,
          memberText_dumpMembers libc indent depth deep.1 deep.2, hrefuses deep hdeep hheight⟩
          isSpace_of_mem_newlineIndent fuel []
        obtain ⟨m, hm, rfl⟩ := List.mem_map.mp hp
        refine ⟨m.1, _, memberText_dumpMembers libc indent depth m.1 m.2, ?_⟩
        rcases Nat.lt_or_ge m.2.height levels with hlt | hge
        · refine .inl ⟨m.2.reread libc, fun t ht => ?_⟩
          rw [skipWs_gap hlibc]
          exact value_dumpInto hlibc indent (hmembers m hm) levels (depth + 1) t ht hlt
        · exact .inr (hrefuses m hm hge)
  | _ =>
      rintro (_ | levels) depth t - hlevels
      · exact ⟨_, rfl⟩
      · cases hlevels

end JsonParser

namespace Json

variable {libc : Libc} {j : Json}

/-- A text that is a dump is parsed back to what `reread` says, or refused when it is nested too deep. -/
theorem parse_dumpInto (hlibc : libc.PrintsNumbers) (indent : ℕ) (h : j.Plain)
    (hheight : j.height ≤ JsonParser.maxDepth) :
    parse libc (j.dumpInto libc indent 0) = .ok (j.reread libc) := by
  have hvalue := JsonParser.value_dumpInto hlibc indent h (JsonParser.maxDepth + 1) 0 [] trivial
    (Nat.lt_succ_of_le hheight)
  have hskip := JsonParser.skipWs_dumpInto hlibc indent 0 j []
  rw [List.append_nil] at hvalue hskip
  have hrun : JsonParser.run libc (j.dumpInto libc indent 0) = .ok (j.reread libc) := by
    rw [JsonParser.run, hskip, hvalue]
    rfl
  rw [parse, hrun]

theorem parse_dumpInto_deep (hlibc : libc.PrintsNumbers) (indent : ℕ) (h : j.Plain)
    (hheight : JsonParser.maxDepth < j.height) : ∃ e, parse libc (j.dumpInto libc indent 0) = .error e := by
  obtain ⟨e, he⟩ := JsonParser.value_dumpInto_deep hlibc indent h (JsonParser.maxDepth + 1) 0 [] trivial hheight
  have hskip := JsonParser.skipWs_dumpInto hlibc indent 0 j []
  rw [List.append_nil] at he hskip
  have hrun : JsonParser.run libc (j.dumpInto libc indent 0) = .error e := by
    rw [JsonParser.run, hskip, he]
    rfl
  exact ⟨_, by rw [parse, hrun]⟩

end Json

end DistributedJobEngine
