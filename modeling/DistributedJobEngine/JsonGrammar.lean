import DistributedJobEngine.JsonShape

/-! The texts `Json::parse` accepts, as a grammar of its own: RFC 8259 with string characters taken as bytes,
surrogate escapes in pairs, and a bound on the nesting. -/

namespace DistributedJobEngine

namespace JsonGrammar

open JsonParser

/-- One character of a string as it is written. -/
inductive StringChar where
  | byte (c : UInt8)
  | short (e : UInt8)
  | unicode (a b c d : UInt8)
  deriving DecidableEq, Repr

namespace StringChar

def text : StringChar → Bytes
  | .byte c => [c]
  | .short e => [92, e]
  | .unicode a b c d => [92, 117, a, b, c, d]

def IsHexDigit (c : UInt8) : Prop := (48 ≤ c ∧ c ≤ 57) ∨ (97 ≤ c ∧ c ≤ 102) ∨ (65 ≤ c ∧ c ≤ 70)

/-- A byte from 0x20 on other than the quote and the backslash, one of the eight short escapes, or four hex
digits. -/
def WellFormed : StringChar → Prop
  | .byte c => 32 ≤ c ∧ c ≠ 34 ∧ c ≠ 92
  | .short e => e ∈ DistributedJobEngine.text "\"\\/bfnrt"
  | .unicode a b c d => IsHexDigit a ∧ IsHexDigit b ∧ IsHexDigit c ∧ IsHexDigit d

/-- The value of a `\u` escape. -/
def codeUnit : StringChar → Option ℕ
  | .unicode a b c d => hex4 a b c d
  | _ => none

def High (x : StringChar) : Prop := ∃ v ∈ x.codeUnit, 0xD800 ≤ v ∧ v ≤ 0xDBFF

def Low (x : StringChar) : Prop := ∃ v ∈ x.codeUnit, 0xDC00 ≤ v ∧ v ≤ 0xDFFF

theorem not_high {x : StringChar} (h : x.codeUnit = none) : ¬ x.High := by
  rintro ⟨v, hv, -⟩
  rw [h] at hv
  cases hv

theorem not_low {x : StringChar} (h : x.codeUnit = none) : ¬ x.Low := by
  rintro ⟨v, hv, -⟩
  rw [h] at hv
  cases hv

end StringChar

/-- Every escape of a high surrogate is followed at once by one of a low surrogate, and there are no other
surrogate escapes. -/
inductive Paired : List StringChar → Prop where
  | nil : Paired []
  | single {x : StringChar} {xs : List StringChar} (hhigh : ¬x.High) (hlow : ¬x.Low) (h : Paired xs) :
      Paired (x :: xs)
  | pair {x y : StringChar} {xs : List StringChar} (hx : x.High) (hy : y.Low) (h : Paired xs) :
      Paired (x :: y :: xs)

def StringToken (s : Bytes) : Prop :=
  ∃ xs : List StringChar, (∀ x ∈ xs, x.WellFormed) ∧ Paired xs ∧ s = 34 :: (xs.flatMap StringChar.text ++ [34])

def Blank (s : Bytes) : Prop := ∀ c ∈ s, isSpace c = true

/-- A text with blanks around it. -/
def Padded (item : Bytes → Prop) (s : Bytes) : Prop :=
  ∃ a v b, Blank a ∧ item v ∧ Blank b ∧ s = a ++ (v ++ b)

/-- One or more items with a comma between them. -/
inductive Listed (item : Bytes → Prop) : Bytes → Prop where
  | one {s : Bytes} (h : item s) : Listed item s
  | more {s t : Bytes} (h : item s) (hrest : Listed item t) : Listed item (s ++ 44 :: t)

/-- A name, a colon and a value. -/
def Member (value : Bytes → Prop) (s : Bytes) : Prop :=
  ∃ key b c v, StringToken key ∧ Blank b ∧ Blank c ∧ value v ∧ s = key ++ (b ++ 58 :: (c ++ v))

/-- A value, the values directly inside of which are of the kind `inner`. -/
inductive Value (inner : Bytes → Prop) : Bytes → Prop where
  | literal {w : Bytes} (h : w = text "true" ∨ w = text "false" ∨ w = text "null") : Value inner w
  | number {sign whole frac exp : Bytes} (h : NumberToken sign whole frac exp) :
      Value inner (sign ++ whole ++ frac ++ exp)
  | string {s : Bytes} (h : StringToken s) : Value inner s
  | emptyArray {b : Bytes} (h : Blank b) : Value inner (91 :: (b ++ [93]))
  | array {s : Bytes} (h : Listed (Padded inner) s) : Value inner (91 :: (s ++ [93]))
  | emptyObject {b : Bytes} (h : Blank b) : Value inner (123 :: (b ++ [125]))
  | object {s : Bytes} (h : Listed (Padded (Member inner)) s) : Value inner (123 :: (s ++ [125]))

/-- A value that takes at most `levels` levels, its own included. -/
def ValueWithin : ℕ → Bytes → Prop
  | 0 => fun _ => False
  | levels + 1 => Value (ValueWithin levels)

/-- A JSON text no value of which sits deeper than `depth`; its root is at depth 0. -/
def Text (depth : ℕ) : Bytes → Prop := Padded (ValueWithin (depth + 1))

/-! ### What is read is of the grammar -/

theorem exists_blank (s : Bytes) : ∃ b, Blank b ∧ s = b ++ skipWs s :=
  ⟨s.takeWhile isSpace, fun _ hc => List.mem_takeWhile_imp hc, List.takeWhile_append_dropWhile.symm⟩

theorem expect_eq_some {c : UInt8} {s t : Bytes} (h : expect c s = some t) : s = c :: t := by
  cases s with
  | nil => cases h
  | cons a s =>
      rw [expect] at h
      split at h
      · next heq =>
          cases h
          rw [heq]
      · cases h

theorem lit_eq_some {word s t : Bytes} (h : lit word s = some t) : s = word ++ t := by
  rw [lit] at h
  split at h
  · next hprefix =>
      cases h
      obtain ⟨t, rfl⟩ := List.isPrefixOf_iff_prefix.mp hprefix
      rw [List.drop_left]
  · cases h

theorem lit_append (word t : Bytes) : lit word (word ++ t) = some t := by
  rw [lit, if_pos (List.isPrefixOf_iff_prefix.mpr (List.prefix_append _ _)), List.drop_left]

theorem isHexDigit_iff {c : UInt8} : StringChar.IsHexDigit c ↔ (hexDigit c).isSome = true := by
  unfold StringChar.IsHexDigit hexDigit
  split_ifs <;> simp_all

theorem hex4_eq_some {a b c d : UInt8} {v : ℕ} (h : hex4 a b c d = some v) :
    (StringChar.unicode a b c d).WellFormed := by
  simp only [hex4, bind, Option.bind_eq_some_iff] at h
  obtain ⟨va, ha, vb, hb, vc, hc, vd, hd, -⟩ := h
  simp only [StringChar.WellFormed, isHexDigit_iff, ha, hb, hc, hd, Option.isSome_some, and_self]

theorem hexEscape_ok {s t : Bytes} {v : ℕ} (h : hexEscape s = .ok (v, t)) :
    ∃ a b c d, s = a :: b :: c :: d :: t ∧ hex4 a b c d = some v := by
  unfold hexEscape at h
  split at h
  · next a b c d s =>
      split at h
      · next w hw =>
          cases h
          exact ⟨a, b, c, d, rfl, hw⟩
      · cases h
  · cases h

/-- The text of one escape: a character that is no surrogate, or a pair of them. -/
def EscapeText (s : Bytes) : Prop :=
  (∃ x : StringChar, x.WellFormed ∧ ¬x.High ∧ ¬x.Low ∧ s = x.text) ∨
    ∃ x y : StringChar, x.WellFormed ∧ y.WellFormed ∧ x.High ∧ y.Low ∧ s = x.text ++ y.text

theorem codePoint_ok {s t : Bytes} {v : ℕ} (h : codePoint s = .ok (v, t)) :
    ∃ e, EscapeText e ∧ 92 :: 117 :: s = e ++ t := by
  unfold codePoint at h
  cases hhex : hexEscape s with
  | error e =>
      rw [hhex] at h
      cases h
  | ok r =>
      obtain ⟨cp, s₁⟩ := r
      rw [hhex] at h
      simp only [bind, Except.bind] at h
      obtain ⟨a, b, c, d, rfl, hcp⟩ := hexEscape_ok hhex
      split_ifs at h with hhigh hlow
      · split at h
        · next s₂ hlit =>
            rw [lit_eq_some hlit]
            cases hhex₂ : hexEscape s₂ with
            | error e =>
                rw [hhex₂] at h
                cases h
            | ok r₂ =>
                obtain ⟨lo, s₃⟩ := r₂
                rw [hhex₂] at h
                simp only at h
                obtain ⟨a', b', c', d', rfl, hlo⟩ := hexEscape_ok hhex₂
                split_ifs at h with hrange
                · obtain ⟨-, rfl⟩ := Prod.mk.inj (Except.ok.inj h)
                  exact ⟨_, .inr ⟨.unicode a b c d, .unicode a' b' c' d', hex4_eq_some hcp, hex4_eq_some hlo,
                    ⟨cp, hcp, hhigh⟩, ⟨lo, hlo, hrange⟩, rfl⟩, rfl⟩
                · cases h
        · cases h
      · cases h
      · cases h
        refine ⟨_, .inl ⟨.unicode a b c d, hex4_eq_some hcp, ?_, ?_, rfl⟩, rfl⟩
        · rintro ⟨v, hv, hrange⟩
          cases hcp.symm.trans hv
          exact hhigh hrange
        · rintro ⟨v, hv, hrange⟩
          cases hcp.symm.trans hv
          exact hlow hrange

theorem mem_short_iff {e : UInt8} : e ∈ text "\"\\/bfnrt" ↔ (simpleEscape e).isSome = true :=
  forall_byte (P := fun e => e ∈ text "\"\\/bfnrt" ↔ (simpleEscape e).isSome = true) (by decide +kernel) e

theorem escapeSequence_ok {s t out : Bytes} (h : escapeSequence s = .ok (out, t)) :
    ∃ e, EscapeText e ∧ 92 :: s = e ++ t := by
  cases s with
  | nil => cases h
  | cons c s =>
      rw [escapeSequence] at h
      split at h
      · next hu =>
          subst hu
          cases hcode : codePoint s with
          | error e =>
              rw [hcode] at h
              cases h
          | ok r =>
              rw [hcode] at h
              cases h
              exact codePoint_ok hcode
      · split at h
        · next b hshort =>
            cases h
            have hwf : (StringChar.short c).WellFormed := mem_short_iff.mpr (by rw [hshort]; rfl)
            exact ⟨_, .inl ⟨.short c, hwf, StringChar.not_high rfl, StringChar.not_low rfl, rfl⟩, rfl⟩
        · cases h

/-- The body of a string and its closing quote. -/
theorem stringLoop_ok {fuel : ℕ} {s t out r : Bytes} (h : stringLoop fuel out s = .ok (r, t)) :
    ∃ xs : List StringChar, (∀ x ∈ xs, x.WellFormed) ∧ Paired xs ∧ s = xs.flatMap StringChar.text ++ 34 :: t := by
  induction fuel generalizing s out with
  | zero => cases h
  | succ fuel ih =>
      cases s with
      | nil => cases h
      | cons c s =>
          rw [stringLoop] at h
          split_ifs at h with hquote hcontrol hslash
          · cases h
            exact ⟨[], by simp, .nil, by rw [hquote]; rfl⟩
          · cases h
          · obtain ⟨xs, hwf, hpaired, rfl⟩ := ih h
            refine ⟨.byte c :: xs, ?_, .single (StringChar.not_high rfl) (StringChar.not_low rfl) hpaired, rfl⟩
            rw [List.forall_mem_cons]
            exact ⟨⟨UInt8.not_lt.mp hcontrol, hquote, hslash⟩, hwf⟩
          · cases hescape : escapeSequence s with
            | error e =>
                rw [hescape] at h
                cases h
            | ok b =>
                rw [hescape] at h
                obtain ⟨xs, hwf, hpaired, hrest⟩ := ih h
                obtain ⟨e, he, htext⟩ := escapeSequence_ok hescape
                rw [not_not.mp hslash, htext, hrest]
                rcases he with ⟨x, hx, hhigh, hlow, rfl⟩ | ⟨x, y, hx, hy, hhigh, hlow, rfl⟩
                · refine ⟨x :: xs, List.forall_mem_cons.mpr ⟨hx, hwf⟩, .single hhigh hlow hpaired, ?_⟩
                  simp
                · refine ⟨x :: y :: xs, ?_, .pair hhigh hlow hpaired, ?_⟩
                  · exact List.forall_mem_cons.mpr ⟨hx, List.forall_mem_cons.mpr ⟨hy, hwf⟩⟩
                  · simp

theorem string_ok {s t out : Bytes} (h : string s = .ok (out, t)) : ∃ v, StringToken v ∧ 34 :: s = v ++ t := by
  obtain ⟨xs, hwf, hpaired, rfl⟩ := stringLoop_ok h
  exact ⟨_, ⟨xs, hwf, hpaired, rfl⟩, by simp⟩

/-! The parts of a number. -/

theorem digits_takeWhile {s : Bytes} (h : startsWithDigit s = true) : Digits (s.takeWhile isDigit) := by
  refine ⟨?_, fun _ hc => List.mem_takeWhile_imp hc⟩
  cases s with
  | nil => cases h
  | cons c s =>
      have hc : isDigit c = true := h
      rw [List.takeWhile_cons_of_pos hc]
      exact List.cons_ne_nil _ _

theorem integerPart_split {s : Bytes} (h : startsWithDigit s = true) :
    ∃ whole, Whole whole ∧ s = whole ++ integerPart s := by
  unfold integerPart
  split
  · next t ht => exact ⟨[48], .inl rfl, expect_eq_some ht⟩
  · next hne =>
      refine ⟨s.takeWhile isDigit, .inr ⟨digits_takeWhile h, ?_⟩, List.takeWhile_append_dropWhile.symm⟩
      cases s with
      | nil => cases h
      | cons c s =>
          have hc : isDigit c = true := h
          rw [List.takeWhile_cons_of_pos hc, List.head?_cons]
          rintro ⟨⟩
          rw [expect_cons_self] at hne
          cases hne

theorem fraction_ok {s t : Bytes} {b : Bool} (h : fraction s = .ok (b, t)) :
    ∃ frac, Fractional frac ∧ s = frac ++ t := by
  unfold fraction at h
  split at h
  · next s' hdot =>
      split at h
      · next hdigit =>
          cases h
          refine ⟨46 :: s'.takeWhile isDigit, .inr ⟨_, digits_takeWhile hdigit, rfl⟩, ?_⟩
          rw [expect_eq_some hdot, List.cons_append, List.takeWhile_append_dropWhile]
      · cases h
  · cases h
    exact ⟨[], .inl rfl, rfl⟩

theorem skipSign_split (s : Bytes) : ∃ sign, (sign = [] ∨ sign = [43] ∨ sign = [45]) ∧ s = sign ++ skipSign s := by
  cases s with
  | nil => exact ⟨[], .inl rfl, rfl⟩
  | cons c s =>
      rw [skipSign]
      split
      · next hc =>
          refine ⟨[c], ?_, rfl⟩
          rcases hc with rfl | rfl
          · exact .inr (.inl rfl)
          · exact .inr (.inr rfl)
      · exact ⟨[], .inl rfl, rfl⟩

theorem exponent_ok {s t : Bytes} {b : Bool} (h : exponent s = .ok (b, t)) : ∃ exp, Scaled exp ∧ s = exp ++ t := by
  cases s with
  | nil =>
      cases h
      exact ⟨[], .inl rfl, rfl⟩
  | cons c s =>
      rw [exponent] at h
      split_ifs at h with hc hdigit
      · cases h
        obtain ⟨sign, hsign, hs⟩ := skipSign_split s
        refine ⟨c :: (sign ++ (skipSign s).takeWhile isDigit),
          .inr ⟨c, sign, _, hc, hsign, digits_takeWhile hdigit, rfl⟩, ?_⟩
        rw [List.cons_append, List.append_assoc, List.takeWhile_append_dropWhile, ← hs]
      · cases h
      · cases h
        exact ⟨[], .inl rfl, rfl⟩

theorem number_split {libc : Libc} {s t : Bytes} {j : Json} (h : number libc s = .ok (j, t)) :
    ∃ sign whole frac exp, NumberToken sign whole frac exp ∧ s = sign ++ whole ++ frac ++ exp ++ t := by
  have hsign : ∃ sign, (sign = [] ∨ sign = [45]) ∧ s = sign ++ (expect 45 s).getD s := by
    cases hexpect : expect 45 s with
    | none => exact ⟨[], .inl rfl, rfl⟩
    | some s' => exact ⟨[45], .inr rfl, expect_eq_some hexpect⟩
  obtain ⟨sign, hsign, hs⟩ := hsign
  unfold number at h
  simp only at h
  split at h
  · next hdigit =>
      obtain ⟨whole, hwhole, hs₁⟩ := integerPart_split hdigit
      cases hfraction : fraction (integerPart ((expect 45 s).getD s)) with
      | error e =>
          rw [hfraction] at h
          cases h
      | ok f =>
          rw [hfraction] at h
          simp only [bind, Except.bind] at h
          obtain ⟨frac, hfrac, hs₂⟩ := fraction_ok hfraction
          cases hexponent : exponent f.2 with
          | error e =>
              rw [hexponent] at h
              cases h
          | ok x =>
              rw [hexponent] at h
              cases h
              obtain ⟨exp, hexp, hs₃⟩ := exponent_ok hexponent
              refine ⟨sign, whole, frac, exp, ⟨hsign, hwhole, hfrac, hexp⟩, ?_⟩
              rw [hs, hs₁, hs₂, hs₃]
              simp only [List.append_assoc]
  · cases h

/-! The two loops, over any parser of the values inside. -/

section Loops

variable {inner item : Bytes → Prop} {value : Bytes → Except JsonError (Parsed Json)}

theorem Padded.blank {b s : Bytes} (hb : Blank b) (h : Padded item s) : Padded item (b ++ s) := by
  obtain ⟨a, v, c, ha, hv, hc, rfl⟩ := h
  exact ⟨b ++ a, v, c, List.forall_mem_append.mpr ⟨hb, ha⟩, hv, hc, (List.append_assoc _ _ _).symm⟩

theorem Listed.blank {b s : Bytes} (hb : Blank b) (h : Listed (Padded item) s) : Listed (Padded item) (b ++ s) := by
  cases h with
  | one h => exact .one (h.blank hb)
  | more h hrest =>
      rw [← List.append_assoc]
      exact .more (h.blank hb) hrest

theorem arrayLoop_split (hvalue : ∀ s j t, value s = .ok (j, t) → ∃ v, inner v ∧ s = v ++ t) {fuel : ℕ}
    {acc : List Json} {s t : Bytes} {j : Json} (h : arrayLoop value fuel acc s = .ok (j, t)) :
    ∃ body, Listed (Padded inner) body ∧ s = body ++ 93 :: t := by
  induction fuel generalizing acc s with
  | zero => cases h
  | succ fuel ih =>
      rw [arrayLoop] at h
      cases hv : value (skipWs s) with
      | error e =>
          rw [hv] at h
          cases h
      | ok r =>
          rw [hv] at h
          simp only [bind, Except.bind] at h
          obtain ⟨v, hinner, hread⟩ := hvalue _ _ _ hv
          obtain ⟨a, ha, hs⟩ := exists_blank s
          obtain ⟨b, hb, hr⟩ := exists_blank r.2
          have hitem : Padded inner (a ++ (v ++ b)) := ⟨a, v, b, ha, hinner, hb, rfl⟩
          split at h
          · cases h
          · next c u hnext =>
              have htext : s = a ++ (v ++ b) ++ c :: u := by
                rw [hs, hread, hr, hnext]
                simp only [List.append_assoc]
              split_ifs at h with hcomma hclose
              · obtain ⟨body, hbody, rfl⟩ := ih h
                exact ⟨_, .more hitem hbody, by simp [htext, hcomma]⟩
              · cases h
                exact ⟨_, .one hitem, by rw [htext, hclose]⟩
              · cases h

theorem objectLoop_split (hvalue : ∀ s j t, value s = .ok (j, t) → ∃ v, inner v ∧ s = v ++ t) {fuel : ℕ}
    {acc : List (Bytes × Json)} {s t : Bytes} {j : Json} (h : objectLoop value fuel acc s = .ok (j, t)) :
    ∃ body, Listed (Padded (Member inner)) body ∧ s = body ++ 125 :: t := by
  induction fuel generalizing acc s with
  | zero => cases h
  | succ fuel ih =>
      rw [objectLoop] at h
      split at h
      · cases h
      · next s₁ hquote =>
          cases hkey : string s₁ with
          | error e =>
              rw [hkey] at h
              cases h
          | ok k =>
              rw [hkey] at h
              simp only [bind, Except.bind] at h
              split at h
              · cases h
              · next s₂ hcolon =>
                  cases hv : value (skipWs s₂) with
                  | error e =>
                      rw [hv] at h
                      cases h
                  | ok r =>
                      rw [hv] at h
                      simp only at h
                      obtain ⟨key, hstring, hread₁⟩ := string_ok hkey
                      obtain ⟨v, hinner, hread₂⟩ := hvalue _ _ _ hv
                      obtain ⟨a, ha, hs⟩ := exists_blank s
                      obtain ⟨b, hb, hk⟩ := exists_blank k.2
                      obtain ⟨c, hc, hs₂⟩ := exists_blank s₂
                      obtain ⟨d, hd, hr⟩ := exists_blank r.2
                      have hitem : Padded (Member inner) (a ++ (key ++ (b ++ 58 :: (c ++ v)) ++ d)) :=
                        ⟨a, _, d, ha, ⟨key, b, c, v, hstring, hb, hc, hinner, rfl⟩, hd, rfl⟩
                      split at h
                      · cases h
                      · next e u hnext =>
                          have htext : s = a ++ (key ++ (b ++ 58 :: (c ++ v)) ++ d) ++ e :: u := by
                            rw [hs, expect_eq_some hquote, hread₁, hk, expect_eq_some hcolon, hs₂, hread₂, hr, hnext]
                            simp only [List.append_assoc, List.cons_append]
                          split_ifs at h with hcomma hclose
                          · obtain ⟨body, hbody, rfl⟩ := ih h
                            exact ⟨_, .more hitem hbody, by simp [htext, hcomma]⟩
                          · cases h
                            exact ⟨_, .one hitem, by rw [htext, hclose]⟩
                          · cases h

end Loops

theorem literal_split {word s t : Bytes} {j j' : Json} (h : literal word j s = .ok (j', t)) : s = word ++ t := by
  rw [literal] at h
  split at h
  · next u hu =>
      cases h
      exact lit_eq_some hu
  · cases h

/-- What the parser reads as a value is one of the grammar. -/
theorem value_split {libc : Libc} {levels : ℕ} : ∀ s j t, JsonParser.value libc levels s = .ok (j, t) →
    ∃ v, ValueWithin levels v ∧ s = v ++ t := by
  induction levels with
  | zero =>
      intro s j t h
      cases s <;> cases h
  | succ levels ih =>
      intro s j t h
      cases s with
      | nil => cases h
      | cons c s =>
          rw [JsonParser.value] at h
          obtain ⟨b, hb, hs⟩ := exists_blank s
          split_ifs at h with hobject harray hquote htrue hfalse hnull
          · rw [object] at h
            split at h
            · next u hclose =>
                cases h
                refine ⟨_, .emptyObject hb, ?_⟩
                rw [hobject, hs, expect_eq_some hclose]
                simp
            · obtain ⟨body, hbody, htext⟩ := objectLoop_split ih h
              refine ⟨_, .object (hbody.blank hb), ?_⟩
              rw [hobject, hs, htext]
              simp
          · rw [array] at h
            split at h
            · next u hclose =>
                cases h
                refine ⟨_, .emptyArray hb, ?_⟩
                rw [harray, hs, expect_eq_some hclose]
                simp
            · obtain ⟨body, hbody, htext⟩ := arrayLoop_split ih h
              refine ⟨_, .array (hbody.blank hb), ?_⟩
              rw [harray, hs, htext]
              simp
          · cases hstring : string s with
            | error e =>
                rw [hstring] at h
                cases h
            | ok r =>
                rw [hstring] at h
                cases h
                obtain ⟨v, hv, htext⟩ := string_ok hstring
                exact ⟨v, .string hv, by rw [hquote, htext]⟩
          · exact ⟨_, .literal (.inl rfl), literal_split h⟩
          · exact ⟨_, .literal (.inr (.inl rfl)), literal_split h⟩
          · exact ⟨_, .literal (.inr (.inr rfl)), literal_split h⟩
          · obtain ⟨sign, whole, frac, exp, htoken, htext⟩ := number_split h
            exact ⟨_, .number htoken, htext⟩

/-! ### What is of the grammar is read -/

theorem skipWs_blank {b : Bytes} (hb : Blank b) (t : Bytes) : skipWs (b ++ t) = skipWs t :=
  skipWs_append_of_all hb t

theorem skipWs_blank_cons {b : Bytes} (hb : Blank b) {c : UInt8} (hc : isSpace c = false) (t : Bytes) :
    skipWs (b ++ c :: t) = c :: t := by
  rw [skipWs_blank hb, skipWs_cons_of_not hc]

theorem exists_hex4 {a b c d : UInt8} (h : (StringChar.unicode a b c d).WellFormed) : ∃ v, hex4 a b c d = some v := by
  simp only [StringChar.WellFormed, isHexDigit_iff, Option.isSome_iff_exists] at h
  obtain ⟨⟨va, ha⟩, ⟨vb, hb⟩, ⟨vc, hc⟩, ⟨vd, hd⟩⟩ := h
  exact ⟨_, by simp only [hex4, ha, hb, hc, hd]; rfl⟩

theorem hexEscape_of_hex4 {a b c d : UInt8} {v : ℕ} (h : hex4 a b c d = some v) (t : Bytes) :
    hexEscape (a :: b :: c :: d :: t) = .ok (v, t) := by
  simp only [hexEscape, h]

theorem escapeSequence_of_codePoint {s t : Bytes} {v : ℕ} (h : codePoint s = .ok (v, t)) :
    escapeSequence (117 :: s) = .ok (utf8 v, t) := by
  rw [escapeSequence, if_pos rfl, h]
  rfl

/-- An escape, after its backslash, is read. -/
theorem escapeSequence_text {e : Bytes} (h : EscapeText (92 :: e)) (t : Bytes) :
    ∃ out, escapeSequence (e ++ t) = .ok (out, t) := by
  rcases h with ⟨x, hwf, hhigh, hlow, htext⟩ | ⟨x, y, -, -, ⟨hi, hhi, hhigh⟩, ⟨lo, hlo, hlow⟩, htext⟩
  · cases x with
    | byte c =>
        cases htext
        exact absurd rfl hwf.2.2
    | short c =>
        cases htext
        obtain ⟨b, hb⟩ := Option.isSome_iff_exists.mp (mem_short_iff.mp hwf)
        have hne : c ≠ 117 := by
          rintro rfl
          cases hb
        exact ⟨_, escapeSequence_simple hne hb t⟩
    | unicode a b c d =>
        cases htext
        obtain ⟨v, hv⟩ := exists_hex4 hwf
        have hcode : codePoint (a :: b :: c :: d :: t) = .ok (v, t) := by
          simp only [codePoint, hexEscape_of_hex4 hv, bind, Except.bind]
          rw [if_neg fun hrange => hhigh ⟨v, hv, hrange⟩, if_neg fun hrange => hlow ⟨v, hv, hrange⟩]
        exact ⟨_, escapeSequence_of_codePoint hcode⟩
  · cases x with
    | byte c => cases hhi
    | short c => cases hhi
    | unicode a b c d =>
        cases y with
        | byte c => cases hlo
        | short c => cases hlo
        | unicode a' b' c' d' =>
            cases htext
            have hlit : lit (text "\\u") (92 :: 117 :: a' :: b' :: c' :: d' :: t) =
                some (a' :: b' :: c' :: d' :: t) := lit_append (text "\\u") _
            have hcode : codePoint (a :: b :: c :: d :: 92 :: 117 :: a' :: b' :: c' :: d' :: t) =
                .ok (0x10000 + (hi - 0xD800) * 1024 + (lo - 0xDC00), t) := by
              simp only [codePoint, hexEscape_of_hex4 hhi, bind, Except.bind]
              rw [if_pos hhigh, hlit]
              simp only [hexEscape_of_hex4 hlo]
              rw [if_pos hlow]
            exact ⟨_, escapeSequence_of_codePoint hcode⟩

theorem stringLoop_escape {e : Bytes} (h : EscapeText (92 :: e)) (fuel : ℕ) (out t : Bytes) :
    ∃ out', stringLoop (fuel + 1) out (92 :: (e ++ t)) = stringLoop fuel out' t := by
  obtain ⟨b, hb⟩ := escapeSequence_text h t
  refine ⟨out ++ b, ?_⟩
  rw [stringLoop, if_neg (by decide), if_neg (by decide), if_neg (by decide), hb]
  rfl

/-- One character takes one round of the loop. -/
theorem stringLoop_single {x : StringChar} (hwf : x.WellFormed) (hhigh : ¬x.High) (hlow : ¬x.Low) (fuel : ℕ)
    (out t : Bytes) : ∃ out', stringLoop (fuel + 1) out (x.text ++ t) = stringLoop fuel out' t := by
  have hescape : EscapeText x.text := .inl ⟨x, hwf, hhigh, hlow, rfl⟩
  cases x with
  | byte c =>
      refine ⟨out ++ [c], ?_⟩
      rw [StringChar.text, List.singleton_append, stringLoop, if_neg hwf.2.1, if_neg (UInt8.not_lt.mpr hwf.1),
        if_pos hwf.2.2]
  | short e => exact stringLoop_escape hescape fuel out t
  | unicode a b c d => exact stringLoop_escape hescape fuel out t

theorem stringLoop_pair {x y : StringChar} (hx : x.WellFormed) (hy : y.WellFormed) (hhigh : x.High) (hlow : y.Low)
    (fuel : ℕ) (out t : Bytes) :
    ∃ out', stringLoop (fuel + 1) out (x.text ++ (y.text ++ t)) = stringLoop fuel out' t := by
  have hescape : EscapeText (x.text ++ y.text) := .inr ⟨x, y, hx, hy, hhigh, hlow, rfl⟩
  rw [← List.append_assoc]
  cases x with
  | byte c =>
      obtain ⟨v, hv, -⟩ := hhigh
      cases hv
  | short e =>
      obtain ⟨v, hv, -⟩ := hhigh
      cases hv
  | unicode a b c d => exact stringLoop_escape hescape fuel out t

theorem length_text_pos (x : StringChar) : 0 < x.text.length := by cases x <;> exact Nat.succ_pos _

theorem stringLoop_chars {xs : List StringChar} (hpaired : Paired xs) (hwf : ∀ x ∈ xs, x.WellFormed) (t : Bytes) :
    ∀ fuel out, (xs.flatMap StringChar.text).length < fuel →
      ∃ r, stringLoop fuel out (xs.flatMap StringChar.text ++ 34 :: t) = .ok (r, t) := by
  induction hpaired with
  | nil =>
      intro fuel out hfuel
      obtain ⟨fuel, rfl⟩ : ∃ n, fuel = n + 1 := ⟨fuel - 1, by simp at hfuel; omega⟩
      exact ⟨out, rfl⟩
  | @single x xs hhigh hlow h ih =>
      intro fuel out hfuel
      have hpos := length_text_pos x
      obtain ⟨fuel, rfl⟩ : ∃ n, fuel = n + 1 := ⟨fuel - 1, by omega⟩
      rw [List.forall_mem_cons] at hwf
      rw [List.flatMap_cons, List.length_append] at hfuel
      obtain ⟨out', hround⟩ := stringLoop_single hwf.1 hhigh hlow fuel out (xs.flatMap StringChar.text ++ 34 :: t)
      rw [List.flatMap_cons, List.append_assoc, hround]
      exact ih hwf.2 fuel out' (by omega)
  | @pair x y xs hx hy h ih =>
      intro fuel out hfuel
      have hpos := length_text_pos x
      obtain ⟨fuel, rfl⟩ : ∃ n, fuel = n + 1 := ⟨fuel - 1, by omega⟩
      rw [List.forall_mem_cons, List.forall_mem_cons] at hwf
      rw [List.flatMap_cons, List.flatMap_cons, List.length_append, List.length_append] at hfuel
      obtain ⟨out', hround⟩ := stringLoop_pair hwf.1 hwf.2.1 hx hy fuel out (xs.flatMap StringChar.text ++ 34 :: t)
      rw [List.flatMap_cons, List.flatMap_cons, List.append_assoc, List.append_assoc, hround]
      exact ih hwf.2.2 fuel out' (by omega)

/-- A string of the grammar is read to its closing quote. -/
theorem string_token {v : Bytes} (h : StringToken v) (t : Bytes) :
    ∃ s out, v ++ t = 34 :: s ∧ string s = .ok (out, t) := by
  obtain ⟨xs, hwf, hpaired, rfl⟩ := h
  obtain ⟨out, hout⟩ := stringLoop_chars hpaired hwf t
    ((xs.flatMap StringChar.text ++ 34 :: t).length + 1) [] (by rw [List.length_append]; omega)
  exact ⟨_, out, by simp, hout⟩

section Loops

variable {inner : Bytes → Prop} {value : Bytes → Except JsonError (Parsed Json)}

/-- Every text of the kind `inner` is read, whatever follows it that cannot belong to a number, and starts
neither with a blank nor with a closing bracket. -/
def ReadBy (value : Bytes → Except JsonError (Parsed Json)) (inner : Bytes → Prop) : Prop :=
  ∀ v, inner v → (∀ t, EndsNumber t → ∃ j, value (v ++ t) = .ok (j, t)) ∧
    ∃ c s, v = c :: s ∧ isSpace c = false ∧ c ≠ 93

theorem ReadBy.padded (h : ReadBy value inner) {a v t : Bytes} (ha : Blank a) (hv : inner v) (ht : EndsNumber t) :
    ∃ j, value (skipWs (a ++ (v ++ t))) = .ok (j, t) := by
  obtain ⟨hread, c, s, rfl, hspace, -⟩ := h v hv
  rw [List.cons_append, skipWs_blank_cons ha hspace, ← List.cons_append]
  exact hread t ht

theorem arrayLoop_listed (h : ReadBy value inner) {body : Bytes} (hbody : Listed (Padded inner) body) (t : Bytes) :
    ∀ fuel acc, body.length < fuel → ∃ j, arrayLoop value fuel acc (body ++ 93 :: t) = .ok (j, t) := by
  induction hbody with
  | one hitem =>
      intro fuel acc hfuel
      obtain ⟨fuel, rfl⟩ : ∃ n, fuel = n + 1 := ⟨fuel - 1, by omega⟩
      obtain ⟨a, v, b, ha, hv, hb, rfl⟩ := hitem
      obtain ⟨j, hj⟩ := h.padded ha hv (endsNumber_close hb endsNumber_bracket : EndsNumber (b ++ 93 :: t))
      rw [List.append_assoc, List.append_assoc, arrayLoop, hj]
      simp only [bind, Except.bind, skipWs_blank_cons hb (by decide : isSpace 93 = false)]
      exact ⟨_, rfl⟩
  | @more s rest hitem hrest ih =>
      intro fuel acc hfuel
      obtain ⟨fuel, rfl⟩ : ∃ n, fuel = n + 1 := ⟨fuel - 1, by omega⟩
      obtain ⟨a, v, b, ha, hv, hb, rfl⟩ := hitem
      rw [List.length_append, List.length_cons] at hfuel
      have hends : EndsNumber (b ++ 44 :: (rest ++ 93 :: t)) := endsNumber_close hb (endsNumber_comma [])
      obtain ⟨j, hj⟩ := h.padded ha hv hends
      obtain ⟨r, hr⟩ := ih fuel (acc ++ [j]) (by omega)
      rw [List.append_assoc, List.append_assoc, List.append_assoc, List.cons_append, arrayLoop, hj]
      simp only [bind, Except.bind, skipWs_blank_cons hb (by decide : isSpace 44 = false), if_true]
      exact ⟨r, hr⟩

/-- A round of the loop of `object` reads a member up to what comes after it. -/
theorem objectLoop_padded (h : ReadBy value inner) {s t : Bytes} {c : UInt8} (hitem : Padded (Member inner) s)
    (hspace : isSpace c = false) (hc : EndsNumber [c]) (fuel : ℕ) (acc : List (Bytes × Json)) :
    ∃ acc', objectLoop value (fuel + 1) acc (s ++ c :: t) =
      if c = 44 then objectLoop value fuel acc' t
      else if c = 125 then .ok (.object acc', t)
      else fail "expected ',' or '\x7d' in object" (c :: t) := by
  obtain ⟨a, m, d, ha, ⟨key, b, e, v, hkey, hb, he, hv, rfl⟩, hd, rfl⟩ := hitem
  obtain ⟨j, hj⟩ := h.padded he hv (endsNumber_close hd hc : EndsNumber (d ++ c :: t))
  obtain ⟨s, k, hquote, hstring⟩ := string_token hkey (b ++ 58 :: (e ++ (v ++ (d ++ c :: t))))
  have htext : a ++ (key ++ (b ++ 58 :: (e ++ v)) ++ d) ++ c :: t = a ++ 34 :: s := by
    rw [← hquote]
    simp only [List.append_assoc, List.cons_append]
  refine ⟨setMember k j acc, ?_⟩
  rw [htext, objectLoop, skipWs_blank_cons ha (by decide : isSpace 34 = false), expect_cons_self]
  simp only [hstring, bind, Except.bind, skipWs_blank_cons hb (by decide : isSpace 58 = false), expect_cons_self, hj,
    skipWs_blank_cons hd hspace]

theorem objectLoop_listed (h : ReadBy value inner) {body : Bytes} (hbody : Listed (Padded (Member inner)) body)
    (t : Bytes) :
    ∀ fuel acc, body.length < fuel → ∃ j, objectLoop value fuel acc (body ++ 125 :: t) = .ok (j, t) := by
  induction hbody with
  | one hitem =>
      intro fuel acc hfuel
      obtain ⟨fuel, rfl⟩ : ∃ n, fuel = n + 1 := ⟨fuel - 1, by omega⟩
      obtain ⟨acc', hround⟩ := objectLoop_padded (t := t) h hitem (by decide : isSpace 125 = false) endsNumber_brace
        fuel acc
      exact ⟨_, hround⟩
  | @more s rest hitem hrest ih =>
      intro fuel acc hfuel
      obtain ⟨fuel, rfl⟩ : ∃ n, fuel = n + 1 := ⟨fuel - 1, by omega⟩
      rw [List.length_append, List.length_cons] at hfuel
      obtain ⟨acc', hround⟩ := objectLoop_padded (t := rest ++ 125 :: t) h hitem (by decide : isSpace 44 = false)
        (endsNumber_comma []) fuel acc
      obtain ⟨r, hr⟩ := ih fuel acc' (by omega)
      rw [List.append_assoc, List.cons_append, hround]
      exact ⟨r, hr⟩

end Loops

theorem Listed.starts {item : Bytes → Prop} {s : Bytes} (h : Listed (Padded item) s)
    (hitem : ∀ v, item v → ∃ c u, v = c :: u ∧ isSpace c = false ∧ c ≠ 93 ∧ c ≠ 125) (t : Bytes) :
    expect 93 (skipWs (s ++ t)) = none ∧ expect 125 (skipWs (s ++ t)) = none := by
  have hfirst : ∀ s, Padded item s → ∀ t,
      expect 93 (skipWs (s ++ t)) = none ∧ expect 125 (skipWs (s ++ t)) = none := by
    rintro s ⟨a, v, b, ha, hv, -, rfl⟩ t
    obtain ⟨c, u, rfl, hspace, hbracket, hbrace⟩ := hitem v hv
    rw [List.append_assoc, List.append_assoc, List.cons_append, skipWs_blank_cons ha hspace]
    exact ⟨expect_cons_of_ne hbracket _, expect_cons_of_ne hbrace _⟩
  cases h with
  | one h => exact hfirst _ h t
  | more h hrest =>
      rw [List.append_assoc]
      exact hfirst _ h _

theorem Value.starts {inner : Bytes → Prop} {v : Bytes} (h : Value inner v) :
    ∃ c s, v = c :: s ∧ isSpace c = false ∧ c ≠ 93 ∧ c ≠ 125 := by
  cases h with
  | literal h =>
      rcases h with rfl | rfl | rfl
      · exact ⟨116, _, rfl, by decide⟩
      · exact ⟨102, _, rfl, by decide⟩
      · exact ⟨110, _, rfl, by decide⟩
  | number h =>
      obtain ⟨c, s, hstart, hc⟩ := h.starts []
      rw [List.append_nil] at hstart
      exact ⟨c, s, hstart, forall_byte (P := fun c => isDigit c = true ∨ c = 45 →
        isSpace c = false ∧ c ≠ 93 ∧ c ≠ 125) (by decide +kernel) c hc⟩
  | string h =>
      obtain ⟨xs, -, -, rfl⟩ := h
      exact ⟨34, _, rfl, by decide⟩
  | emptyArray _ => exact ⟨91, _, rfl, by decide⟩
  | array _ => exact ⟨91, _, rfl, by decide⟩
  | emptyObject _ => exact ⟨123, _, rfl, by decide⟩
  | object _ => exact ⟨123, _, rfl, by decide⟩

theorem Member.starts {inner : Bytes → Prop} {s : Bytes} (h : Member inner s) :
    ∃ c u, s = c :: u ∧ isSpace c = false ∧ c ≠ 93 ∧ c ≠ 125 := by
  obtain ⟨key, b, c, v, ⟨xs, -, -, rfl⟩, -, -, -, rfl⟩ := h
  exact ⟨34, _, rfl, by decide⟩

theorem value_array (libc : Libc) (levels : ℕ) (s : Bytes) :
    JsonParser.value libc (levels + 1) (91 :: s) = array (JsonParser.value libc levels) s := by
  rw [JsonParser.value, if_neg (by decide), if_pos rfl]

theorem value_object (libc : Libc) (levels : ℕ) (s : Bytes) :
    JsonParser.value libc (levels + 1) (123 :: s) = object (JsonParser.value libc levels) s := by
  rw [JsonParser.value, if_pos rfl]

/-- One level of values is read when the level inside is. Only a number has to be told where it ends. -/
theorem value_of_grammar {libc : Libc} {levels : ℕ} {inner : Bytes → Prop}
    (h : ReadBy (JsonParser.value libc levels) inner)
    (hstarts : ∀ v, inner v → ∃ c u, v = c :: u ∧ isSpace c = false ∧ c ≠ 93 ∧ c ≠ 125) {v t : Bytes}
    (hv : Value inner v) (ht : (∃ c s, v = c :: s ∧ (isDigit c = true ∨ c = 45)) → EndsNumber t) :
    ∃ j, JsonParser.value libc (levels + 1) (v ++ t) = .ok (j, t) := by
  cases hv with
  | literal h =>
      rcases h with rfl | rfl | rfl <;> exact ⟨_, rfl⟩
  | number h =>
      have hends : EndsNumber t := by
        obtain ⟨c, s, hstart, hc⟩ := h.starts []
        exact ht ⟨c, s, by rw [← hstart, List.append_nil], hc⟩
      exact ⟨_, (value_of_token h levels t).trans (number_append libc h hends)⟩
  | string h =>
      obtain ⟨s, out, hquote, hstring⟩ := string_token h t
      refine ⟨.str out, ?_⟩
      rw [hquote, JsonParser.value, if_neg (by decide), if_neg (by decide), if_pos rfl, hstring]
      rfl
  | @emptyArray b hb =>
      refine ⟨.array [], ?_⟩
      rw [List.cons_append, value_array, List.append_assoc, List.singleton_append, array,
        skipWs_blank_cons hb (by decide), expect_cons_self]
  | @array body hbody =>
      obtain ⟨j, hj⟩ := arrayLoop_listed h hbody t ((body ++ 93 :: t).length + 1) []
        (by rw [List.length_append]; omega)
      refine ⟨j, ?_⟩
      rw [List.cons_append, value_array, List.append_assoc, List.singleton_append, array,
        (hbody.starts hstarts _).1]
      exact (arrayLoop_skipWs _ _ _).trans hj
  | @emptyObject b hb =>
      refine ⟨.object [], ?_⟩
      rw [List.cons_append, value_object, List.append_assoc, List.singleton_append, object,
        skipWs_blank_cons hb (by decide), expect_cons_self]
  | @object body hbody =>
      obtain ⟨j, hj⟩ := objectLoop_listed h hbody t ((body ++ 125 :: t).length + 1) []
        (by rw [List.length_append]; omega)
      refine ⟨j, ?_⟩
      rw [List.cons_append, value_object, List.append_assoc, List.singleton_append, object,
        (hbody.starts (fun _ hm => hm.starts) _).2]
      exact (objectLoop_skipWs _ _ _).trans hj

theorem ValueWithin.starts {levels : ℕ} {v : Bytes} (h : ValueWithin levels v) :
    ∃ c s, v = c :: s ∧ isSpace c = false ∧ c ≠ 93 ∧ c ≠ 125 := by
  cases levels with
  | zero => exact h.elim
  | succ levels => exact Value.starts h

/-- Every value of the grammar is read. -/
theorem readBy_value (libc : Libc) (levels : ℕ) : ReadBy (JsonParser.value libc levels) (ValueWithin levels) := by
  induction levels with
  | zero => exact fun v hv => hv.elim
  | succ levels ih =>
      intro v hv
      obtain ⟨c, s, hstart, hspace, hbracket, -⟩ := ValueWithin.starts hv
      exact ⟨fun t ht => value_of_grammar ih (fun _ h => h.starts) hv fun _ => ht, c, s, hstart, hspace, hbracket⟩

theorem run_ok_iff (libc : Libc) (t : Bytes) : (∃ j, run libc t = .ok j) ↔ Text maxDepth t := by
  constructor
  · rintro ⟨j, h⟩
    rw [run] at h
    cases hvalue : JsonParser.value libc (maxDepth + 1) (skipWs t) with
    | error e =>
        rw [hvalue] at h
        cases h
    | ok r =>
        rw [hvalue] at h
        simp only [bind, Except.bind] at h
        split at h
        · next hend =>
            obtain ⟨v, hv, htext⟩ := value_split _ _ _ hvalue
            obtain ⟨a, ha, ht⟩ := exists_blank t
            obtain ⟨b, hb, hr⟩ := exists_blank r.2
            rw [hend, List.append_nil] at hr
            exact ⟨a, v, b, ha, hv, hb, by rw [ht, htext, ← hr]⟩
        · cases h
  · rintro ⟨a, v, b, ha, hv, hb, rfl⟩
    obtain ⟨j, hj⟩ := (readBy_value libc (maxDepth + 1)).padded ha hv (endsNumber_blank hb)
    refine ⟨j, ?_⟩
    have hblank : skipWs b = [] := List.dropWhile_eq_nil_iff.mpr hb
    simp only [run, hj, bind, Except.bind, hblank, if_true]

/-- An accepted text that is not a number stays one only when blanks are put after it. -/
theorem run_append {libc : Libc} {c : UInt8} {s rest : Bytes} (hspace : isSpace c = false)
    (hc : ¬ (isDigit c = true ∨ c = 45)) (h : ∃ j, run libc (c :: s) = .ok j)
    (hrest : ∃ j, run libc (c :: s ++ rest) = .ok j) : Blank rest := by
  obtain ⟨a, v, b, ha, hv, hb, htext⟩ := (run_ok_iff libc _).mp h
  obtain ⟨d, u, hstart, -⟩ := ValueWithin.starts hv
  have hnil : a = [] := by
    cases a with
    | nil => rfl
    | cons x a =>
        have hx : c = x := (List.cons.inj htext).1
        rw [hx, ha x List.mem_cons_self] at hspace
        cases hspace
  rw [hnil, List.nil_append] at htext
  have hcd : c = d := by
    rw [hstart] at htext
    exact (List.cons.inj htext).1
  obtain ⟨j, hj⟩ := value_of_grammar (readBy_value libc maxDepth) (fun _ h => h.starts) hv
    (t := b ++ rest) fun ⟨x, _, hx, hnumber⟩ => absurd hnumber (by
      rw [hstart] at hx
      rwa [← (List.cons.inj hx).1, ← hcd])
  obtain ⟨j', hj'⟩ := hrest
  rw [run, List.cons_append, skipWs_cons_of_not hspace, ← List.cons_append, htext, List.append_assoc, hj] at hj'
  simp only [bind, Except.bind] at hj'
  split at hj'
  · next hend => exact fun x hx => List.dropWhile_eq_nil_iff.mp hend x (List.mem_append_right b hx)
  · cases hj'

end JsonGrammar

theorem Json.parse_eq_ok {libc : Libc} {t : Bytes} {j : Json} :
    Json.parse libc t = .ok j ↔ JsonParser.run libc t = .ok j := by
  rw [Json.parse]
  cases JsonParser.run libc t with
  | ok j' => exact ⟨fun h => congrArg _ (Except.ok.inj h), fun h => congrArg _ (Except.ok.inj h)⟩
  | error e => constructor <;> intro h <;> cases h

/-- **The parser accepts exactly its grammar**: the texts of RFC 8259 whose surrogate escapes come in pairs and
no value of which sits deeper than 64 levels below the root. -/
theorem Json.parse_accepts_iff (libc : Libc) (t : Bytes) :
    (∃ j, Json.parse libc t = .ok j) ↔ JsonGrammar.Text 64 t := by
  rw [show (64 : ℕ) = JsonParser.maxDepth from rfl, ← JsonGrammar.run_ok_iff libc t]
  exact exists_congr fun _ => Json.parse_eq_ok

end DistributedJobEngine
