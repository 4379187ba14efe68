import DistributedJobEngine.Job
import DistributedJobEngine.Text

/-! The JSON serialiser and parser of `json.cpp`. The parser reads from the front of the unread bytes and
returns what it leaves unread; a failure keeps the bytes at which it happened, from which the offset of the
error message is computed. Printing and reading of a `double` is the C library's. -/

namespace DistributedJobEngine

/-- The C library's `printf("%.17g")` and `strtod`, the number a `double` stands for, and its conversion to
`int64_t`. -/
structure Libc where
  formatDouble : BitVec 64 → Bytes
  strtod : Bytes → BitVec 64
  toRat : BitVec 64 → ℚ
  truncate : BitVec 64 → Int

/-- `std::isfinite`: the exponent bits are not all set. -/
def isFinite (bits : BitVec 64) : Bool := bits.extractLsb 62 52 != 0x7FF

namespace Json

/-- `\u00xx` for a control character. -/
def unicodeEscape (c : UInt8) : Bytes :=
  text "\\u00" ++ [if c < 16 then 48 else 49] ++
    [if c % 16 < 10 then 48 + c % 16 else 87 + c % 16]

def escapeByte (c : UInt8) : Bytes :=
  if c = 34 then text "\\\""
  else if c = 92 then text "\\\\"
  else if c = 8 then text "\\b"
  else if c = 12 then text "\\f"
  else if c = 10 then text "\\n"
  else if c = 13 then text "\\r"
  else if c = 9 then text "\\t"
  else if c < 32 then unicodeEscape c
  else [c]

/-- `escape_into`, quotes included. -/
def escape (s : Bytes) : Bytes := 34 :: (s.flatMap escapeByte ++ [34])

/-- A line break in pretty mode. -/
def newlineIndent (indent depth : ℕ) : Bytes :=
  if 0 < indent then lf :: List.replicate (indent * depth) 32 else []

mutual

def dumpInto (libc : Libc) (indent depth : ℕ) : Json → Bytes
  | .null => text "null"
  | .bool b => if b then text "true" else text "false"
  | .int v => num v
  | .double bits => if isFinite bits then libc.formatDouble bits else text "null"
  | .str s => escape s
  | .array items =>
      if items.isEmpty then text "[]"
      else
        91 :: ([44].intercalate (dumpItems libc indent depth items) ++ newlineIndent indent depth ++ [93])
  | .object members =>
      if members.isEmpty then text "\x7b\x7d"
      else
        123 :: ([44].intercalate (dumpMembers libc indent depth members) ++ newlineIndent indent depth ++ [125])

/-- Each item after its line break. -/
def dumpItems (libc : Libc) (indent depth : ℕ) : List Json → List Bytes
  | [] => []
  | j :: items =>
      (newlineIndent indent (depth + 1) ++ dumpInto libc indent (depth + 1) j) :: dumpItems libc indent depth items

/-- Each member after its line break. -/
def dumpMembers (libc : Libc) (indent depth : ℕ) : List (Bytes × Json) → List Bytes
  | [] => []
  | (key, j) :: members =>
      (newlineIndent indent (depth + 1) ++ escape key ++ 58 :: (if 0 < indent then [32] else []) ++
        dumpInto libc indent (depth + 1) j) :: dumpMembers libc indent depth members

end

def dump (libc : Libc) (j : Json) : Bytes := dumpInto libc 0 0 j

def dumpPretty (libc : Libc) (indent : ℕ) (j : Json) : Bytes := dumpInto libc indent 0 j

end Json

/-- A failure and the bytes that are unread at that moment. -/
structure JsonError where
  message : String
  unread : Bytes
  deriving DecidableEq, Repr

namespace JsonParser

/-- What has been read, and the bytes still unread. -/
abbrev Parsed (α : Type) := α × Bytes

def maxDepth : ℕ := 64

def fail {α : Type} (message : String) (unread : Bytes) : Except JsonError (Parsed α) := .error ⟨message, unread⟩

def skipWs (s : Bytes) : Bytes := s.dropWhile isSpace

/-- The rest after the symbol `c`, if that is what comes next. -/
def expect (c : UInt8) : Bytes → Option Bytes
  | [] => none
  | a :: s => if a = c then some s else none

def lit (word s : Bytes) : Option Bytes := if word.isPrefixOf s then some (s.drop word.length) else none

/-- The UTF-8 encoding of a code point. -/
def utf8 (cp : ℕ) : Bytes :=
  if cp ≤ 0x7F then [UInt8.ofNat cp]
  else if cp ≤ 0x7FF then [UInt8.ofNat (0xC0 + cp / 64), UInt8.ofNat (0x80 + cp % 64)]
  else if cp ≤ 0xFFFF then
    [UInt8.ofNat (0xE0 + cp / 4096), UInt8.ofNat (0x80 + cp / 64 % 64), UInt8.ofNat (0x80 + cp % 64)]
  else
    [UInt8.ofNat (0xF0 + cp / 262144), UInt8.ofNat (0x80 + cp / 4096 % 64), UInt8.ofNat (0x80 + cp / 64 % 64),
      UInt8.ofNat (0x80 + cp % 64)]

/-- The value of four hex digits. -/
def hex4 (a b c d : UInt8) : Option ℕ := do
  let a ← hexDigit a
  let b ← hexDigit b
  let c ← hexDigit c
  let d ← hexDigit d
  return ((a * 16 + b) * 16 + c) * 16 + d

/-- What a one-letter escape stands for. -/
def simpleEscape (e : UInt8) : Option UInt8 :=
  if e = 34 then some 34
  else if e = 92 then some 92
  else if e = 47 then some 47
  else if e = 98 then some 8
  else if e = 102 then some 12
  else if e = 110 then some 10
  else if e = 114 then some 13
  else if e = 116 then some 9
  else none

/-- `hex4`: the four hex digits after `\u`. -/
def hexEscape : Bytes → Except JsonError (Parsed ℕ)
  | a :: b :: c :: d :: s =>
      match hex4 a b c d with
      | some v => .ok (v, s)
      | none => fail "invalid hex digit in \\u escape" (a :: b :: c :: d :: s)
  | s => fail "truncated \\u escape" s

/-- The code point after `\u`; a high surrogate must be followed by the escape of a low one. -/
def codePoint (s : Bytes) : Except JsonError (Parsed ℕ) := do
  let (cp, s) ← hexEscape s
  if 0xD800 ≤ cp ∧ cp ≤ 0xDBFF then
    match lit (text "\\u") s with
    | some s =>
        let (lo, s) ← hexEscape s
        if 0xDC00 ≤ lo ∧ lo ≤ 0xDFFF then .ok (0x10000 + (cp - 0xD800) * 1024 + (lo - 0xDC00), s)
        else fail "invalid low surrogate in \\u escape" s
    | none => fail "unpaired high surrogate in \\u escape" s
  else if 0xDC00 ≤ cp ∧ cp ≤ 0xDFFF then fail "unpaired low surrogate in \\u escape" s
  else .ok (cp, s)

/-- What comes after a backslash. -/
def escapeSequence : Bytes → Except JsonError (Parsed Bytes)
  | [] => fail "unterminated escape" []
  | e :: s =>
      if e = 117 then do
        let (cp, s) ← codePoint s
        .ok (utf8 cp, s)
      else
        match simpleEscape e with
        | some c => .ok ([c], s)
        | none => fail "invalid escape character" s

/-- The loop of `string`. Every round reads a byte, so that `fuel` beyond the number of unread bytes does
not run out. -/
def stringLoop : ℕ → Bytes → Bytes → Except JsonError (Parsed Bytes)
  | 0, _, s => fail "unterminated string" s
  | _ + 1, _, [] => fail "unterminated string" []
  | fuel + 1, out, c :: s =>
      if c = 34 then .ok (out, s)
      else if c < 32 then fail "unescaped control character in string" (c :: s)
      else if c ≠ 92 then stringLoop fuel (out ++ [c]) s
      else do
        let (bytes, s) ← escapeSequence s
        stringLoop fuel (out ++ bytes) s

/-- A string after its opening quote. -/
def string (s : Bytes) : Except JsonError (Parsed Bytes) := stringLoop (s.length + 1) [] s

def startsWithDigit : Bytes → Bool
  | [] => false
  | c :: _ => isDigit c

/-- The integer part of a number: one zero, or digits that do not start with one. -/
def integerPart (s : Bytes) : Bytes :=
  match expect 48 s with
  | some s => s
  | none => s.dropWhile isDigit

/-- A fraction, if one follows. -/
def fraction (s : Bytes) : Except JsonError (Parsed Bool) :=
  match expect 46 s with
  | some s => if startsWithDigit s then .ok (true, s.dropWhile isDigit) else fail "expected digit after '.'" s
  | none => .ok (false, s)

def skipSign : Bytes → Bytes
  | [] => []
  | c :: s => if c = 43 ∨ c = 45 then s else c :: s

/-- An exponent, if one follows. -/
def exponent : Bytes → Except JsonError (Parsed Bool)
  | [] => .ok (false, [])
  | c :: s =>
      if c = 101 ∨ c = 69 then
        if startsWithDigit (skipSign s) then .ok (true, (skipSign s).dropWhile isDigit)
        else fail "expected digit in exponent" (skipSign s)
      else .ok (false, c :: s)

/-- `strtoll`, before the check of its range. -/
def integerValue (raw : Bytes) : Int :=
  match expect 45 raw with
  | some digits => -(digitsValue digits : Int)
  | none => digitsValue raw

/-- An integer literal outside of `int64` is kept as a `double`. -/
def numberValue (libc : Libc) (integral : Bool) (raw : Bytes) : Json :=
  if integral && decide (-(2 : Int) ^ 63 ≤ integerValue raw ∧ integerValue raw < (2 : Int) ^ 63) then
    .int (integerValue raw)
  else .double (libc.strtod raw)

def number (libc : Libc) (start : Bytes) : Except JsonError (Parsed Json) :=
  let s := (expect 45 start).getD start
  if startsWithDigit s then do
    let (fractional, s) ← fraction (integerPart s)
    let (scaled, s) ← exponent s
    .ok (numberValue libc (!fractional && !scaled) (start.take (start.length - s.length)), s)
  else fail "invalid number" s

/-- `set`: a repeated key takes the new value in the old place. -/
def setMember (key : Bytes) (value : Json) : List (Bytes × Json) → List (Bytes × Json)
  | [] => [(key, value)]
  | m :: members => if m.1 = key then (key, value) :: members else m :: setMember key value members

/-- The loop of `object` over its members; `value` parses a value one level deeper. -/
def objectLoop (value : Bytes → Except JsonError (Parsed Json)) :
    ℕ → List (Bytes × Json) → Bytes → Except JsonError (Parsed Json)
  | 0, _, s => fail "unterminated object" s
  | fuel + 1, members, s =>
      match expect 34 (skipWs s) with
      | none => fail "expected object key string" (skipWs s)
      | some s => do
          let (key, s) ← string s
          match expect 58 (skipWs s) with
          | none => fail "expected ':' after object key" (skipWs s)
          | some s => do
              let (v, s) ← value (skipWs s)
              match skipWs s with
              | [] => fail "unterminated object" []
              | c :: s =>
                  if c = 44 then objectLoop value fuel (setMember key v members) s
                  else if c = 125 then .ok (.object (setMember key v members), s)
                  else fail "expected ',' or '\x7d' in object" (c :: s)

/-- The loop of `array` over its items. -/
def arrayLoop (value : Bytes → Except JsonError (Parsed Json)) :
    ℕ → List Json → Bytes → Except JsonError (Parsed Json)
  | 0, _, s => fail "unterminated array" s
  | fuel + 1, items, s => do
      let (v, s) ← value (skipWs s)
      match skipWs s with
      | [] => fail "unterminated array" []
      | c :: s =>
          if c = 44 then arrayLoop value fuel (items ++ [v]) s
          else if c = 93 then .ok (.array (items ++ [v]), s)
          else fail "expected ',' or ']' in array" (c :: s)

/-- An object after its opening brace. -/
def object (value : Bytes → Except JsonError (Parsed Json)) (s : Bytes) : Except JsonError (Parsed Json) :=
  match expect 125 (skipWs s) with
  | some s => .ok (.object [], s)
  | none => objectLoop value (s.length + 1) [] (skipWs s)

/-- An array after its opening bracket. -/
def array (value : Bytes → Except JsonError (Parsed Json)) (s : Bytes) : Except JsonError (Parsed Json) :=
  match expect 93 (skipWs s) with
  | some s => .ok (.array [], s)
  | none => arrayLoop value (s.length + 1) [] (skipWs s)

def literal (word : Bytes) (j : Json) (s : Bytes) : Except JsonError (Parsed Json) :=
  match lit word s with
  | some s => .ok (j, s)
  | none => fail "invalid literal" s

/-- A value of which `levels` more levels may follow, this one included. -/
def value (libc : Libc) : ℕ → Bytes → Except JsonError (Parsed Json)
  | 0, s => fail "maximum nesting depth exceeded" s
  | _ + 1, [] => fail "unexpected end of input" []
  | levels + 1, c :: s =>
      if c = 123 then object (value libc levels) s
      else if c = 91 then array (value libc levels) s
      else if c = 34 then do
        let (bytes, s) ← string s
        .ok (.str bytes, s)
      else if c = 116 then literal (text "true") (.bool true) (c :: s)
      else if c = 102 then literal (text "false") (.bool false) (c :: s)
      else if c = 110 then literal (text "null") .null (c :: s)
      else number libc (c :: s)

/-- `run`: one value and nothing else. -/
def run (libc : Libc) (t : Bytes) : Except JsonError Json := do
  let (j, s) ← value libc (maxDepth + 1) (skipWs t)
  if skipWs s = [] then .ok j else .error ⟨"trailing content after JSON value", skipWs s⟩

end JsonParser

namespace Json

/-- `Json::parse`; the error names the offset at which parsing stopped. -/
def parse (libc : Libc) (t : Bytes) : Except String Json :=
  match JsonParser.run libc t with
  | .ok j => .ok j
  | .error e => .error (e.message ++ " at offset " ++ toString (t.length - e.unread.length))

def parseOrNull (libc : Libc) (t : Bytes) : Json :=
  match parse libc t with
  | .ok j => j
  | .error _ => .null

end Json

end DistributedJobEngine
