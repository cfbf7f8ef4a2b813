import DesignTokens.Data
import DesignTokens.Number.Numeral

/-!
# Reading JSON

A strict reader for JSON texts that also accepts the words `NaN`, `Infinity` and `-Infinity`.
Every failure is a `Problem` together with the text that was left when it was found, so that its
place can be computed from the lengths.
-/

namespace DesignTokens.Json

/-! ## Problems -/

/-- What is wrong with a text that should be JSON. -/
inductive Problem where
  /-- The text starts with a byte order mark. -/
  | byteOrderMark
  /-- No value starts here. -/
  | expectedValue
  /-- No member name starts here. -/
  | expectedName
  /-- No colon stands after a member name. -/
  | expectedColon
  /-- No comma stands after a value. -/
  | expectedComma
  /-- Something stands after the value. -/
  | extraData
  /-- The string that starts here does not end. -/
  | unterminatedString
  /-- A control character stands in a string. -/
  | controlCharacter
  /-- The character after a backslash means nothing. -/
  | badEscape
  /-- The four hexadecimal digits of an escape are not there. -/
  | badUnicodeEscape
  /-- An integer has too many digits. -/
  | tooManyDigits
deriving DecidableEq, Repr

/-- The wording of a problem. -/
def Problem.message : Problem → String
  | .byteOrderMark => "Unexpected UTF-8 BOM (decode using utf-8-sig)"
  | .expectedValue => "Expecting value"
  | .expectedName => "Expecting property name enclosed in double quotes"
  | .expectedColon => "Expecting ':' delimiter"
  | .expectedComma => "Expecting ',' delimiter"
  | .extraData => "Extra data"
  | .unterminatedString => "Unterminated string starting at"
  | .controlCharacter => "Invalid control character at"
  | .badEscape => "Invalid \\escape"
  | .badUnicodeEscape => "Invalid \\uXXXX escape"
  | .tooManyDigits => "Exceeds the limit for integer digits"

/-- A problem and the text from where it was found on. -/
structure Error where
  /-- What is wrong. -/
  problem : Problem
  /-- The text that was left. -/
  rest : List Char

/-- A reader takes a value from the start of a text. -/
abbrev Result (α : Type) := Except Error (α × List Char)

/-- Fails with a problem found at the start of `rest`. -/
def fail {α : Type} (problem : Problem) (rest : List Char) : Except Error α :=
  .error ⟨problem, rest⟩

/-! ## Characters -/

/-- White space between the parts of a JSON text. -/
def isSpace (c : Char) : Bool :=
  c = ' ' || c = '\t' || c = '\n' || c = '\r'

/-- The text without white space at its start. -/
def skipSpace (s : List Char) : List Char :=
  s.dropWhile isSpace

/-- The value of a hexadecimal digit. -/
def hexValue? (c : Char) : Option Nat :=
  if c.isDigit then some (c.toNat - 48)
  else if 'a' ≤ c && c ≤ 'f' then some (c.toNat - 87)
  else if 'A' ≤ c && c ≤ 'F' then some (c.toNat - 55)
  else none

/-- The number that four hexadecimal digits at the start of a text stand for. -/
def hexQuad? : List Char → Option (Nat × List Char)
  | a :: b :: c :: d :: r => do
    let a ← hexValue? a
    let b ← hexValue? b
    let c ← hexValue? c
    let d ← hexValue? d
    some (((a * 16 + b) * 16 + c) * 16 + d, r)
  | _ => none

/-- Whether a code unit is the first half of a pair. -/
def isHighHalf (n : Nat) : Bool := 0xD800 ≤ n && n ≤ 0xDBFF

/-- Whether a code unit is the second half of a pair. -/
def isLowHalf (n : Nat) : Bool := 0xDC00 ≤ n && n ≤ 0xDFFF

/-- The character of a pair of halves. -/
def joinHalves (high low : Nat) : Char :=
  Char.ofNat (0x10000 + (high - 0xD800) * 0x400 + (low - 0xDC00))

/-- The character of a code unit; a half on its own is the replacement character. -/
def charOfUnit (n : Nat) : Char :=
  if isHighHalf n || isLowHalf n then Char.ofNat 0xFFFD else Char.ofNat n

/-- The character that a backslash and `c` stand for. -/
def escaped? : Char → Option Char
  | '"' => some '"'
  | '\\' => some '\\'
  | '/' => some '/'
  | 'b' => some (Char.ofNat 8)
  | 'f' => some (Char.ofNat 12)
  | 'n' => some '\n'
  | 'r' => some '\r'
  | 't' => some '\t'
  | _ => none

/-! ## Strings -/

/-- The escape with four digits whose `u` is followed by `r`.  At least one character has to
follow the digits. -/
def readUnicodeEscape (r : List Char) : Result Char :=
  -- a closing quotation mark at least has to follow
  if (r.drop 4).isEmpty then fail .badUnicodeEscape ('u' :: r)
  else
    match hexQuad? r with
    | none => fail .badUnicodeEscape ('u' :: r)
    | some (unit, rest) =>
      match rest with
      | '\\' :: 'u' :: t =>
        if isHighHalf unit && !(t.drop 4).isEmpty then
          match hexQuad? t with
          | none => fail .badUnicodeEscape ('u' :: t)
          | some (low, after) =>
            if isLowHalf low then .ok (joinHalves unit low, after) else .ok (charOfUnit unit, rest)
        else .ok (charOfUnit unit, rest)
      | _ => .ok (charOfUnit unit, rest)

/-- The characters up to the closing quotation mark, last first in `done`; `start` is the text
from the opening mark on. -/
def readStringWithin (start : List Char) : (fuel : Nat) → (done : List Char) → List Char →
    Result String
  | 0, _, _ => fail .unterminatedString start
  | fuel + 1, done, s =>
    match s with
    | [] => fail .unterminatedString start
    | '"' :: r => .ok (String.ofList done.reverse, r)
    | '\\' :: r =>
      match r with
      | [] => fail .unterminatedString start
      | 'u' :: t =>
        match readUnicodeEscape t with
        | .error e => .error e
        | .ok (c, t) => readStringWithin start fuel (c :: done) t
      | c :: t =>
        match escaped? c with
        | some d => readStringWithin start fuel (d :: done) t
        | none => fail .badEscape s
    | c :: r =>
      if c.toNat < 32 then fail .controlCharacter s else readStringWithin start fuel (c :: done) r

/-- The string whose opening quotation mark is followed by `r`; `fuel` is more than the number of
characters of `r`. -/
def readString (fuel : Nat) (r : List Char) : Result String :=
  readStringWithin ('"' :: r) fuel [] r

/-! ## Numbers -/

/-- The digits of ASCII at the start of a text, and the rest. -/
def spanDigits (s : List Char) : List Char × List Char :=
  (s.takeWhile Char.isDigit, s.dropWhile Char.isDigit)

/-- The point and the digits after it, if both are there. -/
def spanPart : List Char → List Char × List Char
  | '.' :: r =>
    match spanDigits r with
    | ([], _) => ([], '.' :: r)
    | (ds, t) => ('.' :: ds, t)
  | s => ([], s)

/-- The sign of an exponent, if there is one. -/
def spanSign : List Char → List Char × List Char
  | '+' :: r => (['+'], r)
  | '-' :: r => (['-'], r)
  | r => ([], r)

/-- The exponent, if it has digits. -/
def spanExponent : List Char → List Char × List Char
  | [] => ([], [])
  | c :: r =>
    if c = 'e' ∨ c = 'E' then
      let (sign, t) := spanSign r
      match spanDigits t with
      | ([], _) => ([], c :: r)
      | (ds, u) => (c :: sign ++ ds, u)
    else ([], c :: r)

/-- The minus sign of a number, if there is one. -/
def spanMinus : List Char → List Char × List Char
  | '-' :: r => (['-'], r)
  | r => ([], r)

/-- The digits before the point: a zero, or all that there are. -/
def spanWhole : List Char → List Char × List Char
  | '0' :: r => (['0'], r)
  | r => spanDigits r

/-- The number at the start of a text.  A number with a point or an exponent is a double precision
number, any other an integer. -/
def readNumber (s : List Char) : Result Data :=
  let (sign, r) := spanMinus s
  let (whole, r) := spanWhole r
  if whole.isEmpty then fail .expectedValue s
  else
    let (part, r) := spanPart r
    let (power, r) := spanExponent r
    if part.isEmpty && power.isEmpty then
      match Numeral.int? 10 (sign ++ whole) with
      | some i => .ok (.int i, r)
      | none => fail .tooManyDigits s
    else
      match Numeral.float? (sign ++ whole ++ part ++ power) with
      | some x => .ok (.float x, r)
      | none => fail .expectedValue s

/-! ## Values

A value needs more fuel than twice the number of characters that are left, the parts of a list or
an object one more: a list hands its text on to its first item.  A function `collect` makes the
members of an object of the pairs that are written. -/

/-- The words that stand for values. -/
def words : List (List Char × Data) :=
  [("null".toList, .null), ("true".toList, .bool true), ("false".toList, .bool false),
   ("NaN".toList, .float .nan), ("Infinity".toList, .float (.infinity false)),
   ("-Infinity".toList, .float (.infinity true))]

/-- The word at the start of a text. -/
def readWord? (s : List Char) : Option (Data × List Char) :=
  (words.find? fun w => w.1.isPrefixOf s).map fun w => (w.2, s.drop w.1.length)

section Values

variable (collect : List (String × Data) → Members Data)

mutual

/-- The value at the start of a text. -/
def readValue : (fuel : Nat) → List Char → Result Data
  | 0, s => fail .expectedValue s
  | fuel + 1, s =>
    match s with
    | '"' :: r =>
      match readString fuel r with
      | .ok (t, r) => .ok (.text t, r)
      | .error e => .error e
    | '{' :: r =>
      match skipSpace r with
      | '}' :: t => .ok (.object [], t)
      | t => readMembers fuel [] t
    | '[' :: r =>
      match skipSpace r with
      | ']' :: t => .ok (.list [], t)
      | t => readItems fuel [] t
    | s =>
      match readWord? s with
      | some w => .ok w
      | none => readNumber s

/-- The members of an object from a name on; `done` holds the members before it. -/
def readMembers : (fuel : Nat) → (done : List (String × Data)) → List Char → Result Data
  | 0, _, s => fail .expectedName s
  | fuel + 1, done, s =>
    match s with
    | '"' :: r =>
      match readString fuel r with
      | .error e => .error e
      | .ok (name, r) =>
        match skipSpace r with
        | ':' :: t =>
          match readValue fuel (skipSpace t) with
          | .error e => .error e
          | .ok (value, t) =>
            match skipSpace t with
            | '}' :: u => .ok (.object (collect ((name, value) :: done).reverse), u)
            | ',' :: u => readMembers fuel ((name, value) :: done) (skipSpace u)
            | u => fail .expectedComma u
        | t => fail .expectedColon t
    | s => fail .expectedName s

/-- The items of a list from a value on; `done` holds the items before it, last first. -/
def readItems : (fuel : Nat) → (done : List Data) → List Char → Result Data
  | 0, _, s => fail .expectedValue s
  | fuel + 1, done, s =>
    match readValue fuel s with
    | .error e => .error e
    | .ok (value, t) =>
      match skipSpace t with
      | ']' :: u => .ok (.list (value :: done).reverse, u)
      | ',' :: u => readItems fuel (value :: done) (skipSpace u)
      | u => fail .expectedComma u

end

/-- The value that the whole text is. -/
def readText (s : List Char) : Except Error Data :=
  match s with
  | c :: _ =>
    if c.toNat = 0xFEFF then fail .byteOrderMark s
    else go s
  | [] => go s
where
  go (s : List Char) : Except Error Data :=
    match readValue collect (2 * s.length + 1) (skipSpace s) with
    | .error e => .error e
    | .ok (value, r) =>
      match skipSpace r with
      | [] => .ok value
      | r => fail .extraData r

end Values

/-- The value that the whole text is.  Of members with the same name the last one counts. -/
def read (s : String) : Except Error Data :=
  readText Members.ofPairs s.toList

end DesignTokens.Json
