import DesignTokens.Number.Binary64
import DesignTokens.Text.Classes

/-!
# Numerals

Reading numbers from whole texts: integers in a base and decimal numbers.  Digits may come from
any script, and blanks around the numeral do not count.
-/

namespace DesignTokens.Numeral

open Text

/-! ## Blanks and digits -/

/-- Whether `c` may stand around a numeral.  The information separators of ASCII may not. -/
def isOuterBlank (c : Char) : Bool :=
  if c.toNat < 128 then isBlank c && !(28 ≤ c.toNat && c.toNat ≤ 31) else isBlank c

/-- The text without the blanks around it. -/
def bare (s : List Char) : List Char :=
  ((s.dropWhile isOuterBlank).reverse.dropWhile isOuterBlank).reverse

/-- The value of a digit in a base up to 36: letters follow the decimal digits. -/
def digitIn? (base : Nat) (c : Char) : Option Nat :=
  let n := c.toNat
  let value? :=
    match digitValue? c with
    | some d => some d
    | none =>
      if 97 ≤ n && n ≤ 122 then some (n - 87)
      else if 65 ≤ n && n ≤ 90 then some (n - 55)
      else none
  value?.filter (· < base)

/-- Reads digits with single underscores between them; `afterDigit` says that the last character
read was a digit. -/
def digits? (base value : Nat) (afterDigit : Bool) : List Char → Option Nat
  | [] => if afterDigit then some value else none
  | c :: r =>
    if c = '_' then if afterDigit then digits? base value false r else none
    else
      match digitIn? base c with
      | some d => digits? base (value * base + d) true r
      | none => none

/-- The sign in front of a numeral, and the rest. -/
def splitSign : List Char → Bool × List Char
  | '-' :: r => (true, r)
  | '+' :: r => (false, r)
  | r => (false, r)

/-! ## Integers -/

/-- The most digits that an integer may have in a base that is no power of two. -/
def maxDigits : Nat := 4300

/-- Takes away the mark of a base: `0b`, `0o` or `0x`, and one underscore after it. -/
def dropBaseMark (base : Nat) (s : List Char) : List Char :=
  let skip (r : List Char) : List Char :=
    match r with
    | '_' :: t => t
    | t => t
  match s with
  | '0' :: 'x' :: r => if base = 16 then skip r else s
  | '0' :: 'X' :: r => if base = 16 then skip r else s
  | '0' :: 'o' :: r => if base = 8 then skip r else s
  | '0' :: 'O' :: r => if base = 8 then skip r else s
  | '0' :: 'b' :: r => if base = 2 then skip r else s
  | '0' :: 'B' :: r => if base = 2 then skip r else s
  | _ => s

/-- The integer that the whole text is, in a base. -/
def int? (base : Nat) (s : List Char) : Option Int :=
  let (negative, r) := splitSign (bare s)
  let r := dropBaseMark base r
  if base = 10 && maxDigits < (r.filter (· ≠ '_')).length then none
  else (digits? base 0 false r).map fun n => if negative then -(n : Int) else n

/-! ## Decimal numbers -/

/-- The digits at the start of a text, as a number and as a count, and the rest. -/
def leadingDigits (s : List Char) : Nat × Nat × List Char :=
  let run := s.takeWhile isDecimal
  (run.foldl (fun n c => n * 10 + (digitValue? c).getD 0) 0, run.length, s.dropWhile isDecimal)

/-- The digits after a point, if there is one, as `leadingDigits` gives them. -/
def fractionDigits : List Char → Nat × Nat × List Char
  | '.' :: r => leadingDigits r
  | r => (0, 0, r)

/-- The exponent that ends a number: nothing, or `e` with digits. -/
def exponent? : List Char → Option Int
  | [] => some 0
  | c :: r =>
    if c = 'e' ∨ c = 'E' then
      let (negative, t) := splitSign r
      let (n, count, rest) := leadingDigits t
      if count = 0 ∨ rest ≠ [] then none else some (if negative then -(n : Int) else n)
    else none

/-- The words for numbers without digits, in small letters. -/
def word? (negative : Bool) (s : List Char) : Option Binary64 :=
  let small := String.ofList (s.map Char.toLower)
  if small = "inf" ∨ small = "infinity" then some (.infinity negative)
  else if small = "nan" then some .nan
  else none

/-- The double precision number nearest to the decimal number that the whole text is. -/
def float? (s : List Char) : Option Binary64 :=
  let (negative, r) := splitSign (bare s)
  match word? negative r with
  | some x => some x
  | none =>
    let (whole, wholeCount, r) := leadingDigits r
    let (part, partCount, r) := fractionDigits r
    if wholeCount + partCount = 0 then none
    else (exponent? r).map fun e =>
      .ofDecimal negative (whole * Nat.pow 10 partCount + part) (e - partCount)

end DesignTokens.Numeral
