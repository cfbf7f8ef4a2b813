import DesignTokens.Number.Binary64

/-!
# Decimal texts of numbers

The decimal digits of a double precision number and how they are laid out.

## Part 1: Digits

* `Decimal.shortest`: the fewest digits that read back as the number, and of those the nearest.
* `Decimal.significant`: a fixed number of digits, rounded to nearest.

## Part 2: Layout

A `Layout` says which exponents are written out and whether a whole number keeps its point.
-/

namespace DesignTokens

/-- The positive number `digits * 10 ^ exponent`. -/
structure Decimal where
  /-- The digits as one whole number. -/
  digits : Nat
  /-- The power of ten of the last digit. -/
  exponent : Int
deriving DecidableEq

namespace Decimal

open Binary64

/-! ## Part 1: Digits -/

/-- Numerator and denominator of `n * 2 ^ e`. -/
def fraction (n : Nat) : Int → Nat × Nat
  | .ofNat k => (n * Nat.pow 2 k, 1)
  | .negSucc k => (n, Nat.pow 2 (k + 1))

/-- Factors `(a, b)` with `c * 10 ^ s` compared to `u * 2 ^ e` as `c * a` to `u * b`. -/
def gridFactors (s e : Int) : Nat × Nat :=
  (Nat.pow 10 s.toNat * Nat.pow 2 (-e).toNat, Nat.pow 2 e.toNat * Nat.pow 10 (-s).toNat)

/-- The power of ten of the first digit of `num / den`, found from an estimate. -/
def leadingPower (num den : Nat) : Int :=
  let estimate : Int := ((num.log2 : Int) - den.log2) * 30103 / 100000
  let reached (k : Int) : Bool := Nat.pow 10 k.toNat * den ≤ num * Nat.pow 10 (-k).toNat
  if reached (estimate + 2) then estimate + 2
  else if reached (estimate + 1) then estimate + 1
  else if reached estimate then estimate
  else if reached (estimate - 1) then estimate - 1
  else estimate - 2

/-- Moves zeros at the end of the digits into the exponent, at most `fuel` of them. -/
def stripZeros : (fuel : Nat) → Decimal → Decimal
  | 0, d => d
  | fuel + 1, d =>
    if d.digits ≠ 0 ∧ d.digits % 10 = 0 then stripZeros fuel ⟨d.digits / 10, d.exponent + 1⟩ else d

/-- Of the two neighbours of `m * 2 ^ e` on the grid of multiples of `10 ^ s`, the nearer one that
rounds back to the number; `narrow` says that the gap below the number is half as wide. -/
def onGrid? (m : Nat) (e : Int) (narrow : Bool) (s : Int) : Option Nat :=
  let (a, b) := gridFactors s (e - 2)
  let value := 4 * m * b
  let low := (4 * m - if narrow then 1 else 2) * b
  let high := (4 * m + 2) * b
  -- the ends of the interval round to an even number only
  let inside (c : Nat) : Bool :=
    if m % 2 = 0 then low ≤ c * a && c * a ≤ high else low < c * a && c * a < high
  let below := value / a
  let above := below + 1
  match inside below, inside above with
  | true, true =>
    let left := value - below * a
    let right := above * a - value
    if left < right ∨ (left = right ∧ below % 2 = 0) then some below else some above
  | true, false => some below
  | false, true => some above
  | false, false => none

/-- The first grid, from coarse to fine, with a neighbour that reads back. -/
def searchGrid (m : Nat) (e : Int) (narrow : Bool) : (count : Nat) → (s : Int) → Decimal
  | 0, s => ⟨(onGrid? m e narrow s).getD 0, s⟩
  | count + 1, s =>
    match onGrid? m e narrow s with
    | some c => ⟨c, s⟩
    | none => searchGrid m e narrow count (s - 1)

/-- The fewest digits that read back as `m * 2 ^ e`, the nearest of those. -/
def shortest (m : Nat) (e : Int) : Decimal :=
  if m = 0 then ⟨0, 0⟩
  else
    let narrow := m = Nat.pow 2 52 ∧ minExponent < e
    let (num, den) := fraction m e
    stripZeros 20 (searchGrid m e narrow 17 (leadingPower num den))

/-- `num / den` rounded to `count` significant digits. -/
def significant (count : Nat) (num den : Nat) : Decimal :=
  if num = 0 then ⟨0, 0⟩
  else
    let s := leadingPower num den - count + 1
    let c := roundDiv (num * Nat.pow 10 (-s).toNat) (den * Nat.pow 10 s.toNat)
    stripZeros (count + 1) ⟨c, s⟩

/-! ## Part 2: Layout -/

/-- The exponents that are written out, and whether a whole number keeps a point. -/
structure Layout where
  /-- The least power of ten of a first digit that is written out. -/
  least : Int
  /-- The least power of ten of a first digit that is no longer written out. -/
  tooLarge : Int
  /-- Whether a whole number ends in `.0`. -/
  keepsPoint : Bool

/-- The decimal digits of a number, as text. -/
def digitText (n : Nat) : List Char :=
  Nat.toDigits 10 n

/-- An exponent with its sign and at least two digits. -/
def exponentText (e : Int) : List Char :=
  let digits := digitText e.natAbs
  (if e < 0 then '-' else '+') :: (if digits.length < 2 then '0' :: digits else digits)

/-- The digits with a point after the first `point` of them, zeros filled in where there are too
few. -/
def placePoint (keepsPoint : Bool) (digits : List Char) (point : Int) : List Char :=
  if point ≤ 0 then
    '0' :: '.' :: (List.replicate (-point).toNat '0' ++ digits)
  else
    let n := point.toNat
    let whole := digits.take n ++ List.replicate (n - digits.length) '0'
    match digits.drop n with
    | [] => if keepsPoint then whole ++ ['.', '0'] else whole
    | rest => whole ++ '.' :: rest

/-- The text of a positive decimal number. -/
def render (layout : Layout) (d : Decimal) : List Char :=
  let digits := digitText d.digits
  let first : Int := d.exponent + digits.length - 1
  if layout.least ≤ first ∧ first < layout.tooLarge then
    placePoint layout.keepsPoint digits (first + 1)
  else
    match digits with
    | [] => []
    | c :: [] => c :: 'e' :: exponentText first
    | c :: rest => c :: '.' :: rest ++ 'e' :: exponentText first

end Decimal

namespace Binary64

/-- A text with a minus sign in front when asked for. -/
def signed (negative : Bool) (text : List Char) : List Char :=
  if negative then '-' :: text else text

/-- Numbers from one ten-thousandth up to sixteen digits are written out, and a whole number keeps
its point. -/
def plainLayout : Decimal.Layout := ⟨-4, 16, true⟩

/-- The shortest text that reads back as the number. -/
def text (x : Binary64) : String :=
  String.ofList <|
    match x.shape with
    | .nan => "nan".toList
    | .infinite negative => signed negative "inf".toList
    | .finite negative m e => signed negative (Decimal.render plainLayout (Decimal.shortest m e))

/-- Numbers from one ten-thousandth up to six digits are written out, without a point at the
end. -/
def briefLayout : Decimal.Layout := ⟨-4, 6, false⟩

/-- The number in six significant digits. -/
def briefText (x : Binary64) : String :=
  String.ofList <|
    match x.shape with
    | .nan => "nan".toList
    | .infinite negative => signed negative "inf".toList
    | .finite negative m e =>
      let (num, den) := Decimal.fraction m e
      signed negative (Decimal.render briefLayout (Decimal.significant 6 num den))

/-- The number rounded to so many decimal places, a tie going to the even digit. -/
def roundTo (places : Nat) (x : Binary64) : Binary64 :=
  match x.shape with
  | .finite negative m e =>
    let (num, den) := Decimal.fraction m e
    ofQuotient negative (roundDiv (num * Nat.pow 10 places) den) (Nat.pow 10 places)
  | _ => x

end Binary64

end DesignTokens
