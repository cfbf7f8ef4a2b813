/-!
# Double precision numbers by their bits

A double precision number is kept as its 64 bits, so equality is identity: the two zeros differ
and the not-a-number equals itself.  All operations here are exact integer arithmetic followed by
one rounding to the nearest number, a tie going to the even neighbour.  Powers are `Nat.pow` by
name, so that they are the same power whatever else is imported.
-/

namespace DesignTokens

/-- A number of the binary64 format. -/
structure Binary64 where
  /-- The sign, eleven bits of exponent and 52 bits of fraction. -/
  bits : UInt64
deriving DecidableEq, Inhabited

namespace Binary64

/-! ## Reading the bits -/

/-- What the bits stand for. -/
inductive Shape where
  /-- Not a number. -/
  | nan
  /-- An infinity. -/
  | infinite (negative : Bool)
  /-- The number `mantissa * 2 ^ exponent`, with a sign also for zero. -/
  | finite (negative : Bool) (mantissa : Nat) (exponent : Int)
deriving DecidableEq

/-- The exponent of the smallest numbers. -/
def minExponent : Int := -1074

/-- The sign bit. -/
def isNegative (x : Binary64) : Bool :=
  Nat.pow 2 63 ≤ x.bits.toNat

/-- The number that the bits stand for. -/
def shape (x : Binary64) : Shape :=
  let n : Nat := x.bits.toNat
  let fraction : Nat := n % Nat.pow 2 52
  let biased : Nat := n / Nat.pow 2 52 % 2048
  if biased = 2047 then
    if fraction = 0 then .infinite x.isNegative else .nan
  else if biased = 0 then .finite x.isNegative fraction minExponent
  else .finite x.isNegative (Nat.pow 2 52 + fraction) ((biased : Int) - 1075)

/-! ## Building numbers -/

/-- The bits with that sign and that magnitude. -/
def ofMagnitude (negative : Bool) (magnitude : Nat) : Binary64 :=
  ⟨UInt64.ofNat (if negative then Nat.pow 2 63 + magnitude else magnitude)⟩

/-- The not-a-number. -/
def nan : Binary64 := ofMagnitude false (2047 * Nat.pow 2 52 + Nat.pow 2 51)

/-- The infinity of that sign. -/
def infinity (negative : Bool) : Binary64 := ofMagnitude negative (2047 * Nat.pow 2 52)

/-- The zero of that sign. -/
def zero (negative : Bool) : Binary64 := ofMagnitude negative 0

/-- The quotient rounded to a whole number, a tie going to the even neighbour. -/
def roundDiv (num den : Nat) : Nat :=
  let q := num / den
  let twice := 2 * (num % den)
  if twice > den ∨ (twice = den ∧ q % 2 = 1) then q + 1 else q

/-- Numerator and denominator of `num / (den * 2 ^ e)`. -/
def scaleDown (num den : Nat) : Int → Nat × Nat
  | .ofNat k => (num, den * Nat.pow 2 k)
  | .negSucc k => (num * Nat.pow 2 (k + 1), den)

/-- The number nearest to `num / den`, with a sign; too large a quotient is an infinity. -/
def ofQuotient (negative : Bool) (num den : Nat) : Binary64 :=
  if num = 0 ∨ den = 0 then zero negative
  else
    let low := max ((num.log2 : Int) - den.log2 - 53) minExponent
    let (n, d) := scaleDown num den low
    let e := if n / d < Nat.pow 2 53 then low else low + 1
    let (n, d) := scaleDown num den e
    let m := roundDiv n d
    if m < Nat.pow 2 52 then ofMagnitude negative m
    else
      let biased := (e + 1075).toNat
      if biased > 2046 ∨ (biased = 2046 ∧ m = Nat.pow 2 53) then infinity negative
      else ofMagnitude negative (biased * Nat.pow 2 52 + (m - Nat.pow 2 52))

/-- The number nearest to `m * 2 ^ e`. -/
def ofScaled (negative : Bool) (m : Nat) : Int → Binary64
  | .ofNat k => ofQuotient negative (m * Nat.pow 2 k) 1
  | .negSucc k => ofQuotient negative m (Nat.pow 2 (k + 1))

/-- The number of decimal digits of `n`. -/
def decimalLength (n : Nat) : Nat :=
  (Nat.toDigits 10 n).length

/-- The number nearest to `digits * 10 ^ e`. -/
def ofDecimal (negative : Bool) (digits : Nat) (e : Int) : Binary64 :=
  if digits = 0 then zero negative
  else
    let top := (decimalLength digits : Int) + e
    if top > 310 then infinity negative
    else if top < -330 then zero negative
    else match e with
      | .ofNat k => ofQuotient negative (digits * Nat.pow 10 k) 1
      | .negSucc k => ofQuotient negative digits (Nat.pow 10 (k + 1))

/-- The number nearest to an integer, when it is finite. -/
def ofInt? (i : Int) : Option Binary64 :=
  let x := ofQuotient (i < 0) i.natAbs 1
  match x.shape with
  | .finite .. => some x
  | _ => none

/-! ## Questions -/

/-- Whether the number is one of the two zeros. -/
def isZero (x : Binary64) : Bool :=
  match x.shape with
  | .finite _ m _ => m = 0
  | _ => false

/-- Whether this is the not-a-number. -/
def isNaN (x : Binary64) : Bool :=
  x.shape = .nan

/-- The integer that the number is, if it is one. -/
def toInt? (x : Binary64) : Option Int :=
  match x.shape with
  | .finite negative m e =>
    let magnitude? : Option Nat :=
      match e with
      | .ofNat k => some (m * Nat.pow 2 k)
      | .negSucc k => if m % Nat.pow 2 (k + 1) = 0 then some (m / Nat.pow 2 (k + 1)) else none
    magnitude?.map fun n => if negative then -(n : Int) else n
  | _ => none

/-- Numeric equality: the two zeros are equal, and so is the not-a-number to itself. -/
def same (x y : Binary64) : Bool :=
  x = y || (x.isZero && y.isZero) || (x.isNaN && y.isNaN)

/-! ## Arithmetic -/

/-- The product. -/
def mul (x y : Binary64) : Binary64 :=
  match x.shape, y.shape with
  | .finite s m e, .finite t n f => ofScaled (s != t) (m * n) (e + f)
  | .infinite s, .infinite t => infinity (s != t)
  | .infinite s, .finite t n _ => if n = 0 then nan else infinity (s != t)
  | .finite s m _, .infinite t => if m = 0 then nan else infinity (s != t)
  | _, _ => nan

/-- The sum. -/
def add (x y : Binary64) : Binary64 :=
  match x.shape, y.shape with
  | .finite s m e, .finite t n f =>
    let low := min e f
    let a : Int := (m * Nat.pow 2 (e - low).toNat : Nat)
    let b : Int := (n * Nat.pow 2 (f - low).toNat : Nat)
    let total := (if s then -a else a) + (if t then -b else b)
    if total = 0 then zero (s && t) else ofScaled (total < 0) total.natAbs low
  | .infinite s, .infinite t => if s = t then x else nan
  | .infinite _, .finite .. => x
  | .finite .., .infinite _ => y
  | _, _ => nan

/-- The number with the other sign. -/
def neg (x : Binary64) : Binary64 :=
  ofMagnitude (!x.isNegative) (x.bits.toNat % Nat.pow 2 63)

/-! ## Exchange with hardware arithmetic -/

/-- The hardware number with these bits. -/
def toFloat (x : Binary64) : Float :=
  Float.ofBits x.bits

/-- The bits of a hardware number, all not-a-numbers taken together. -/
def ofFloat (x : Float) : Binary64 :=
  if x.isNaN then nan else ⟨x.toBits⟩

end Binary64

end DesignTokens
