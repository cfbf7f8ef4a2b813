import DesignTokens.Text.Classes

/-!
# Numbers with units

The text of a length or a time: a number, and letters or a percent sign after it.
-/

namespace DesignTokens.Magnitude

open Text

/-! ## The number -/

/-- The text after the digits at its start, when there are any. -/
def afterDigits? (s : List Char) : Option (List Char) :=
  match s with
  | c :: r => if isDecimal c then some (r.dropWhile isDecimal) else none
  | [] => none

/-- The text after an exponent, or the same text when none stands here. -/
def afterExponent (s : List Char) : List Char :=
  match s with
  | c :: r =>
    if c = 'e' || c = 'E' then
      let digits :=
        match r with
        | '+' :: t => t
        | '-' :: t => t
        | t => t
      (afterDigits? digits).getD s
    else s
  | [] => s

/-- The text after a number without a sign. -/
def afterUnsigned? (s : List Char) : Option (List Char) :=
  let mantissa :=
    match afterDigits? s with
    | some ('.' :: r) => some (r.dropWhile isDecimal)
    | some r => some r
    | none =>
      match s with
      | '.' :: r => afterDigits? r
      | _ => none
  mantissa.map afterExponent

/-- The text after the number at its start.  A letter that starts no exponent belongs to the
unit. -/
def unit? (s : List Char) : Option (List Char) :=
  match s with
  | '-' :: r => afterUnsigned? r
  | r => afterUnsigned? r

/-! ## The unit -/

/-- Letters of ASCII and the percent sign. -/
def isUnitChar (c : Char) : Bool := c.isAlpha || c = '%'

/-- Whether a text is a unit.  A line break may follow it. -/
def isUnit (s : List Char) : Bool :=
  let bare := if s.getLast? = some '\n' then s.dropLast else s
  !bare.isEmpty && bare.all isUnitChar

def timeUnits : List String := ["ms", "s"]

end DesignTokens.Magnitude
