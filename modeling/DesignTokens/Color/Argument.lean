import DesignTokens.Color.Space
import DesignTokens.Json.Reader
import DesignTokens.Number.Numeral

/-!
# Arguments of colour functions

The arguments stand between the parentheses of a colour function, with commas, slashes or only
blanks between them.  Two arguments need nothing between them where the second one starts with a
character that the first one cannot go on with.
-/

namespace DesignTokens.Color

/-! ## Arguments -/

/-- An argument of a colour function. -/
inductive Argument where
  /-- A missing channel. -/
  | missing
  | number (v : Float)
  /-- A percentage. -/
  | percent (v : Float)
  /-- An angle in degrees. -/
  | angle (v : Float)

namespace Argument

/-- Whether an argument is a percentage. -/
def isPercent : Argument → Bool
  | .percent _ => true
  | _ => false

/-- Whether an argument is a number or an angle. -/
def isPlain : Argument → Bool
  | .number _ | .angle _ => true
  | _ => false

end Argument

/-- The number at the start of a text, and the rest. -/
def leadingNumber? (s : List Char) : Option (List Char × List Char) :=
  let (sign, r) :=
    match s with
    | '+' :: r => (['+'], r)
    | '-' :: r => (['-'], r)
    | r => ([], r)
  let (whole, r) := Json.spanDigits r
  let (part, r) := Json.spanPart r
  if whole.isEmpty && part.isEmpty then none
  else
    let (power, r) := Json.spanExponent r
    some (sign ++ whole ++ part ++ power, r)

/-- The units that may follow a number, and what the number then is. -/
def units : List (String × (Float → Argument)) :=
  [("%", .percent), ("deg", .angle), ("rad", fun v => .angle (v * 180.0 / 3.141592653589793)),
   ("grad", fun v => .angle (v * 90.0 / 100.0)), ("turn", fun v => .angle (v * 360.0))]

/-- The argument of a number with the unit at the start of a text, and the text after the unit. -/
def withUnit (v : Float) (s : List Char) : Argument × List Char :=
  match units.find? fun (unit, _) => unit.toList.isPrefixOf s with
  | some (unit, argument) => (argument v, s.drop unit.length)
  | none => (.number v, s)

/-- The argument at the start of a text, and the rest. -/
def leadingArgument? : List Char → Option (Argument × List Char)
  | 'n' :: 'o' :: 'n' :: 'e' :: r => some (.missing, r)
  | s => do
    let (digits, r) ← leadingNumber? s
    let v ← Numeral.float? digits
    return withUnit v.toFloat r

/-! ## Lists of arguments -/

/-- What stands after an argument, apart from blanks. -/
inductive Separator where
  /-- Nothing. -/
  | blank
  | comma
  | slash
deriving DecidableEq

/-- The separator at the start of a text, and the text after it and the blanks around it. -/
def leadingSeparator (s : List Char) : Separator × List Char :=
  match Text.trimLeft s with
  | ',' :: r => (.comma, Text.trimLeft r)
  | '/' :: r => (.slash, Text.trimLeft r)
  | r => (.blank, r)

/-- Reads arguments up to the end of a text, each with the separator after it; an argument takes at
least one character, so `fuel` has to be no less than the length of the text. -/
def readArguments? : (fuel : Nat) → List Char → Option (List (Argument × Separator))
  | _, [] => some []
  | 0, _ => none
  | fuel + 1, s => do
    let (argument, r) ← leadingArgument? s
    let (separator, r) := leadingSeparator r
    return (argument, separator) :: (← readArguments? fuel r)

/-- The arguments that a text lists, each with the separator after it. -/
def arguments? (s : List Char) : Option (List (Argument × Separator)) :=
  readArguments? s.length (Text.trimLeft s)

/-! ## Channels -/

/-- What a channel of a function accepts. -/
inductive ChannelForm where
  /-- A number, divided by `one`, or a percentage of `whole`. -/
  | amount (one whole : Float)
  /-- An angle; a number counts degrees. -/
  | hue

def ChannelForm.read? : ChannelForm → Argument → Option Float
  | _, .missing => some 0.0
  | .amount one _, .number v => some (v / one)
  | .amount _ whole, .percent v => some (v / 100.0 * whole)
  | .amount .., .angle _ => none
  | .hue, .number v => some v
  | .hue, .angle v => some v
  | .hue, .percent _ => none

/-- What the three channels of a function accept. -/
abbrev Forms := ChannelForm × ChannelForm × ChannelForm

/-- The channels of three arguments. -/
def readChannels? (forms : Forms) (a b c : Argument) : Option Triple := do
  return ⟨← forms.1.read? a, ← forms.2.1.read? b, ← forms.2.2.read? c⟩

/-- A number between zero and one. -/
def clampAlpha (v : Float) : Float :=
  if v < 0.0 then 0.0 else if 1.0 < v then 1.0 else v

/-- The opacity of an argument. -/
def alpha? : Argument → Option Float
  | .missing => some 1.0
  | .number v => some (clampAlpha v)
  | .percent v => some (clampAlpha (v / 100.0))
  | .angle _ => none

/-- What the channels of a space accept in the general function. -/
def Space.forms : Space → Forms
  | .oklab => (.amount 1.0 1.0, .amount 1.0 0.4, .amount 1.0 0.4)
  | .oklch => (.amount 1.0 1.0, .amount 1.0 0.4, .hue)
  | .lab => (.amount 1.0 100.0, .amount 1.0 125.0, .amount 1.0 125.0)
  | .lch => (.amount 1.0 100.0, .amount 1.0 150.0, .hue)
  | .labD65 => (.amount 1.0 100.0, .amount 1.0 130.0, .amount 1.0 130.0)
  | .lchD65 => (.amount 1.0 100.0, .amount 1.0 160.0, .hue)
  | .jzazbz => (.amount 1.0 1.0, .amount 1.0 0.21, .amount 1.0 0.21)
  | .jzczhz => (.amount 1.0 1.0, .amount 1.0 0.26, .hue)
  | .ictcp => (.amount 1.0 1.0, .amount 1.0 0.5, .amount 1.0 0.5)
  | .hsv | .hsl | .hwb => (.hue, .amount 1.0 1.0, .amount 1.0 1.0)
  | _ => (.amount 1.0 1.0, .amount 1.0 1.0, .amount 1.0 1.0)

end DesignTokens.Color
