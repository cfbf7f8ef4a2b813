import DesignTokens.Color.Argument
import DesignTokens.Color.Names
import DesignTokens.Text.Lowercase

/-!
# Colours in style sheets

Reading colours as style sheets write them: as hexadecimal digits, by name, or with a function.  A
channel that is missing (`none`) counts as zero, a missing opacity as one.
-/

namespace DesignTokens

/-- A colour. -/
structure Color where
  /-- The space of the channels. -/
  space : Color.Space
  channels : Color.Triple
  /-- The opacity, from zero to one. -/
  alpha : Float

namespace Color

/-! ## Hexadecimal digits and names -/

/-- The channel of two hexadecimal digits. -/
def hexChannel (high low : Nat) : Float := (high * 16 + low).toFloat / 255.0

/-- The colour of three, four, six or eight hexadecimal digits. -/
def ofHexDigits? : List Nat → Option Color
  | [r, g, b] => some ⟨.srgb, ⟨hexChannel r r, hexChannel g g, hexChannel b b⟩, 1.0⟩
  | [r, g, b, a] =>
    some ⟨.srgb, ⟨hexChannel r r, hexChannel g g, hexChannel b b⟩, hexChannel a a⟩
  | [r, s, g, h, b, c] => some ⟨.srgb, ⟨hexChannel r s, hexChannel g h, hexChannel b c⟩, 1.0⟩
  | [r, s, g, h, b, c, a, d] =>
    some ⟨.srgb, ⟨hexChannel r s, hexChannel g h, hexChannel b c⟩, hexChannel a d⟩
  | _ => none

/-- The colour of a name. -/
def ofName? (s : List Char) : Option Color :=
  let name := String.ofList (Text.lower s)
  if name = "transparent" then some ⟨.srgb, ⟨0.0, 0.0, 0.0⟩, 0.0⟩
  else (namedColor? name).map fun n =>
    ⟨.srgb, ⟨hexChannel 0 (n / 65536), hexChannel 0 (n / 256 % 256), hexChannel 0 (n % 256)⟩, 1.0⟩

/-! ## Functions -/

/-- The colour of three arguments, and of one for the opacity where there is one. -/
def ofArguments? (space : Space) (forms : Forms) (a b c : Argument) (opacity : Option Argument) :
    Option Color := do
  let channels ← readChannels? forms a b c
  let alpha ←
    match opacity with
    | none => some 1.0
    | some o => alpha? o
  return ⟨space, channels, alpha⟩

/-- Whether three arguments between commas fit the old form of a space: channels of red, green and
blue are all numbers or all percentages, and a hue is followed by percentages. -/
def fitsOldForm (space : Space) (a b c : Argument) : Bool :=
  match space with
  | .srgb => [a, b, c].all (·.isPlain) || [a, b, c].all (·.isPercent)
  | .hsl => a.isPlain && b.isPercent && c.isPercent
  | _ => false

/-- The colour of a function in the old form, where commas stand between the arguments and may
stand after the last one. -/
def ofOldForm? (space : Space) (forms : Forms) (arguments : List (Argument × Separator)) :
    Option Color :=
  let separators := arguments.map (·.2)
  if separators.contains .slash || separators.dropLast.contains .blank then none
  else
    match arguments.map (·.1) with
    | [a, b, c] => if fitsOldForm space a b c then ofArguments? space forms a b c none else none
    | [a, b, c, o] =>
      -- the old form knows no missing channels
      if fitsOldForm space a b c && (o.isPlain || o.isPercent) then
        ofArguments? space forms a b c (some o)
      else none
    | _ => none

/-- The colour of a function with the arguments between its parentheses.  A fourth argument is the
opacity; it needs a slash, which may stand anywhere. -/
def ofFunction? (space : Space) (forms : Forms) (s : List Char) : Option Color := do
  let arguments ← arguments? s
  let separators := arguments.map (·.2)
  if separators.contains .comma then ofOldForm? space forms arguments
  else
    match arguments.map (·.1), separators.contains .slash with
    | [a, b, c], _ => ofArguments? space forms a b c none
    | [a, b, c, o], true => ofArguments? space forms a b c (some o)
    | _, _ => none

/-- Characters of the name of a space. -/
def isSpaceNameChar (c : Char) : Bool := c.isAlphanum || c = '-' || c = '_'

/-- The names of a space in the general function; two hyphens mark a name that style sheets do not
know by themselves. -/
def Space.cssNames (s : Space) : List String :=
  match s with
  | .xyzD65 => ["xyz-d65", "xyz"]
  | .xyzD50 | .srgb | .srgbLinear | .displayP3 | .rec2020 | .a98 | .prophoto | .rec2100Linear =>
    [s.name]
  | .displayP3Linear | .rec2100Pq | .rec2100Hlg | .jzazbz | .jzczhz | .ictcp =>
    [s.name, "--" ++ s.name]
  | _ => ["--" ++ s.name]

/-- The colour of the general function, whose first argument names the space.  With a slash the last
of four arguments is the opacity, without one there are three. -/
def ofGeneral? (s : List Char) : Option Color := do
  let s := Text.trimLeft s
  let name := String.ofList (s.takeWhile isSpaceNameChar)
  let space ← Space.all.find? (·.cssNames.contains name)
  let arguments ← arguments? (s.dropWhile isSpaceNameChar)
  let separators := arguments.map (·.2)
  if separators.contains .comma then none
  else
    match arguments.map (·.1), separators.contains .slash with
    | [a, b, c], false => ofArguments? space space.forms a b c none
    | [a, b, c, o], true => ofArguments? space space.forms a b c (some o)
    | _, _ => none

/-- The colour of a function by its name in small letters.  Only the general function tells large
letters from small ones. -/
def ofCall? (name : String) (s : List Char) : Option Color :=
  let percentages : ChannelForm := .amount 100.0 1.0
  let byte : ChannelForm := .amount 255.0 1.0
  let small := Text.lower s
  match name with
  | "rgb" | "rgba" => ofFunction? .srgb (byte, byte, byte) small
  | "hsl" | "hsla" => ofFunction? .hsl (.hue, percentages, percentages) small
  | "hwb" => ofFunction? .hwb (.hue, percentages, percentages) small
  | "lab" => ofFunction? .lab Space.lab.forms small
  | "lch" => ofFunction? .lch Space.lch.forms small
  | "oklab" => ofFunction? .oklab Space.oklab.forms small
  | "oklch" => ofFunction? .oklch Space.oklch.forms small
  | "jzazbz" => ofFunction? .jzazbz Space.jzazbz.forms small
  | "jzczhz" => ofFunction? .jzczhz Space.jzczhz.forms small
  | "ictcp" => ofFunction? .ictcp Space.ictcp.forms small
  | "color" => ofGeneral? s
  | _ => none

/-- The colour that a text is. -/
def ofText? (text : String) : Option Color :=
  match text.toList with
  | '#' :: digits => (digits.mapM Json.hexValue?).bind ofHexDigits?
  | s =>
    match s.dropWhile (· ≠ '(') with
    | [] => ofName? s
    | _ :: r =>
      if r.getLast? = some ')' then
        ofCall? (String.ofList (Text.lower (s.takeWhile (· ≠ '(')))) r.dropLast
      else none

end Color

end DesignTokens
