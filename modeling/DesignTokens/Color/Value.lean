import DesignTokens.Color.Css
import DesignTokens.Color.Gamut
import DesignTokens.Data
import DesignTokens.Fault

/-!
# Values of colours

The value of a colour in a table is an object with the name of its space, its channels and its
opacity.  Beside it stand its renditions on common and on wide screens.
-/

namespace DesignTokens.Color

/-! ## From and to data -/

/-- The names of the members of a colour. -/
def spaceField : String := "colorSpace"

/-- The name of the member with the channels. -/
def channelsField : String := "channels"

/-- The name of the member with the opacity. -/
def alphaField : String := "alpha"

/-- The object of a colour; what is no number becomes zero, or one for the opacity. -/
def value (c : Color) : Data :=
  let channel (v : Float) : Data := .float (.ofFloat (if v.isNaN then 0.0 else v))
  .object [(spaceField, .text c.space.name),
    (channelsField, .list (c.channels.toList.map channel)),
    (alphaField, .float (.ofFloat (if c.alpha.isNaN then 1.0 else c.alpha)))]

/-- A scalar as a number; integers may be too large. -/
def number (s : Scalar) : Except Fault Float :=
  match s with
  | .bool b => .ok (if b then 1.0 else 0.0)
  | .int i =>
    match Binary64.ofInt? i with
    | some x => .ok x.toFloat
    | none => .error .tooLarge
  | .float x => .ok x.toFloat
  | .text _ => .error .unreadable

/-- The colour of a space by its name, with channels and an opacity.  Channels that are not there
are zero, and channels beyond the third do not count. -/
def ofParts (space : String) (channels : List Scalar) (alpha : Scalar) : Except Fault Color :=
  match Space.ofName? space with
  | none => .error .unreadable
  | some s => do
    let numbers ← (channels.take 3).mapM number
    let known (i : Nat) : Float :=
      let v := numbers[i]?.getD 0.0
      if v.isNaN then 0.0 else v
    return ⟨s, ⟨known 0, known 1, known 2⟩, clampAlpha (← number alpha)⟩

def scalars? : Data → Option (List Scalar)
  | .list items => items.mapM fun
    | .scalar s => some s
    | _ => none
  | _ => none

/-- The colour of an object. -/
def ofValue (d : Data) : Except Fault Color :=
  match d with
  | .object members =>
    match Members.get? spaceField members, (Members.get? channelsField members).bind scalars?,
      Members.get? alphaField members with
    | some (.scalar (.text space)), some channels, some (.scalar alpha) =>
      ofParts space channels alpha
    | _, _, _ => .error .wrongShape
  | _ => .error .wrongShape

/-! ## Renditions -/

/-- The rendition of a colour on screens of a gamut. -/
def onScreen (g : Gamut) (c : Color) : Except Fault Color :=
  (g.convert c.space c.channels).map fun channels => ⟨g.space, channels, c.alpha⟩

/-- The names of the renditions and their gamuts. -/
def renditions : List (String × Gamut) := [("srgb", .srgb), ("p3", .p3)]

/-- The renditions of the object of a colour. -/
def variants (d : Data) : Except Fault (Members Data) := do
  let c ← ofValue d
  renditions.mapM fun (name, g) => do return (name, (← onScreen g c).value)

/-! ## Text -/

/-- The most digits of a number in a style sheet. -/
def textDigits : Nat := 5

/-- The digits of a number with a given number of decimals, without zeros at the end. -/
def decimalText (n : Int) (decimals : Nat) : String :=
  let whole := n.natAbs / Nat.pow 10 decimals
  let digits := (toString (n.natAbs % Nat.pow 10 decimals)).toList
  let part := List.replicate (decimals - digits.length) '0' ++ digits
  let part := (part.reverse.dropWhile (· = '0')).reverse
  let sign := if n < 0 then "-" else ""
  if decimals = 0 || part.isEmpty then sign ++ toString whole
  else sign ++ toString whole ++ "." ++ String.ofList part

/-- A number with at most five digits, of which those before the point count; a half goes up. -/
def numberText (v : Float) : String :=
  let integer (f : Float) : Int := ((Binary64.ofFloat f).toInt?).getD 0
  let whole := (integer v.abs.floor).natAbs
  let decimals := textDigits - (if whole = 0 then 0 else (toString whole).length)
  decimalText (integer (v * (Nat.pow 10 decimals).toFloat + 0.5).floor) decimals

/-- The opacity at the end of a colour; full opacity is not written. -/
def alphaText (alpha : Float) : String :=
  if alpha < 1.0 then " / " ++ numberText alpha
  else if alpha.isNaN then " / 0"
  else ""

/-- A colour of a gamut as a style sheet writes it; it is moved into the gamut first. -/
def screenText (g : Gamut) (channels : Triple) (alpha : Float) : Except Fault String := do
  let c ← g.inside channels
  let words (t : Triple) : String := " ".intercalate (t.toList.map numberText)
  return match g with
    | .srgb => "rgb(" ++ words (c.scale 255.0) ++ alphaText alpha ++ ")"
    | .p3 => "color(display-p3 " ++ words c ++ alphaText alpha ++ ")"

/-- The object of a colour as a style sheet writes its rendition on screens of a gamut. -/
def cssText (g : Gamut) (d : Data) : Except Fault String := do
  let c ← onScreen g (← ofValue d)
  screenText g c.channels c.alpha

end DesignTokens.Color
