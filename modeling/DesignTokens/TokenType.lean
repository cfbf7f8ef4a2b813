import DesignTokens.Text.Wording

/-!
# Types of tokens
-/

namespace DesignTokens

/-- What the value of a token stands for. -/
inductive TokenType where
  /-- A truth value. -/
  | boolean
  /-- A line around a box. -/
  | border
  /-- A colour. -/
  | color
  /-- A curve of a movement in time. -/
  | cubicBezier
  /-- A length with its unit. -/
  | dimension
  /-- A time with its unit. -/
  | duration
  /-- Font families in order of preference. -/
  | fontFamily
  | fontWeight
  /-- Colours with positions between them. -/
  | gradient
  /-- The address of a resource. -/
  | link
  /-- A number without a unit. -/
  | number
  /-- Layers of shadow. -/
  | shadow
  /-- A text. -/
  | string
  /-- The style of a line. -/
  | strokeStyle
  /-- A movement in time. -/
  | transition
  /-- Properties of a font together. -/
  | typography
deriving DecidableEq, Repr

namespace TokenType

/-- All types in alphabetical order of their names. -/
def all : List TokenType :=
  [.boolean, .border, .color, .cubicBezier, .dimension, .duration, .fontFamily, .fontWeight,
   .gradient, .link, .number, .shadow, .string, .strokeStyle, .transition, .typography]

/-- The name of a type in documents. -/
def name : TokenType → String
  | .boolean => "boolean"
  | .border => "border"
  | .color => "color"
  | .cubicBezier => "cubicBezier"
  | .dimension => "dimension"
  | .duration => "duration"
  | .fontFamily => "fontFamily"
  | .fontWeight => "fontWeight"
  | .gradient => "gradient"
  | .link => "link"
  | .number => "number"
  | .shadow => "shadow"
  | .string => "string"
  | .strokeStyle => "strokeStyle"
  | .transition => "transition"
  | .typography => "typography"

def ofName? (s : String) : Option TokenType :=
  all.find? (·.name = s)

/-- Every type is listed. -/
theorem mem_all (t : TokenType) : t ∈ all := by
  cases t <;> simp [all]

/-- The name of a type is read back as the type. -/
theorem ofName?_name (t : TokenType) : ofName? t.name = some t := by
  cases t <;> decide +kernel

/-- The names of types as one phrase, in alphabetical order. -/
def phrase (types : List TokenType) : String :=
  Text.choices ((all.filter types.contains).map name)

end TokenType

end DesignTokens
