import DesignTokens.Data.Spelling
import DesignTokens.Fault
import DesignTokens.Reference
import DesignTokens.Text.Lowercase

/-!
# Texts in style sheets

How style sheets name custom properties, and how they write fonts, numbers, positions and the uses
of custom properties.
-/

namespace DesignTokens.Css

/-! ## Names of custom properties

The custom property of a token is named after its path: `color.darkBlue` becomes
`--color-dark-blue`. -/

/-- Whether a hyphen goes between two characters: a capital letter begins a word after a small
letter or a digit. -/
def beginsWord (before c : Char) : Bool :=
  (before.isLower || before.isDigit) && c.isUpper

/-- A text with hyphens between its words; `before` is the character before the text. -/
def hyphenate (before : Option Char) : List Char → List Char
  | [] => []
  | c :: r =>
    if before.any (beginsWord · c) then '-' :: c :: hyphenate (some c) r
    else c :: hyphenate (some c) r

/-- A name in small letters with hyphens between its words. -/
def kebab (name : String) : String :=
  let spaced := (hyphenate none name.toList).map fun c => if c = ' ' then '-' else c
  String.ofList (Text.lower spaced)

/-- The custom property of a path. -/
def variableName (path : String) : String :=
  "--" ++ "-".intercalate ((Path.names path).map kebab)

/-! ## Values of tokens -/

/-- The families that stand for a kind of font. -/
def genericFamilies : List String :=
  ["serif", "sans-serif", "monospace", "cursive", "fantasy", "system-ui", "ui-monospace"]

/-- The name of a font family; a name with a blank is put in quotation marks, unless the family is a
generic one. -/
def familyText (name : String) : String :=
  if genericFamilies.contains name || !name.toList.contains ' ' then name else "\"" ++ name ++ "\""

/-- No generic family has a blank in its name, so the blank alone decides about the quotation
marks. -/
theorem familyText_eq (name : String) :
    familyText name = if name.toList.contains ' ' then "\"" ++ name ++ "\"" else name := by
  have hgeneric : ∀ family ∈ genericFamilies, family.toList.contains ' ' = false := by
    decide +kernel
  rw [familyText]
  by_cases hname : name ∈ genericFamilies
  · rw [hgeneric name hname]
    simp [hname]
  · cases name.toList.contains ' ' <;> simp [hname]

/-- Font families in order of preference. -/
def familiesText (names : List String) : String :=
  ", ".intercalate (names.map familyText)

/-- A number: six significant digits, and all digits of an integer. -/
def numberText : Scalar → String
  | .float x => x.briefText
  | s => s.plain

/-- The number of decimals of a percentage. -/
def percentPlaces : Nat := 4

/-- A position from zero to one as a percentage. -/
def percentText (position : Scalar) : Except Fault String :=
  match position with
  | .float x =>
    let hundred := Binary64.ofDecimal false 1 2
    .ok (((x.mul hundred).roundTo percentPlaces).briefText ++ "%")
  | s =>
    match s.integral?.bind fun i => Binary64.ofInt? (i * 100) with
    | some x => .ok (x.briefText ++ "%")
    | none => .error .tooLarge

/-! ## Values of custom properties

A token has a custom property for its whole value, and perhaps further ones for the parts of it.
The value of a custom property is made of pieces: texts, and uses of custom properties.  With the
names of the custom properties the pieces become words, and these are written. -/

/-- How the custom property of a path is named. -/
abbrev Naming := String → String

/-- The name of the custom property for a part of a value, or for the whole of it; `own` is the
latter. -/
def partName (own : String) : Option String → String
  | none => own
  | some part => own ++ "-" ++ part

/-- A word of a value. -/
inductive Word where
  /-- A text as it is. -/
  | text (s : String)
  /-- The use of a custom property. -/
  | use (name : String)
deriving DecidableEq

def Word.render : Word → String
  | .text s => s
  | .use name => "var(" ++ name ++ ")"

/-- The text of words. -/
def wordsText (ws : List Word) : String := String.join (ws.map Word.render)

/-- A piece of a value. -/
inductive Piece where
  /-- A text as it is. -/
  | text (s : String)
  /-- The use of the custom property for a part of the value. -/
  | part (name : String)
  /-- The use of the custom property of another token. -/
  | token (path : String)
deriving DecidableEq

/-- A piece as a word; `own` is the custom property for the whole value. -/
def Piece.word (naming : Naming) (own : String) : Piece → Word
  | .text s => .text s
  | .part name => .use (partName own (some name))
  | .token path => .use (naming path)

/-- Values one after the other with a text between them. -/
def separated (separator : String) (values : List (List Piece)) : List Piece :=
  [.text separator].intercalate values

end DesignTokens.Css
