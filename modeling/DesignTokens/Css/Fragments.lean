import DesignTokens.Css.Text
import DesignTokens.Output.Fragment
import DesignTokens.Table

/-!
# Custom properties of tokens

The fragments of a token are its custom properties.  A reference to the default mode of a token
becomes `var()` of its custom property; a reference to another mode is written out.
-/

namespace DesignTokens.Css

open Output (Fragment)

/-- The format of the fragments. -/
def format : String := "css"

/-- A custom property of a token. -/
structure Property where
  /-- The part of the value that it is for; one has the whole. -/
  part : Option String
  value : List Piece
  /-- The rendition of a colour. -/
  variant : Option String

/-! ## References -/

/-- The use of the custom property that a reference stands for, when it has one: only the default
mode of a token has a custom property that is always there. -/
def useOf? (r : Reference) : Option Piece :=
  if r.writtenMode.isNone then some (.token r.target) else none

/-- What is known about the references in a part. -/
def partOf (step : Step) (references : Option ReferenceTree) : Option ReferenceTree :=
  references.bind (·.child? step)

/-- A part of a value: the use of a custom property, or else the text. -/
def orUse (references : Option ReferenceTree) (step : Step) (text : String) : Piece :=
  (((partOf step references).bind ReferenceTree.reference?).bind useOf?).getD (.text text)

/-! ## Parts of values -/

/-- The member of an object. -/
def member (name : String) : Data → Except Fault Data
  | .object members =>
    match Members.get? name members with
    | some d => .ok d
    | none => .error .unknownName
  | _ => .error .wrongShape

def items : Data → Except Fault (List Data)
  | .list ds => .ok ds
  | _ => .error .wrongShape

def scalar : Data → Except Fault Scalar
  | .scalar s => .ok s
  | _ => .error .wrongShape

/-- The texts of a list of texts. -/
def names (d : Data) : Except Fault (List String) := do
  (← items d).mapM fun
    | .scalar (.text s) => .ok s
    | _ => .error .wrongShape

/-! ## Values -/

/-- The colour on common screens. -/
def colorText (d : Data) : Except Fault String := Color.cssText .srgb d

/-- The style of a line; there is no word for a line with dashes of its own. -/
def strokeText : Data → String
  | .scalar (.text s) => s
  | _ => "dashed"

/-- A curve through points. -/
def curve (points : List Piece) : List Piece :=
  .text "cubic-bezier(" :: separated ", " (points.map ([·])) ++ [.text ")"]

def curveText (points : List String) : String :=
  "cubic-bezier(" ++ ", ".intercalate points ++ ")"

/-- The points of a curve. -/
def pointTexts (d : Data) : Except Fault (List String) := do
  (← items d).mapM fun p => return numberText (← scalar p)

/-- The address of a resource. -/
def linkText (d : Data) : String := "url(\"" ++ d.plain ++ "\")"

/-- A property of a font. -/
def typographyText (name : String) (d : Data) : Except Fault String :=
  if name = "fontFamily" then do return familiesText (← names d)
  else
    match d with
    | .scalar s => .ok (numberText s)
    | d => .ok d.plain

/-- A stop of a gradient. -/
def stop (references : Option ReferenceTree) (stop : Data) : Except Fault (List Piece) := do
  let color ← colorText (← member "color" stop)
  let position ← percentText (← scalar (← member "position" stop))
  return [orUse references (.field "color") color, .text (" " ++ position)]

/-- The lengths of a layer of a shadow. -/
def layerLengths : List String := ["offsetX", "offsetY", "blur", "spread"]

/-- Whether a layer of a shadow lies inside its box. -/
def isInset (layer : Members Data) : Bool :=
  match Members.get? "inset" layer with
  | some (.scalar (.bool b)) => b
  | _ => false

/-- A layer of a shadow. -/
def layer (references : Option ReferenceTree) (layer : Data) : Except Fault (List Piece) := do
  match layer with
  | .object members =>
    let lengths := layerLengths.filterMap fun name =>
      (Members.get? name members).map fun d => orUse references (.field name) d.plain
    let color ← colorText (← member "color" layer)
    let words := (if isInset members then [.text "inset"] else []) ++ lengths ++
      [orUse references (.field "color") color]
    return separated " " (words.map ([·]))
  | _ => throw .wrongShape

/-! ## Custom properties -/

/-- The custom property for the whole of a value, without renditions. -/
def whole (value : List Piece) : Property := ⟨none, value, none⟩

/-- The custom property for a part of a value. -/
def forPart (name : String) (value : Piece) : Property := ⟨some name, [value], none⟩

/-- A custom property that is put together from those for the parts, and these. -/
def shorthand (parts : List (String × Piece)) : List Property :=
  whole (separated " " (parts.map fun p => [.part p.1])) :: parts.map fun p => forPart p.1 p.2

/-- The parts of a value, each read by its own reader. -/
def partPieces (references : Option ReferenceTree) (value : Data) :
    List (String × (Data → Except Fault String)) → Except Fault (List (String × Piece))
  | [] => .ok []
  | (name, read) :: rest => do
    let text ← read (← member name value)
    return (name, orUse references (.field name) text) :: (← partPieces references value rest)

/-- The readers of the parts of a border. -/
def borderParts : List (String × (Data → Except Fault String)) :=
  [("width", fun d => .ok d.plain), ("color", colorText), ("style", fun d => .ok (strokeText d))]

/-- The readers of the parts of a transition. -/
def transitionParts : List (String × (Data → Except Fault String)) :=
  [("duration", fun d => .ok d.plain), ("delay", fun d => .ok d.plain),
   ("timingFunction", fun d => do return curveText (← pointTexts d))]

/-- The properties of a font. -/
def typographyProperties (references : Option ReferenceTree) :
    List (String × Data) → Except Fault (List Property)
  | [] => .ok []
  | (key, d) :: rest => do
    let text ← typographyText key d
    return forPart (kebab key) (orUse references (.field key) text) ::
      (← typographyProperties references rest)

/-- The renditions of a colour. -/
def colorProperties (variants : Members Data) : Except Fault (List Property) :=
  Color.renditions.mapM fun (variant, gamut) => do
    match Members.get? variant variants with
    | some d => return ⟨none, [.text (← Color.cssText gamut d)], some variant⟩
    | none => throw .unknownName

/-- The values of items with the references in each of them. -/
def within (references : Option ReferenceTree)
    (value : Option ReferenceTree → Data → Except Fault (List Piece)) (items : List Data) :
    Except Fault (List (List Piece)) :=
  items.zipIdx.mapM fun (d, i) => value (partOf (.index i) references) d

/-- The custom properties of a value that is no use of another custom property as a whole. -/
def properties (type : TokenType) (e : Entry) : Except Fault (List Property) := do
  let text (s : String) : List Property := [whole [.text s]]
  match type with
  | .color => colorProperties e.variants
  | .border => return shorthand (← partPieces e.references e.value borderParts)
  | .transition => return shorthand (← partPieces e.references e.value transitionParts)
  | .typography =>
    match e.value with
    | .object members => typographyProperties e.references members
    | d => return text d.plain
  | .cubicBezier =>
    let points := (← pointTexts e.value).zipIdx.map fun (text, i) =>
      orUse e.references (.index i) text
    return [whole (curve points)]
  | .gradient => return [whole (separated ", " (← within e.references stop (← items e.value)))]
  | .shadow => return [whole (separated ", " (← within e.references layer (← items e.value)))]
  | .boolean => return text (if (← scalar e.value).same (.bool true) then "1" else "0")
  | .fontFamily => return text (familiesText (← names e.value))
  | .link => return text (linkText e.value)
  | .strokeStyle => return text (strokeText e.value)
  | .number => return text (numberText (← scalar e.value))
  | .dimension | .duration | .fontWeight | .string => return text e.value.plain

/-- The custom properties of a value. -/
def entryProperties (type : TokenType) (e : Entry) : Except Fault (List Property) :=
  match e.reference.bind useOf? with
  | some piece => .ok [whole [piece]]
  | none => properties type e

/-! ## Declarations -/

/-- A custom property that a token has in a mode. -/
structure Declaration where
  /-- The path of the token. -/
  token : String
  mode : String
  property : Property

namespace Declaration

/-- The name of the custom property. -/
def name (naming : Naming) (d : Declaration) : String :=
  partName (naming d.token) d.property.part

/-- The words of its value. -/
def words (naming : Naming) (d : Declaration) : List Word :=
  d.property.value.map (Piece.word naming (naming d.token))

def fragment (naming : Naming) (d : Declaration) : Fragment := {
  token := d.token
  format := format
  name := Fragment.nameOf d.token (some (d.name naming))
  value := wordsText (d.words naming)
  mode := d.mode
  variant := d.property.variant }

end Declaration

/-- The custom properties of a token, mode by mode. -/
def tokenDeclarations (t : Token) : Except Fault (List Declaration) := do
  let perMode ← t.modes.mapM fun (mode, e) => do
    return (← entryProperties t.type e).map (⟨t.id, mode, ·⟩)
  return perMode.flatten

/-- The custom properties of all tokens. -/
def tableDeclarations (t : Table) : Except Fault (List Declaration) := do
  return (← t.tokens.mapM fun (_, token) => tokenDeclarations token).flatten

def tableFragments (naming : Naming) (t : Table) : Except Fault (List Fragment) := do
  return (← tableDeclarations t).map (Declaration.fragment naming)

end DesignTokens.Css
