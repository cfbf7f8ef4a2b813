import DesignTokens.Color.Value
import DesignTokens.Value.Magnitude
import DesignTokens.Value.Template

/-!
# The grammar of values

Every type of token has a grammar for its values.  Reading a value checks it and brings it into its
normal form; wherever the grammar allows a reference, the normal form has a hole.
-/

namespace DesignTokens.Grammar

/-- A reader of values. -/
abbrev Reader := Tree → Except Failure Template

/-- Fails with a problem of a node. -/
def fail {α : Type} (problem : Problem) (node : Tree) : Except Failure α :=
  .error (.issue (.ofNode problem node))

/-- Fails because a node has a wrong kind. -/
def failKind {α : Type} (what : Expectation) (node : Tree) : Except Failure α :=
  fail (.expected what node.kind) node

/-! ## References -/

/-- The hole of a node that is a text with an opening brace at its start; such a text has to be a
reference. -/
def hole? (accepted : Option (List TokenType)) (spliced : Bool) (node : Tree) :
    Except Failure (Option Hole) :=
  match node.text? with
  | none => .ok none
  | some s =>
    if !Reference.isOpenedBy s then .ok none
    else
      match Reference.parse? s with
      | some r => .ok (some ⟨r, node.span, accepted, spliced⟩)
      | none => fail (.invalidReference s) node

/-- Reads a reference to a token of a type, or else a value. -/
def orHole (type : TokenType) (read : Reader) : Reader := fun node => do
  match ← hole? (some [type]) false node with
  | some h => return .hole h
  | none => read node

/-! ## Parts of values -/

/-- Fails unless a node has members of given names; the first one that is missing is reported. -/
def require (node : Tree) : List String → Except Failure Unit
  | [] => .ok ()
  | name :: rest => if node.has name then require node rest else fail (.missingPart name) node

/-- The part of a name.  That it is there has been checked before. -/
def part (node : Tree) (name : String) : Except Failure Tree :=
  match node.get? name with
  | some t => .ok t
  | none => .error (.fault .unknownName)

def readPart (node : Tree) (name : String) (read : Reader) : Except Failure (String × Template) := do
  return (name, ← read (← part node name))

/-- Fails unless a node is a mapping. -/
def requireObject (node : Tree) : Except Failure Unit :=
  if node.isMapping then .ok () else failKind .object node

/-! ## Simple values -/

def text (node : Tree) : Except Failure String :=
  match node.text? with
  | some s => .ok s
  | none => failKind .string node

/-- The text of a node that must not be empty. -/
def filledText (what : EmptyText) (node : Tree) : Except Failure String := do
  let s ← text node
  if s = "" then fail (.emptyText what) node else return s

/-- Reads a truth value. -/
def boolean : Reader := fun node =>
  match node.bool? with
  | some b => .ok (.scalar (.bool b))
  | none => failKind .boolean node

def number : Reader := fun node =>
  match node.number? with
  | some n => .ok (.scalar n)
  | none => failKind .number node

def string : Reader := fun node => (text node).map .text

/-- Reads the address of a resource. -/
def link : Reader := fun node => (filledText .link node).map .text

/-- Whether a node is the number zero. -/
def isZero (node : Tree) : Bool :=
  match node.number? with
  | some n => n.same (.int 0)
  | none => false

/-- Reads a length: zero, or a number with a unit. -/
def dimension : Reader := fun node => do
  if isZero node then return .int 0
  let s ← filledText .dimension node
  match Magnitude.unit? s.toList with
  | none => fail (.invalidDimension s) node
  | some [] => fail .missingUnit node
  | some unit =>
    if Magnitude.isUnit unit then return .text s else fail (.invalidDimension s) node

/-- Reads a time: zero, or a number with one of two units. -/
def duration : Reader := fun node => do
  if isZero node then return .int 0
  let s ← filledText .duration node
  match Magnitude.unit? s.toList with
  | none => fail (.invalidDuration s) node
  | some [] => fail .missingTimeUnit node
  | some unit =>
    if Magnitude.timeUnits.contains (String.ofList unit) then return .text s
    else fail (.invalidDuration s) node

/-! ## Colours -/

/-- The template of data without holes. -/
def ofScalars (items : List Scalar) : Template := .list (items.map .scalar)

/-- The template of a colour. -/
def ofColor (c : Color) : Template :=
  let channel (v : Float) : Scalar := .float (.ofFloat (if v.isNaN then 0.0 else v))
  .object [(Color.spaceField, .text c.space.name),
    (Color.channelsField, ofScalars (c.channels.toList.map channel)),
    (Color.alphaField, .scalar (.float (.ofFloat (if c.alpha.isNaN then 1.0 else c.alpha))))]

/-- The numbers of a list of numbers. -/
def numbers (node : Tree) : Except Failure (List Scalar) :=
  match node.items?.bind fun items => items.mapM Tree.number? with
  | some ns => .ok ns
  | none => fail .invalidChannels node

def numberOf (node : Tree) : Except Failure Scalar :=
  match node.number? with
  | some n => .ok n
  | none => failKind .number node

/-- Reads a colour as an object: it stays as it is written. -/
def colorObject : Reader := fun node => do
  require node [Color.spaceField, Color.channelsField]
  let spaceNode ← part node Color.spaceField
  let space ← text spaceNode
  let channels ← numbers (← part node Color.channelsField)
  let alpha ←
    match node.get? Color.alphaField with
    | some t => numberOf t
    | none => pure (.int 1)
  -- the colour only has to exist: what is kept are the parts as they were written
  match Color.ofParts space channels alpha with
  | .ok _ =>
    return .object [(Color.spaceField, .text space), (Color.channelsField, ofScalars channels),
      (Color.alphaField, .scalar alpha)]
  | .error .unreadable => fail (.unknownSpace space) spaceNode
  | .error fault => throw (.fault fault)

/-- Reads a colour: an object, or a text as in style sheets. -/
def color : Reader := fun node => do
  if node.isMapping then colorObject node
  else
    let s ← filledText .color node
    match Color.ofText? s with
    | some c => return ofColor c
    | none => fail (.invalidColor s) node

/-! ## Fonts -/

/-- Reads a font family inside a list.  Anything else than a text makes the list invalid. -/
def family (list : Tree) : Reader := fun node => do
  match ← hole? (some [.fontFamily]) true node with
  | some h => return .hole h
  | none =>
    match node.text? with
    | some s => if s = "" then fail .invalidFamilies list else return .text s
    | none => fail .invalidFamilies list

/-- Reads font families: one, or a list of them. -/
def fontFamily : Reader := fun node =>
  match node.text?, node.items? with
  | some s, _ => if s = "" then fail (.emptyText .family) node else .ok (.list [.text s])
  | none, some [] => fail .invalidFamilies node
  | none, some items => (items.mapM (family node)).map .list
  | none, none => failKind .families node

/-- The weights of fonts by name. -/
def fontWeights : List (String × Int) :=
  [("thin", 100), ("hairline", 100), ("extra-light", 200), ("ultra-light", 200), ("light", 300),
   ("normal", 400), ("regular", 400), ("book", 400), ("medium", 500), ("semi-bold", 600),
   ("demi-bold", 600), ("bold", 700), ("extra-bold", 800), ("ultra-bold", 800), ("black", 900),
   ("heavy", 900), ("extra-black", 950), ("ultra-black", 950)]

/-- The greatest weight of a font. -/
def maxWeight : Int := 1000

/-- The integer that a number is; integers that no double precision number comes near are too
large. -/
def integral? (n : Scalar) : Except Fault (Option Int) :=
  match n with
  | .int i => if (Binary64.ofInt? i).isSome then .ok (some i) else .error .tooLarge
  | n => .ok n.integral?

/-- Reads the weight of a font: an integer up to a thousand, or a name. -/
def fontWeight : Reader := fun node =>
  match node.number?, node.text? with
  | some n, _ =>
    match integral? n with
    | .error fault => .error (.fault fault)
    | .ok (some i) =>
      if 0 ≤ i && i ≤ maxWeight then .ok (.int i) else fail (.weightOutOfRange n) node
    | .ok none => fail (.weightOutOfRange n) node
  | none, some s =>
    match Members.get? s fontWeights with
    | some i => .ok (.int i)
    | none => fail (.unknownWeight s (Members.names fontWeights)) node
  | none, none => failKind .stringOrNumber node

/-! ## Curves and lines -/

/-- Reads a point of a curve. -/
def point (list : Tree) : Reader := fun node => do
  match ← hole? (some [.number]) false node with
  | some h => return .hole h
  | none =>
    match node.number? with
    | some n => return .scalar n
    | none => fail .invalidPoints list

/-- Reads a curve of four numbers. -/
def cubicBezier : Reader := fun node =>
  match node.items? with
  | none => failKind .fourNumbers node
  | some items =>
    if items.length ≠ 4 then fail (.pointCount items.length) node
    else (items.mapM (point node)).map .list

/-- The styles of lines. -/
def strokeStyles : List String :=
  ["solid", "dashed", "dotted", "double", "groove", "ridge", "outset", "inset"]

/-- The ends of lines. -/
def lineCaps : List String := ["round", "butt", "square"]

/-- Reads a dash of a line. -/
def dash : Reader := fun node => do
  match ← hole? (some [.dimension]) false node with
  | some h => return .hole h
  | none =>
    match node.text? with
    | some s => if s = "" then fail .invalidDashes node else dimension node
    | none => fail .invalidDashes node

/-- Reads the style of a line: a name, or dashes and the ends of the line. -/
def strokeStyle : Reader := fun node => do
  match node.text? with
  | some s =>
    if strokeStyles.contains s then return .text s
    else fail (.unknownStrokeStyle s strokeStyles) node
  | none =>
    if !node.isMapping then failKind .stringOrObject node
    else
      require node ["dashArray", "lineCap"]
      let capNode ← part node "lineCap"
      let cap ← text capNode
      -- the ends of the line are checked before its dashes
      if !lineCaps.contains cap then fail (.unknownLineCap cap lineCaps) capNode
      let dashNode ← part node "dashArray"
      match dashNode.items? with
      | none => fail .invalidDashes dashNode
      | some items =>
        return .object [("lineCap", .text cap), ("dashArray", .list (← items.mapM dash))]

/-! ## Composite values -/

/-- Reads a line around a box. -/
def border : Reader := fun node => do
  requireObject node
  require node ["color", "width", "style"]
  let color ← readPart node "color" (orHole .color color)
  let width ← readPart node "width" (orHole .dimension dimension)
  let style ← readPart node "style" (orHole .strokeStyle strokeStyle)
  return .object [color, width, style]

/-- Reads the position of a stop of a gradient. -/
def stopPosition (node : Tree) : Except Failure (String × Template) := do
  requireObject node
  require node ["color", "position"]
  readPart node "position" (orHole .number number)

/-- Puts colours and positions together to stops, one by one.  There are as many of both. -/
def stops : (colors positions : List (String × Template)) → Except Failure (List Template)
  | [], [] => .ok []
  | color :: colors, position :: positions => do
    return .object [color, position] :: (← stops colors positions)
  | _, _ => .error (.fault .outOfBounds)

/-- Reads a gradient: the positions of all stops first, their colours afterwards. -/
def gradient : Reader := fun node =>
  match node.items? with
  | none => failKind .stops node
  | some items => do
    -- no colour is looked at before all stops have their positions
    let positions ← items.mapM stopPosition
    let colors ← items.mapM fun stop => readPart stop "color" (orHole .color color)
    return .list (← stops colors positions)

/-- Reads the parts of given names that are there. -/
def readPresent (node : Tree) (read : Reader) :
    List String → Except Failure (List (String × Template))
  | [] => .ok []
  | name :: rest =>
    if node.has name then do
      let first ← readPart node name read
      return first :: (← readPresent node read rest)
    else readPresent node read rest

/-- Reads a layer of a shadow. -/
def layer : Reader := fun node => do
  requireObject node
  require node ["color", "offsetX", "offsetY", "blur"]
  let color ← readPart node "color" (orHole .color color)
  let lengths ←
    readPresent node (orHole .dimension dimension) ["offsetX", "offsetY", "blur", "spread"]
  let inset ← readPresent node (orHole .boolean boolean) ["inset"]
  return .object (color :: lengths ++ inset)

/-- Reads a shadow: one layer, or a list of them. -/
def shadow : Reader := fun node =>
  match node with
  | .mapping .. => (layer node).map fun l => .list [l]
  | .sequence items _ => (items.mapM layer).map .list
  | _ => failKind .layers node

/-- Reads a movement in time; without a delay it starts at once. -/
def transition : Reader := fun node => do
  requireObject node
  require node ["duration", "timingFunction"]
  let time ← readPart node "duration" (orHole .duration duration)
  let delay ←
    match node.get? "delay" with
    | some t => orHole .duration duration t
    | none => pure (.int 0)
  let curve ← readPart node "timingFunction" (orHole .cubicBezier cubicBezier)
  return .object [time, ("delay", delay), curve]

/-- The types of references that the known properties of a font accept. -/
def typographyTypes : List (String × List TokenType) :=
  [("fontFamily", [.fontFamily]), ("fontSize", [.dimension]), ("fontWeight", [.fontWeight]),
   ("letterSpacing", [.dimension]), ("lineHeight", [.number, .dimension])]

/-- Reads a property of a font that is no reference.  Properties that are not known are texts or
numbers. -/
def property (name : String) : Reader := fun node =>
  match name with
  | "fontFamily" => fontFamily node
  | "fontSize" => dimension node
  | "fontWeight" => fontWeight node
  | "letterSpacing" => dimension node
  | "lineHeight" =>
    match node.number? with
    | some n => .ok (.scalar n)
    | none => dimension node
  | _ =>
    match node with
    | .scalar (.text s) _ => .ok (.text s)
    | .scalar (.int i) _ => .ok (.scalar (.int i))
    | .scalar (.float x) _ => .ok (.scalar (.float x))
    | _ => failKind .stringOrNumber node

/-- Reads the properties of a font. -/
def properties : List (Key × Tree) → Except Failure (List (String × Template))
  | [] => .ok []
  | (key, node) :: rest => do
    let value ←
      match ← hole? (Members.get? key.name typographyTypes) false node with
      | some h => pure (.hole h)
      | none => property key.name node
    return (key.name, value) :: (← properties rest)

/-- Reads the properties of a font together: a text in short form, or single properties. -/
def typography : Reader := fun node =>
  match node.text?, node.members? with
  | some s, _ => if s = "" then fail (.emptyText .typography) node else .ok (.text s)
  | none, some members => (properties members).map .object
  | none, none => failKind .stringOrObject node

/-! ## All types -/

/-- Reads a value of a type that is no reference as a whole. -/
def literal : TokenType → Reader
  | .boolean => boolean
  | .border => border
  | .color => color
  | .cubicBezier => cubicBezier
  | .dimension => dimension
  | .duration => duration
  | .fontFamily => fontFamily
  | .fontWeight => fontWeight
  | .gradient => gradient
  | .link => link
  | .number => number
  | .shadow => shadow
  | .string => string
  | .strokeStyle => strokeStyle
  | .transition => transition
  | .typography => typography

/-- Reads a value of a type; it may be a reference as a whole. -/
def value (type : TokenType) : Reader := orHole type (literal type)

end DesignTokens.Grammar
