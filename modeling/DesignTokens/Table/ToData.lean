import DesignTokens.Reference
import DesignTokens.Table
import DesignTokens.Table.Written

/-!
# Tables as documents

A table is written as a document whose table is the same: references are put back where they stood,
and modes go back into the extensions.
-/

namespace DesignTokens.Table

/-! ## Font families -/

/-- The number of items that a value takes in the list that it was spliced into. -/
def spliceLength : Data → Nat
  | .list items => items.length
  | _ => 1

/-- The families of a value: its items, or the characters of a text.  An object has as many families
as members, but none of them can be taken from it. -/
def families : Data → Except Fault (List (Except Fault Written))
  | .list items => .ok (items.map fun d => .ok (.ofData d))
  | .scalar (.text s) => .ok (s.toList.map fun c => .ok (.text (String.singleton c)))
  | .object members => .ok (members.map fun _ => .error .unknownName)
  | _ => .error .wrongShape

/-- Font families as they were written.  Where a slot held a reference, its families stand in a row
in the list; `fuel` bounds the number of slots. -/
def restoreFamilies (t : Table) (references : ReferenceTree) : (fuel slot : Nat) →
    List (Except Fault Written) → Except Fault (List Written)
  | 0, _, _ => .ok []
  | _ + 1, _, [] => .ok []
  | fuel + 1, slot, family :: rest =>
    match references.child? (.index slot) with
    | none => do return (← family) :: (← restoreFamilies t references fuel (slot + 1) rest)
    | some (.parts _) => .error .notReference
    | some (.reference r) => do
      -- an empty list takes no place, and its slot is written all the same
      let width := spliceLength (← t.target r)
      return .text r.text ::
        (← restoreFamilies t references fuel (slot + 1) ((family :: rest).drop width))

/-- The number of parts that are known to be references. -/
def partCount : ReferenceTree → Nat
  | .reference _ => 0
  | .parts children => children.length

/-- Font families as they were written. -/
def familiesAsWritten (t : Table) (references : ReferenceTree) (value : Data) :
    Except Fault Written := do
  let items ← families value
  return .list (← restoreFamilies t references (items.length + partCount references + 1) 0 items)

/-! ## Values as they were written -/

/-- The member of a font that holds its families. -/
def familyField : String := "fontFamily"

/-- The properties of a font as they were written. -/
def typographyAsWritten (t : Table) (children : List (Step × ReferenceTree))
    (members : Members Data) : Except Fault Written := do
  let written := Written.ofData (.object members)
  match (ReferenceTree.parts children).child? (.field familyField) with
  | some (.parts references) =>
    -- families were spliced, so they cannot be put back by position like the other parts
    let others := children.filter (·.1 ≠ .field familyField)
    let restored ← written.restoreParts others
    match Members.get? familyField members with
    | some value =>
      let families ← familiesAsWritten t (.parts references) value
      Written.replacePart (.field familyField) families restored
    | none => throw .unknownName
  | _ => written.restoreParts children

/-- A value as it was written. -/
def asWritten (t : Table) (type : TokenType) (e : Entry) : Except Fault Written :=
  match e.reference, e.references with
  | some r, _ => .ok (.text r.text)
  | none, none => .ok (.ofData e.value)
  | none, some (.reference r) => .ok (.text r.text)
  | none, some (.parts []) => .ok (.ofData e.value)
  | none, some (.parts children) =>
    match type, e.value with
    | .fontFamily, value => familiesAsWritten t (.parts children) value
    | .typography, .object members => typographyAsWritten t children members
    | _, value => (Written.ofData value).restore (.parts children)

/-! ## Documents -/

/-- A token in a document. -/
def tokenNode (t : Table) (token : Token) : Except Fault Written := do
  let value ← t.asWritten token.type (← token.entry defaultMode)
  let others := token.modes.filter fun m => m.1 ≠ defaultMode
  let overrides ← others.mapM fun (mode, e) => do
    return (Step.field mode, ← t.asWritten token.type e)
  let extensions := Written.ofMembers token.extensions
  let extensions :=
    if overrides.isEmpty then extensions
    else Written.setMember (.field "mode") (.object overrides) extensions
  let description := token.description.map fun s => (Step.field "$description", Written.text s)
  return .object ([(.field "$type", .text token.type.name)] ++ description.toList ++
    [(.field "$value", value)] ++
    (if extensions.isEmpty then [] else [(.field "$extensions", .object extensions)]))

/-- A group in a document before it has members: what is said about it, as far as it is known. -/
def groupNode (t : Table) (id : String) : Written :=
  match Members.get? id t.groups with
  | none => .object []
  | some g =>
    .ofData (.object ((g.type.map fun type => ("$type", Data.text type.name)).toList ++
      (g.description.map fun s => ("$description", Data.text s)).toList ++
      (if g.extensions.isEmpty then [] else [("$extensions", .object g.extensions)])))

/-- A document, or a part of it, with a token at a path.  Groups on the way are added when they are
not there; `parent` is the path of the part.  Nothing can be added to a part that is no object, and
the way is made before the token is looked at. -/
def place (t : Table) (node : Except Fault Written) : (path : List String) →
    (parent : Option String) → (part : Written) → Except Fault Written
  | [], _, part => .ok part
  | [name], _, part => do
    let node ← node
    match part with
    | .object members => return .object (Written.setMember (.field name) node members)
    | _ => throw .wrongShape
  | name :: rest, parent, part => do
    match part with
    | .object members =>
      let id := Path.below parent name
      let inner := (Written.member? (.field name) members).getD (t.groupNode id)
      let inner ← place t node rest (some id) inner
      return .object (Written.setMember (.field name) inner members)
    | _ => throw .wrongShape

def document (t : Table) : Except Fault Written :=
  t.tokens.foldlM (fun part (_, token) =>
    t.place (t.tokenNode token) (Path.names token.id) none part) (.object [])

/-- The table as structured data. -/
def toData (t : Table) : Except Fault Data := t.document.map (·.data)

end DesignTokens.Table
