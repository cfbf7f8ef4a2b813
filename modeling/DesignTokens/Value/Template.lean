import DesignTokens.Problem

/-!
# Templates of values

A value that was read may have references in it.  A `Template` is such a value: references stand in
it as holes.  Where the holes are is kept as a `ReferenceTree`, and filling them gives plain data.
-/

namespace DesignTokens

/-! ## Holes and templates -/

/-- A reference inside a value, and what it may lead to. -/
structure Hole where
  reference : Reference
  /-- The place of its text. -/
  span : Span
  /-- The types of tokens that fit; without them every type does. -/
  accepted : Option (List TokenType)
  /-- Whether a list that is filled in becomes part of the list around it. -/
  spliced : Bool

/-- A value with holes. -/
inductive Template where
  /-- A reference. -/
  | hole (h : Hole)
  | scalar (s : Scalar)
  /-- Items in order. -/
  | list (items : List Template)
  /-- Named members in order. -/
  | object (members : List (String × Template))
deriving Inhabited

/-- A step from a value to one of its parts. -/
inductive Step where
  /-- To a member. -/
  | field (name : String)
  /-- To an item. -/
  | index (n : Nat)
deriving DecidableEq

/-- Which parts of a value are references. -/
inductive ReferenceTree where
  /-- The part itself. -/
  | reference (r : Reference)
  /-- Some of its parts. -/
  | parts (children : List (Step × ReferenceTree))
deriving Inhabited

namespace ReferenceTree

/-- What is known of the part a step away. -/
def child? (step : Step) : ReferenceTree → Option ReferenceTree
  | .reference _ => none
  | .parts children => (children.find? (·.1 = step)).map (·.2)

/-- The reference that a part is. -/
def reference? : ReferenceTree → Option Reference
  | .reference r => some r
  | .parts _ => none

end ReferenceTree

namespace Template

abbrev text (s : String) : Template := .scalar (.text s)

/-- An integer. -/
abbrev int (i : Int) : Template := .scalar (.int i)

/-! ## The holes of a template -/

mutual

/-- The holes of a template with the steps that lead to them, in order. -/
def holes : Template → List (List Step × Hole)
  | .hole h => [([], h)]
  | .scalar _ => []
  | .list items => holesOfItems 0 items
  | .object members => holesOfMembers members

/-- The holes of items, from a position on. -/
def holesOfItems (n : Nat) : List Template → List (List Step × Hole)
  | [] => []
  | t :: ts => (holes t).map (fun p => (.index n :: p.1, p.2)) ++ holesOfItems (n + 1) ts

def holesOfMembers : List (String × Template) → List (List Step × Hole)
  | [] => []
  | (k, t) :: ms => (holes t).map (fun p => (.field k :: p.1, p.2)) ++ holesOfMembers ms

end

/-- Whether a template has a hole. -/
def hasHole (t : Template) : Bool := !t.holes.isEmpty

mutual

/-- The tree of the references of a template; without references there is none. -/
def references? : Template → Option ReferenceTree
  | .hole h => some (.reference h.reference)
  | .scalar _ => none
  | .list items =>
    match itemReferences 0 items with
    | [] => none
    | children => some (.parts children)
  | .object members =>
    match memberReferences members with
    | [] => none
    | children => some (.parts children)

/-- The trees of the references of items, from a position on. -/
def itemReferences (n : Nat) : List Template → List (Step × ReferenceTree)
  | [] => []
  | t :: ts =>
    match references? t with
    | some r => (.index n, r) :: itemReferences (n + 1) ts
    | none => itemReferences (n + 1) ts

/-- The trees of the references of members. -/
def memberReferences : List (String × Template) → List (Step × ReferenceTree)
  | [] => []
  | (k, t) :: ms =>
    match references? t with
    | some r => (.field k, r) :: memberReferences ms
    | none => memberReferences ms

end

/-! ## Filling the holes -/

/-- What a filled item adds to the list around it. -/
def spliceOf : Data → List Data
  | .list xs => xs
  | d => [d]

mutual

/-- The data of a template whose references have values. -/
def fill (value : Reference → Except Fault Data) : Template → Except Fault Data
  | .hole h => value h.reference
  | .scalar s => .ok (.scalar s)
  | .list items => .list <$> fillItems value items
  | .object members => .object <$> fillMembers value members

def fillItems (value : Reference → Except Fault Data) : List Template → Except Fault (List Data)
  | [] => .ok []
  | t :: ts => do
    let item ← fill value t
    let items ← fillItems value ts
    match t with
    | .hole h => return (if h.spliced then spliceOf item else [item]) ++ items
    | _ => return item :: items

def fillMembers (value : Reference → Except Fault Data) :
    List (String × Template) → Except Fault (List (String × Data))
  | [] => .ok []
  | (k, t) :: ms => do
    let item ← fill value t
    let items ← fillMembers value ms
    return (k, item) :: items

end

end Template

end DesignTokens
