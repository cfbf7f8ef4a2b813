import DesignTokens.Data
import DesignTokens.Source.Span

/-!
# Trees of documents

A `Tree` is the content of a document in which every node and every key knows its place.
-/

namespace DesignTokens

/-- A key of a mapping. -/
structure Key where
  /-- The text of the key. -/
  name : String
  /-- The place of the key. -/
  span : Span
deriving DecidableEq

/-- A node with its place.  The keys of one mapping are meant to be distinct. -/
inductive Tree where
  /-- Nothing. -/
  | null (span : Span)
  | scalar (value : Scalar) (span : Span)
  /-- Items in order. -/
  | sequence (items : List Tree) (span : Span)
  /-- Members in order. -/
  | mapping (members : List (Key × Tree)) (span : Span)
deriving Inhabited

/-- The kinds of nodes, as messages name them. -/
inductive NodeKind where
  /-- A mapping. -/
  | object
  /-- A sequence. -/
  | array
  /-- Nothing. -/
  | null
  /-- A truth value. -/
  | boolean
  /-- A text. -/
  | string
  | number
deriving DecidableEq

/-- How messages name a kind. -/
def NodeKind.name : NodeKind → String
  | .object => "Object"
  | .array => "Array"
  | .null => "Null"
  | .boolean => "Boolean"
  | .string => "String"
  | .number => "Number"

def Scalar.kind : Scalar → NodeKind
  | .bool _ => .boolean
  | .int _ => .number
  | .float _ => .number
  | .text _ => .string

namespace Tree

/-! ## What a node is -/

/-- The place of a node. -/
def span : Tree → Span
  | .null s => s
  | .scalar _ s => s
  | .sequence _ s => s
  | .mapping _ s => s

def kind : Tree → NodeKind
  | .null _ => .null
  | .scalar v _ => v.kind
  | .sequence .. => .array
  | .mapping .. => .object

/-- The text of a node that is a text. -/
def text? : Tree → Option String
  | .scalar (.text s) _ => some s
  | _ => none

/-- The number of a node that is a number. -/
def number? : Tree → Option Scalar
  | .scalar v _ => if v.isNumber then some v else none
  | _ => none

/-- The truth value of a node that is one. -/
def bool? : Tree → Option Bool
  | .scalar (.bool b) _ => some b
  | _ => none

/-- The items of a sequence. -/
def items? : Tree → Option (List Tree)
  | .sequence items _ => some items
  | _ => none

/-- The members of a mapping. -/
def members? : Tree → Option (List (Key × Tree))
  | .mapping members _ => some members
  | _ => none

/-- Whether a node is a mapping. -/
def isMapping (t : Tree) : Bool := t.members?.isSome

/-! ## Members -/

/-- The members of a mapping; other nodes have none. -/
def members (t : Tree) : List (Key × Tree) := t.members?.getD []

def member? (name : String) (t : Tree) : Option (Key × Tree) :=
  t.members.find? (·.1.name = name)

/-- The value of a member. -/
def get? (name : String) (t : Tree) : Option Tree :=
  (t.member? name).map (·.2)

/-- Whether a mapping has a member of a name. -/
def has (name : String) (t : Tree) : Bool := (t.member? name).isSome

/-- The names of the members in order. -/
def keys (t : Tree) : List String := t.members.map (·.1.name)

/-! ## Content without places -/

mutual

/-- The content of a node. -/
def data : Tree → Data
  | .null _ => .null
  | .scalar v _ => .scalar v
  | .sequence items _ => .list (dataList items)
  | .mapping members _ => .object (dataMembers members)

/-- The content of nodes in order. -/
def dataList : List Tree → List Data
  | [] => []
  | t :: ts => data t :: dataList ts

/-- The content of members in order. -/
def dataMembers : List (Key × Tree) → List (String × Data)
  | [] => []
  | (k, t) :: ms => (k.name, data t) :: dataMembers ms

end

end Tree

end DesignTokens
