import DesignTokens.Value.Grammar

/-!
# Drafts of tokens and groups

A draft is a token as it was found in a document, before its values are read.
-/

namespace DesignTokens

/-- A token as it was found. -/
structure Draft where
  /-- The path of the token. -/
  id : String
  /-- The type, given or inherited; a reference may do without one. -/
  type : Option TokenType
  /-- The node of the token. -/
  node : Tree
  /-- The value of the default mode. -/
  value : Tree
  /-- The values of the other modes. -/
  modes : List (String × Tree)
  description : Option String
  /-- The extensions without the modes. -/
  extensions : Members Data
  /-- The path of the group around the token. -/
  group : Option String

/-- A group of tokens. -/
structure Group where
  /-- The path of the group. -/
  id : String
  /-- The type, given or inherited. -/
  type : Option TokenType
  description : Option String
  extensions : Members Data
  /-- The paths of the tokens right below the group. -/
  members : List String

/-- Whether two groups are the same; numbers in their extensions count by their value. -/
def Group.same (g h : Group) : Bool :=
  g.id = h.id && g.type = h.type && g.description = h.description && g.members = h.members &&
    (Data.object g.extensions).same (.object h.extensions)

namespace Draft

/-- The values of all modes of a token, the default mode first.  A value of a mode is whole: it
does not add to the value of the default mode. -/
def values (d : Draft) : Except Failure (Members Template) :=
  match d.type with
  | none => .error (.fault (.untyped d.id))
  | some type => do
    let first ← Grammar.value type d.value
    let rest ← d.modes.mapM fun (mode, node) => do return (mode, ← Grammar.value type node)
    return (defaultMode, first) :: rest

/-- The draft of an identifier. -/
def find? (id : String) (drafts : List Draft) : Option Draft :=
  drafts.find? (·.id = id)

end Draft

end DesignTokens
