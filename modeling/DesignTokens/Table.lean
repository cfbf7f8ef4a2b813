import DesignTokens.Draft

/-!
# Tables of tokens

A table holds every token with its values in all modes.  References are resolved, but the table
remembers where they stood.
-/

namespace DesignTokens

/-- The value of a token in one mode. -/
structure Entry where
  /-- The value without references. -/
  value : Data
  /-- The parts of the value that were references. -/
  references : Option ReferenceTree
  /-- The reference that the value as a whole was. -/
  reference : Option Reference
  /-- The renditions of a colour. -/
  variants : Members Data

/-- A token with its values in all modes. -/
structure Token where
  /-- The path of the token. -/
  id : String
  type : TokenType
  /-- The values by mode. -/
  modes : Members Entry
  /-- The path of the group around the token. -/
  group : Option String
  /-- The place of the token. -/
  span : Span
  description : Option String
  /-- The extensions without the modes. -/
  extensions : Members Data

namespace Token

def entry (t : Token) (mode : String) : Except Fault Entry :=
  match Members.get? mode t.modes with
  | some e => .ok e
  | none => .error .unknownName

/-- The token that the default mode refers to as a whole. -/
def aliasOf (t : Token) : Option String :=
  (Members.get? defaultMode t.modes).bind fun e => e.reference.map Reference.target

end Token

/-- The tokens and the groups of a document, in its order. -/
structure Table where
  /-- The tokens by path. -/
  tokens : Members Token
  /-- The groups by path. -/
  groups : Members Group

namespace Table

/-- The token of a path. -/
def token (t : Table) (id : String) : Except Fault Token :=
  match Members.get? id t.tokens with
  | some token => .ok token
  | none => .error .unknownName

/-- The value that a reference stands for. -/
def target (t : Table) (r : Reference) : Except Fault Data := do
  return (← (← t.token r.target).entry r.mode).value

/-- Whether the groups of two tables are the same by path. -/
def sameGroups (t u : Table) : Bool :=
  t.groups.length = u.groups.length && t.groups.all fun (id, g) =>
    match Members.get? id u.groups with
    | some h => g.same h
    | none => false

/-- One line about a table. -/
def summary (t : Table) : String :=
  "TokenTable(" ++ toString t.tokens.length ++ " tokens, " ++ toString t.groups.length ++
    " groups)"

end Table

end DesignTokens
