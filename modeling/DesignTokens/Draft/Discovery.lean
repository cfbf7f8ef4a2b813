import DesignTokens.Draft
import DesignTokens.Reference

/-!
# Finding tokens

A mapping with a value is a token, any other mapping a group.  A type that is given for a group
holds for everything below it that has no type of its own.  A group counts only when there is a
token somewhere below it, so each token that is found marks the groups around it.
-/

namespace DesignTokens.Discovery

/-! ## Names -/

/-- The member that makes a mapping a token. -/
def valueField : String := "$value"

/-- The member with the modes inside the extensions. -/
def modeField : String := "mode"

/-- Whether a name says something about the group or the token around it. -/
def isReserved (name : String) : Bool := name.toList.head? = some '$'

/-- Characters that have a meaning in references. -/
def isForbidden (c : Char) : Bool := c = '.' || Reference.isMark c

/-- Whether a name can be part of a path. -/
def isName (name : String) : Bool := name ≠ "" && !name.toList.any isForbidden

/-! ## What stands beside a value -/

/-- The type that is given for a node. -/
def givenType (node : Tree) : Except Failure (Option TokenType) :=
  match node.get? "$type" with
  | none => .ok none
  | some t =>
    match t.text? with
    | none => Grammar.failKind .string t
    | some name =>
      match TokenType.ofName? name with
      | some type => .ok (some type)
      | none => Grammar.fail (.unknownType name) t

def description (node : Tree) : Except Failure (Option String) :=
  match node.get? "$description" with
  | none => .ok none
  | some t =>
    match t.text? with
    | some s => .ok (some s)
    | none => Grammar.failKind .string t

def extensions (node : Tree) : Except Failure (List (Key × Tree)) :=
  match node.get? "$extensions" with
  | none => .ok []
  | some t =>
    match t.members? with
    | some members => .ok members
    | none => Grammar.failKind .object t

/-- The modes among extensions.  The default mode is not among them. -/
def modes (extensions : List (Key × Tree)) : Except Failure (List (String × Tree)) :=
  match extensions.find? (·.1.name = modeField) with
  | none => .ok []
  | some (_, t) =>
    match t.members? with
    | none => Grammar.failKind .object t
    | some members => members.mapM fun (key, node) =>
      if key.name = defaultMode then .error (.issue (.ofKey .reservedMode key))
      else .ok (key.name, node)

/-! ## Tokens -/

/-- The draft of a token. -/
def token (id : String) (group : Option String) (type : Option TokenType) (node value : Tree) :
    Except Failure Draft := do
  if type.isNone then
    if (← Grammar.hole? none false value).isNone then Grammar.fail .missingType node
  -- extensions and modes are looked at before the description
  let members ← extensions node
  let modes ← modes members
  return {
    id := id
    type := type
    node := node
    value := value
    modes := modes
    description := ← description node
    extensions := Members.erase modeField (Tree.dataMembers members)
    group := group }

/-! ## The state of a walk -/

/-- A group that was entered. -/
structure Entered extends Group where
  /-- Whether a token was found somewhere below it. -/
  counts : Bool

/-- The tokens and the groups that were met so far, by their paths. -/
structure Trail where
  tokens : Members Draft
  groups : Members Entered

/-- Marks the group whose path is the first `depth` of some names, and the groups around it.  The
marking ends at a group that counts already. -/
def mark (names : List String) : (depth : Nat) → Members Entered → Members Entered
  | 0, groups => groups
  | depth + 1, groups =>
    let path := ".".intercalate (names.take (depth + 1))
    match Members.get? path groups with
    | none => groups
    | some group =>
      if group.counts then groups
      else mark names depth (Members.modify path ({ · with counts := true }) groups)

namespace Trail

/-- Before the first step. -/
def start : Trail := ⟨[], []⟩

/-- Enters a group, which has no tokens yet. -/
def addGroup (group : Group) (s : Trail) : Trail :=
  { s with groups := Members.set group.id ⟨group, false⟩ s.groups }

/-- Takes a token.  The group around it gets a further member, and counts. -/
def addToken (d : Draft) (s : Trail) : Trail where
  tokens := Members.set d.id d s.tokens
  groups :=
    match d.group with
    | none => s.groups
    | some path =>
      let names := Path.names path
      mark names names.length
        (Members.modify path (fun group => { group with members := group.members ++ [d.id] })
          s.groups)

end Trail

/-! ## Walking through a document -/

mutual

/-- Walks through the members of a group; `inherited` is the type of the group. -/
def walkMembers (parent : Option String) (inherited : Option TokenType) :
    List (Key × Tree) → Trail → Except Failure Trail
  | [], s => .ok s
  | (key, child) :: rest, s =>
    if isReserved key.name then walkMembers parent inherited rest s
    else if !isName key.name then .error (.issue (.ofKey (.invalidName key.name) key))
    else do
      let s ← walkChild parent (Path.below parent key.name) inherited child s
      walkMembers parent inherited rest s

/-- Walks through a node with a name. -/
def walkChild (parent : Option String) (id : String) (inherited : Option TokenType) :
    Tree → Trail → Except Failure Trail
  | .mapping members span, s => do
    let node := Tree.mapping members span
    let type := (← givenType node).or inherited
    match node.get? valueField with
    -- nothing below a token is looked at
    | some value => return s.addToken (← token id parent type node value)
    | none =>
      let group : Group := {
        id := id
        type := type
        description := ← description node
        extensions := Tree.dataMembers (← extensions node)
        members := [] }
      walkMembers (some id) type members (s.addGroup group)
  | node, _ => Grammar.failKind .member node

end

/-- Drafts and groups in the order of the document. -/
structure Found where
  /-- The tokens. -/
  drafts : List Draft
  /-- The groups that have tokens below them. -/
  groups : List Group

/-- What was found on a walk: the tokens, and the groups that count. -/
def Trail.found (s : Trail) : Found where
  drafts := s.tokens.map Prod.snd
  groups := (s.groups.filter (·.2.counts)).map (·.2.toGroup)

/-- What is found in a document. -/
def inDocument (root : Tree) : Except Failure Found :=
  match root with
  | .mapping members _ => do
    return (← walkMembers none (← givenType root) members .start).found
  | _ => Grammar.failKind .object root

end DesignTokens.Discovery
