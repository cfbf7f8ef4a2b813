import DesignTokens.Yaml.Meaning
import DesignTokens.Yaml.Scan

/-!
# Graphs of YAML nodes

An alias stands for a node that was read before, so the nodes of a text form a graph, which may even
lead back into itself.  A graph is a list of nodes; a node refers to others by their numbers.

The graph is read from the tokens of a text by recursive descent.  A document that starts with a
mark has the version that is declared in front of it, or the usual one.  A document without a mark
has the version of the document before it, also when that one stood in an earlier text.
-/

namespace DesignTokens.Yaml

/-! ## Graphs -/

/-- What a node holds. -/
inductive Content where
  | scalar (tag : ScalarTag) (text : String)
  | sequence (items : List Nat)
  /-- The keys and values of a mapping. -/
  | mapping (members : List (Nat × Nat))

/-- A node and its place. -/
structure Node where
  /-- What it holds. -/
  content : Content
  /-- The place where it starts. -/
  start : Mark
  /-- The place after its end. -/
  stop : Mark

/-- The nodes of a text by their numbers. -/
abbrev Graph := Array Node

namespace Graph

/-- The node of a number.  A number that no node has stands for nothing. -/
def node (g : Graph) (number : Nat) : Node :=
  g.getD number ⟨.scalar .null "", ⟨0, 0, 0⟩, ⟨0, 0, 0⟩⟩

/-- Ends a collection: the graph with what it holds, and the place after it. -/
def finish (number : Nat) (content : Content) (stop : Mark) (g : Graph) : Graph :=
  g.modify number fun n => { n with content := content, stop := stop }

end Graph

/-! ## The state of a reader -/

/-- The state of a reader inside a text. -/
structure Reading where
  /-- The scan that the tokens come from. -/
  scan : Scan
  /-- The tag handles of the document. -/
  handles : Members String
  /-- The nodes read so far. -/
  nodes : Graph
  /-- The nodes that have names. -/
  anchors : Members Nat

/-- A step of a reader, which changes the state also when it fails. -/
abbrev ReadM := ExceptT Failure (StateM Reading)

namespace ReadM

/-- Fails with a problem at a place. -/
def failAt {α : Type} (problem : Problem) (mark : Mark) : ReadM α :=
  throw (.problem problem mark)

/-- The version that holds. -/
def version : ReadM Version := do
  return (← get).scan.version

/-! ## Tokens -/

/-- Takes a step of the scan. -/
def scanning {α : Type} (step : ScanM α) : ReadM α := do
  let (answer, scan) := step.run (← get).scan
  modify ({ · with scan := scan })
  (answer : Except Failure α)

/-- The next token. -/
def peek : ReadM Token := scanning .peek

/-- Goes to the token after the next one. -/
def drop : ReadM Unit := scanning .release

/-! ## Nodes -/

/-- Ends a collection. -/
def finish (number : Nat) (content : Content) (stop : Mark) : ReadM Unit :=
  modify fun s => { s with nodes := s.nodes.finish number content stop }

/-- Adds a node, and gives it a name if there is one. -/
def addNode (anchor : Option String) (node : Node) : ReadM Nat :=
  modifyGet fun s =>
    let number := s.nodes.size
    let anchors :=
      match anchor with
      | some name => Members.set name number s.anchors
      | none => s.anchors
    (number, { s with nodes := s.nodes.push node, anchors := anchors })

/-- Adds a collection that starts at a place; until it is finished it holds nothing. -/
def addCollection (anchor : Option String) (content : Content) (start : Mark) : ReadM Nat :=
  addNode anchor ⟨content, start, start⟩

/-- The tag of a scalar: given, or from its text when it is plain. -/
def scalarTag (tag : Option String) (text : String) (plain : Bool) : ReadM ScalarTag := do
  let implied := tag = some "!" || (plain && tag.isNone)
  if implied then return impliedTag (← version) text.toList
  else return (tag.map ScalarTag.ofName).getD .text

/-- Adds a scalar without text at a place. -/
def addEmpty (mark : Mark) : ReadM Nat := do
  let tag ← scalarTag none "" true
  addNode none ⟨.scalar tag "", mark, mark⟩

/-! ## Properties -/

/-- The properties in front of a node, and their place. -/
structure Properties where
  /-- The name of the node. -/
  anchor : Option String
  /-- The tag of the node. -/
  tag : Option String
  /-- The place where the properties start and the place after them. -/
  extent : Option (Mark × Mark)

/-- The whole tag of a tag token. -/
def wholeTag (tag : TagText) (mark : Mark) : ReadM String := do
  let (expansion, suffix) ←
    match tag with
    | .verbatim t => pure ("", t)
    | .shorthand handle suffix =>
      match Members.get? handle (← get).handles with
      | some expansion => pure (expansion, suffix)
      | none => failAt (.undefinedHandle handle) mark
  match Lexeme.unescapeSuffix suffix.toList with
  | some text => return expansion ++ String.ofList text
  | none => throw (.fault .unreadable)

/-- Reads an anchor and a tag in either order. -/
def properties : ReadM Properties := do
  let first ← peek
  match first.kind with
  | .anchor name =>
    drop
    let second ← peek
    match second.kind with
    | .tag tag =>
      drop
      return ⟨some name, some (← wholeTag tag second.start), some (first.start, second.stop)⟩
    | _ => return ⟨some name, none, some (first.start, first.stop)⟩
  | .tag tag =>
    drop
    let second ← peek
    match second.kind with
    | .anchor name =>
      drop
      return ⟨some name, some (← wholeTag tag second.start), some (second.start, second.stop)⟩
    | _ => return ⟨none, some (← wholeTag tag first.start), some (first.start, first.stop)⟩
  | _ => return ⟨none, none, none⟩

/-! ## Nodes by recursive descent -/

/-- Where a node stands. -/
inductive Place where
  /-- In a block collection. -/
  | block
  /-- At a key or a value of a block mapping, where a sequence needs no indentation. -/
  | member
  /-- Between brackets. -/
  | flow
deriving DecidableEq

/-- Whether a token stands where a node of a block mapping is left out. -/
def leavesOutMember : TokenKind → Bool
  | .key | .value | .blockEnd => true
  | _ => false

/-- Whether a token stands where a node of a mapping between brackets is left out. -/
def leavesOutFlow (close : TokenKind → Bool) : TokenKind → Bool
  | .value | .flowEntry => true
  | k => close k

/-- Whether a token closes a sequence between brackets. -/
def closesSequence : TokenKind → Bool
  | .sequenceClose => true
  | _ => false

/-- Whether a token closes a mapping between brackets. -/
def closesMapping : TokenKind → Bool
  | .mappingClose => true
  | _ => false

/-- Whether a token is the colon of a value that has no key before it, which only versions after
1.1 allow. -/
def startsValue (kind : TokenKind) : ReadM Bool := do
  match kind with
  | .value => return (← version) ≠ .v11
  | _ => return false

/-- Takes a comma between the parts of a collection in brackets. -/
def takeComma (bracket : Char) : ReadM Unit := do
  let t ← peek
  match t.kind with
  | .flowEntry => drop
  | kind => failAt (.expectedListMark bracket kind.name) t.start

/-- Takes a token that ends a collection, or fails; the answer is the place after it. -/
def takeBlockEnd : ReadM Mark := do
  let t ← peek
  match t.kind with
  | .blockEnd => drop; return t.stop
  | kind => failAt (.expectedBlockEnd kind.name) t.start

mutual

def readNode : (fuel : Nat) → Place → ReadM Nat
  | 0, _ => failAt .tooLong ⟨0, 0, 0⟩
  | fuel + 1, place => do
    let first ← peek
    if let .alias name := first.kind then
      drop
      match Members.get? name (← get).anchors with
      | some number => return number
      | none => failAt (.undefinedAnchor name) first.start
    else
      let props ← properties
      let t ← peek
      -- a collection is added before its items, so that they can lead back to it
      let start := (props.extent.map (·.1)).getD t.start
      match t.kind with
      | .scalar text plain =>
        drop
        let tag ← scalarTag props.tag text plain
        addNode props.anchor ⟨.scalar tag text, start, t.stop⟩
      | .sequenceOpen =>
        drop
        let number ← addCollection props.anchor (.sequence []) start
        readFlowItems fuel number []
        return number
      | .mappingOpen =>
        drop
        let number ← addCollection props.anchor (.mapping []) start
        readFlowMembers fuel number []
        return number
      | kind =>
        match kind, place with
        | .blockEntry, .member =>
          let number ← addCollection props.anchor (.sequence []) start
          readEntries fuel number []
          return number
        | .blockSequenceStart, .block | .blockSequenceStart, .member =>
          drop
          let number ← addCollection props.anchor (.sequence []) start
          readItems fuel number []
          return number
        | .blockMappingStart, .block | .blockMappingStart, .member =>
          drop
          let number ← addCollection props.anchor (.mapping []) start
          readMembers fuel number []
          return number
        | _, _ =>
          match props.extent with
          | some (start, stop) =>
            let tag ← scalarTag props.tag "" true
            addNode props.anchor ⟨.scalar tag "", start, stop⟩
          | none => failAt (.expectedNode kind.name) t.start

/-- Reads the entries of a sequence up to the end of its indentation; `done` holds the items
before, last first. -/
def readItems : (fuel : Nat) → (number : Nat) → (done : List Nat) → ReadM Unit
  | 0, _, _ => failAt .tooLong ⟨0, 0, 0⟩
  | fuel + 1, number, done => do
    let t ← peek
    match t.kind with
    | .blockEntry =>
      drop
      let item ←
        match (← peek).kind with
        | .blockEntry | .blockEnd => addEmpty t.stop
        | _ => readNode fuel .block
      readItems fuel number (item :: done)
    | _ => finish number (.sequence done.reverse) (← takeBlockEnd)

/-- Reads the entries of a sequence without an indentation of its own; `done` holds the items before,
last first. -/
def readEntries : (fuel : Nat) → (number : Nat) → (done : List Nat) → ReadM Unit
  | 0, _, _ => failAt .tooLong ⟨0, 0, 0⟩
  | fuel + 1, number, done => do
    let t ← peek
    match t.kind with
    | .blockEntry =>
      drop
      let item ←
        match (← peek).kind with
        | .blockEntry | .key | .value | .blockEnd => addEmpty t.stop
        | _ => readNode fuel .block
      readEntries fuel number (item :: done)
    | _ => finish number (.sequence done.reverse) t.start

/-- Reads the members of a block mapping; `done` holds the members before, last first. -/
def readMembers : (fuel : Nat) → (number : Nat) → (done : List (Nat × Nat)) → ReadM Unit
  | 0, _, _ => failAt .tooLong ⟨0, 0, 0⟩
  | fuel + 1, number, done => do
    let t ← peek
    let key? ←
      match t.kind with
      | .key =>
        drop
        let next ← peek
        if leavesOutMember next.kind then some <$> addEmpty t.stop
        else some <$> readNode fuel .member
      | kind =>
        if ← startsValue kind then some <$> addEmpty t.start
        else pure none
    match key? with
    | some key =>
      let value ← readMemberValue fuel
      readMembers fuel number ((key, value) :: done)
    | none => finish number (.mapping done.reverse) (← takeBlockEnd)

/-- Reads the value of a member of a block mapping.  A value that is left out stands at the end of
the token that follows. -/
def readMemberValue : (fuel : Nat) → ReadM Nat
  | 0 => failAt .tooLong ⟨0, 0, 0⟩
  | fuel + 1 => do
    let t ← peek
    match t.kind with
    | .value =>
      drop
      let next ← peek
      if leavesOutMember next.kind then addEmpty next.stop
      else readNode fuel .member
    | _ => addEmpty t.start

/-- Reads the items of a sequence in brackets; `done` holds the items before, last first. -/
def readFlowItems : (fuel : Nat) → (number : Nat) → (done : List Nat) → ReadM Unit
  | 0, _, _ => failAt .tooLong ⟨0, 0, 0⟩
  | fuel + 1, number, done => do
    let t ← peek
    if !done.isEmpty && !closesSequence t.kind then takeComma ']'
    let t ← peek
    match t.kind with
    | .sequenceClose =>
      drop
      finish number (.sequence done.reverse) t.stop
    | .key =>
      let pair ← addCollection none (.mapping []) t.start
      drop
      let key ←
        if leavesOutFlow closesSequence (← peek).kind then addEmpty t.stop
        else readNode fuel .flow
      let value ← readFlowValue fuel closesSequence
      let after ← peek
      finish pair (.mapping [(key, value)]) after.start
      readFlowItems fuel number (pair :: done)
    | _ =>
      let item ← readNode fuel .flow
      readFlowItems fuel number (item :: done)

/-- Reads a value in brackets. -/
def readFlowValue : (fuel : Nat) → (close : TokenKind → Bool) → ReadM Nat
  | 0, _ => failAt .tooLong ⟨0, 0, 0⟩
  | fuel + 1, close => do
    let t ← peek
    match t.kind with
    | .value =>
      drop
      let next ← peek
      let leftOut :=
        match next.kind with
        | .flowEntry => true
        | k => close k
      if leftOut then addEmpty t.stop else readNode fuel .flow
    | _ => addEmpty t.start

/-- Reads the members of a mapping in brackets; `done` holds the members before, last first. -/
def readFlowMembers : (fuel : Nat) → (number : Nat) → (done : List (Nat × Nat)) → ReadM Unit
  | 0, _, _ => failAt .tooLong ⟨0, 0, 0⟩
  | fuel + 1, number, done => do
    let t ← peek
    if !done.isEmpty && !closesMapping t.kind then takeComma '\x7d'
    let t ← peek
    match t.kind with
    | .mappingClose =>
      drop
      finish number (.mapping done.reverse) t.stop
    | .key =>
      drop
      let key ←
        if leavesOutFlow closesMapping (← peek).kind then addEmpty t.stop
        else readNode fuel .flow
      let value ← readFlowValue fuel closesMapping
      readFlowMembers fuel number ((key, value) :: done)
    | kind =>
      if ← startsValue kind then
        let key ← addEmpty t.stop
        let value ← readFlowValue fuel closesMapping
        readFlowMembers fuel number ((key, value) :: done)
      else
        let key ← readNode fuel .flow
        let next ← peek
        let value ← addEmpty next.start
        readFlowMembers fuel number ((key, value) :: done)

end

/-! ## Documents -/

/-- The tag handles that need no declaration. -/
def knownHandles : Members String := [("!", "!"), ("!!", standardTag)]

/-- What is declared in front of a document. -/
structure Declarations where
  /-- The numbers of the version. -/
  version : Option (Nat × Nat)
  /-- The tag handles. -/
  handles : Members String

/-- Reads the directives in front of a document; `fuel` bounds their number, and `found` holds the
declarations before them. -/
def readDirectives : (fuel : Nat) → (found : Declarations) → ReadM Declarations
  | 0, found => return found
  | fuel + 1, found => do
    let t ← peek
    match t.kind with
    | .directive d =>
      drop
      match d with
      | .version major minor =>
        if found.version.isSome then failAt .duplicateVersion t.start
        if major ≠ 1 then failAt .incompatibleVersion t.start
        readDirectives fuel { found with version := some (major, minor) }
      | .handle handle expansion =>
        if Members.has handle found.handles then failAt (.duplicateHandle handle) t.start
        readDirectives fuel { found with handles := Members.set handle expansion found.handles }
      | .other => readDirectives fuel found
    | _ => return found

/-- Makes declarations hold: from here on, the text is scanned by the rules of their version. -/
def declare (found : Declarations) : ReadM Unit := do
  match found.version.getD (1, 2) with
  | (major, minor) =>
    match Version.ofNumbers? major minor with
    | none => throw (.fault .unsupportedVersion)
    | some version =>
      modify fun s =>
        { s with
          scan := { s.scan with version := version }
          handles := found.handles ++ knownHandles }

/-- Skips marks of the end of a document. -/
def skipEnds : (fuel : Nat) → ReadM Unit
  | 0 => return
  | fuel + 1 => do
    match (← peek).kind with
    | .documentEnd =>
      drop
      skipEnds fuel
    | _ => return

/-- Takes directives and the mark of the start of a document.  The answer is the place of the mark,
or nothing at the end of the text. -/
def startDocument (fuel : Nat) : ReadM (Option Mark) := do
  skipEnds fuel
  let first ← peek
  if let .textEnd := first.kind then return none
  declare (← readDirectives fuel ⟨none, []⟩)
  let t ← peek
  match t.kind with
  | .documentStart =>
    drop
    return some t.start
  | kind => failAt (.expectedDocumentStart kind.name) t.start

/-- Whether a document has to start with a mark here. -/
def startsMarked : TokenKind → Bool
  | .directive _ | .documentStart | .textEnd => true
  | _ => false

/-- Reads the node after the mark of the start of a document. -/
def readContent (fuel : Nat) : ReadM Nat := do
  let t ← peek
  match t.kind with
  | .directive _ | .documentStart | .documentEnd | .textEnd => addEmpty t.start
  | _ => readNode fuel .block

/-- Takes the mark of the end of a document, if there is one.  Nothing may follow it on its
line. -/
def endDocument : ReadM Bool := do
  let t ← peek
  match t.kind with
  | .documentEnd =>
    drop
    let next ← peek
    match next.kind with
    | .textEnd => return true
    | kind =>
      if t.stop.line = next.start.line then failAt (.contentAfterEnd kind.name) next.start
      return true
  | _ => return false

/-- The place where another document starts after the first one, if there is one; `marked` says
that the first one ended with a mark. -/
def nextDocument (fuel : Nat) (marked : Bool) : ReadM (Option Mark) := do
  if marked && (← version) ≠ .v11 then
    let t ← peek
    if !startsMarked t.kind then return some t.start
  startDocument fuel

/-- Reads the only document of a text; a text without one has no node. -/
def readText (fuel : Nat) : ReadM (Option Nat) := do
  drop
  let first ← peek
  let node? ←
    if startsMarked first.kind then
      match ← startDocument fuel with
      | none => pure none
      | some _ => some <$> readContent fuel
    else
      modify ({ · with handles := knownHandles })
      some <$> readNode fuel .block
  match node? with
  | none => return none
  | some node =>
    let marked ← endDocument
    match ← nextDocument fuel marked with
    | some mark => failAt .secondDocument mark
    | none => return some node

end ReadM

/-! ## Whole texts -/

/-- Characters that may stand in a text. -/
def isAcceptable (c : Char) : Bool :=
  let n := c.toNat
  n = 0x09 || n = 0x0A || n = 0x0D || (0x20 ≤ n && n ≤ 0x7E) || n = 0x85 ||
    (0xA0 ≤ n && n ≤ 0xFFFD) || 0x10000 ≤ n

/-- The first character that may not stand in a text, and its offset. -/
def firstUnacceptable (offset : Nat) : List Char → Option (Char × Nat)
  | [] => none
  | c :: r => if isAcceptable c then firstUnacceptable (offset + 1) r else some (c, offset)

/-- Reads the document of a text, when a version holds before it: the nodes with the number of the
root, and the version that holds after the text. -/
def readGraph (version : Version) (text : List Char) :
    Except Failure (Graph × Option Nat) × Version :=
  match firstUnacceptable 0 text with
  | some (c, offset) => (.error (.unacceptable c offset), version)
  | none =>
    -- a character makes at most a few tokens, and a token takes at most a few calls
    let fuel := 32 * text.length + 64
    let (answer, state) := (ReadM.readText fuel).run ⟨.start version text, [], #[], []⟩
    (answer.map fun root => (state.nodes, root), state.scan.version)

end DesignTokens.Yaml
