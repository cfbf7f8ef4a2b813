import DesignTokens.Yaml.Lexeme.Scalar

/-!
# Scanning a text

A scan reads one lexeme after the other and puts its tokens into a queue.  A colon may turn out to
make a key of a token that is still in the queue, so a token is released only when nothing can come
before it any more.  A scan goes on only when a token is asked for: what a text says in front of a
document decides by which rules the document itself is scanned.
-/

namespace DesignTokens.Yaml

/-! ## The state of a scan -/

/-- A place where a key may have started that is not marked as one. -/
structure KeyCandidate where
  /-- The number of the token that would be the key. -/
  number : Nat
  /-- Whether only a key can stand there. -/
  required : Bool
  /-- Where the key would start. -/
  mark : Mark

/-- Brackets that are open. -/
inductive Bracket where
  /-- A square bracket. -/
  | square
  /-- A curly bracket. -/
  | curly
deriving DecidableEq

/-- The state of a scan. -/
structure Scan where
  /-- The text that is left. -/
  cursor : Cursor
  /-- The version that holds from here on. -/
  version : Version
  /-- The open brackets, innermost first. -/
  brackets : List Bracket
  /-- The column of the innermost block collection, -1 outside all of them. -/
  indent : Int
  /-- The columns of the collections around it. -/
  outer : List Int
  /-- Whether a key without a mark may start here. -/
  keyAllowed : Bool
  /-- The places of possible keys, each with the number of brackets around it. -/
  candidates : List (Nat × KeyCandidate)
  /-- The tokens that are not released yet. -/
  queue : List Token
  /-- The number of tokens released. -/
  released : Nat
  /-- Whether the end of the text is in the queue. -/
  done : Bool

/-- A step of a scan, which changes the state also when it fails. -/
abbrev ScanM := ExceptT Failure (StateM Scan)

namespace Scan

/-- The state before a text.  Its first token marks the start of the text. -/
def start (version : Version) (text : List Char) : Scan where
  cursor := .start text
  version := version
  brackets := []
  indent := -1
  outer := []
  keyAllowed := true
  candidates := []
  queue := [⟨.textStart, (Cursor.start text).mark, (Cursor.start text).mark⟩]
  released := 0
  done := false

/-- The number of open brackets. -/
def level (s : Scan) : Nat := s.brackets.length

/-- Whether a bracket is open. -/
def inFlow (s : Scan) : Bool := !s.brackets.isEmpty

/-- The state with a token at the end of the queue. -/
def push (kind : TokenKind) (start stop : Mark) (s : Scan) : Scan :=
  { s with queue := s.queue ++ [⟨kind, start, stop⟩] }

/-- The state with a token in the queue before the token with a number. -/
def insert (number : Nat) (kind : TokenKind) (mark : Mark) (s : Scan) : Scan :=
  let n := number - s.released
  { s with queue := s.queue.take n ++ ⟨kind, mark, mark⟩ :: s.queue.drop n }

/-- The place of a possible key at the current number of brackets. -/
def candidate? (s : Scan) : Option KeyCandidate :=
  (s.candidates.find? (·.1 = s.level)).map (·.2)

/-- The state without the possible key at the current number of brackets. -/
def dropCandidate (s : Scan) : Scan :=
  { s with candidates := s.candidates.filter (·.1 ≠ s.level) }

/-- The state inside a block collection that starts at a column; nothing changes when the innermost
collection starts at that column or after it. -/
def openAt (column : Nat) (s : Scan) : Scan :=
  if s.indent < column then { s with indent := column, outer := s.indent :: s.outer } else s

/-- Closes the block collections that start after a column, outermost last. -/
def closeAfter (column : Int) : (open_ : List Int) → Scan → Scan
  | [], s => s
  | before :: rest, s =>
    if column < s.indent then
      let mark := s.cursor.mark
      closeAfter column rest { s.push .blockEnd mark mark with indent := before, outer := rest }
    else s

/-- Closes the block collections that start after a column; brackets keep all of them open. -/
def unwind (column : Int) (s : Scan) : Scan :=
  if s.inFlow then s else closeAfter column s.outer s

end Scan

/-! ## Possible keys -/

/-- The most characters that a key without a mark may have. -/
def maxKeyLength : Nat := 1024

/-- Whether a possible key can no longer become one: a key and its colon stand on one line. -/
def KeyCandidate.isStale (k : KeyCandidate) (c : Cursor) : Bool :=
  k.mark.line ≠ c.line || maxKeyLength < c.offset - k.mark.offset

namespace ScanM

/-- Fails with a problem at the cursor. -/
def failHere {α : Type} (problem : Problem) : ScanM α := do
  let s ← get
  throw (.problem problem s.cursor.mark)

/-- Takes the answer of a reader and moves the cursor to the place after it. -/
def take {α : Type} (answer : Lexeme.Result α) : ScanM α :=
  match answer with
  | .ok (a, c) => do
    modify ({ · with cursor := c })
    return a
  | .error e => throw e

/-- Forgets the places that can no longer become keys. -/
def forgetStale : ScanM Unit := do
  let s ← get
  let (stale, fresh) := s.candidates.partition (·.2.isStale s.cursor)
  if stale.any (·.2.required) then failHere .missingColon
  set { s with candidates := fresh }

/-- Forgets the possible key at the current number of brackets. -/
def forgetCandidate : ScanM Unit := do
  let s ← get
  if (s.candidate?.map (·.required)).getD false then failHere .missingColon
  set s.dropCandidate

/-- Remembers the cursor as the place of a possible key, where one is allowed. -/
def saveCandidate : ScanM Unit := do
  let s ← get
  if s.keyAllowed then
    forgetCandidate
    -- at the column of a block mapping nothing but a key can stand
    let key : KeyCandidate :=
      { number := s.released + s.queue.length
        required := !s.inFlow && s.indent = s.cursor.column
        mark := s.cursor.mark }
    modify fun s => { s with candidates := s.candidates ++ [(s.level, key)] }

/-- Says whether a key without a mark may start from now on. -/
def allowKey (allowed : Bool) : ScanM Unit :=
  modify ({ · with keyAllowed := allowed })

/-- Puts a token of the next `n` characters into the queue. -/
def symbol (kind : TokenKind) (n : Nat) : ScanM Unit :=
  modify fun s =>
    let c := s.cursor.advance n
    { s.push kind s.cursor.mark c.mark with cursor := c }

/-- Puts a token into the queue that starts at a mark and ends at the cursor. -/
def finish (kind : TokenKind) (start : Mark) : ScanM Unit :=
  modify fun s => s.push kind start s.cursor.mark

/-- Closes all block collections and allows no key: what follows belongs to no document. -/
def leaveDocument : ScanM Unit := do
  modify (·.unwind (-1))
  forgetCandidate
  allowKey false

/-- Opens a block collection at a column with a token at the cursor, unless one is open there. -/
def openBlock (kind : TokenKind) : ScanM Unit :=
  modify fun s =>
    if s.indent < s.cursor.column then
      (s.openAt s.cursor.column).push kind s.cursor.mark s.cursor.mark
    else s

/-! ## Blanks and comments -/

/-- The place of the next token, and whether a line break stands before it. -/
def skipToToken (inFlow : Bool) : (fuel : Nat) → (broke : Bool) → Cursor → Bool × Cursor
  | 0, broke, c => (broke, c)
  | fuel + 1, broke, c =>
    let c := c.skipWhile fun ch => ch = ' ' || (inFlow && ch = '\t')
    let c := if c.sees '#' then c.skipLine else c
    match c.lineBreak? with
    | some (_, d) => skipToToken inFlow fuel true d
    | none => (broke, c)

/-- Moves the cursor to the next token. -/
def gotoToken : ScanM Unit := do
  let s ← get
  let c := s.cursor
  let c := if c.offset = 0 && c.sees (Char.ofNat 0xFEFF) then c.step else c
  let (broke, c) := skipToToken s.inFlow (c.left + 1) false c
  set { s with cursor := c, keyAllowed := s.keyAllowed || (broke && !s.inFlow) }

/-! ## Tokens outside collections -/

/-- Reads the end of the text. -/
def readEnd : ScanM Unit := do
  leaveDocument
  modify ({ · with candidates := [], done := true })
  symbol .textEnd 0

/-- Reads a directive and the rest of its line. -/
def readDirective : ScanM Unit := do
  leaveDocument
  let s ← get
  let start := s.cursor.mark
  let directive ← take (Lexeme.directive s.version s.cursor)
  let s ← get
  let stop := s.cursor.mark
  let c ← (Lexeme.restOfLine s.cursor : Except Failure Cursor)
  set { s.push (.directive directive) start stop with cursor := c }

/-- Reads a mark between documents. -/
def readSeparator (kind : TokenKind) : ScanM Unit := do
  leaveDocument
  symbol kind 3

/-! ## Tokens of collections -/

def readOpen (bracket : Bracket) (kind : TokenKind) : ScanM Unit := do
  saveCandidate
  modify fun s => { s with brackets := bracket :: s.brackets }
  allowKey true
  symbol kind 1

/-- Reads a closing bracket, which need not fit the opening one. -/
def readClose (kind : TokenKind) : ScanM Unit := do
  forgetCandidate
  modify fun s => { s with brackets := s.brackets.tail }
  allowKey false
  symbol kind 1

def readComma : ScanM Unit := do
  allowKey true
  forgetCandidate
  symbol .flowEntry 1

/-- Opens a block collection for an entry or a key, where one may start. -/
def enterBlock (misplaced : Problem) (kind : TokenKind) : ScanM Unit := do
  let s ← get
  if !s.inFlow then
    if !s.keyAllowed then failHere misplaced
    openBlock kind

/-- Reads the hyphen of an entry. -/
def readEntry : ScanM Unit := do
  enterBlock .misplacedEntry .blockSequenceStart
  allowKey true
  forgetCandidate
  symbol .blockEntry 1

/-- Reads the mark of a key. -/
def readKey : ScanM Unit := do
  enterBlock .misplacedKey .blockMappingStart
  allowKey (!(← get).inFlow)
  forgetCandidate
  symbol .key 1

/-- Makes a key of the token at a place: it goes behind the mark of a key, and of a mapping when
the key is the first one of it. -/
def makeKey (key : KeyCandidate) : ScanM Unit := do
  modify fun s => s.dropCandidate.insert key.number .key key.mark
  -- the mark of the mapping comes before the mark of its first key
  modify fun s =>
    if !s.inFlow && decide (s.indent < (key.mark.column : Int)) then
      (s.openAt key.mark.column).insert key.number .blockMappingStart key.mark
    else s
  allowKey false

/-- Reads the colon of a value. -/
def readValue : ScanM Unit := do
  match (← get).candidate? with
  | some key => makeKey key
  | none =>
    enterBlock .misplacedValue .blockMappingStart
    allowKey (!(← get).inFlow)
    forgetCandidate
  symbol .value 1

/-! ## Properties and scalars -/

/-- Reads a lexeme that may be a key. -/
def readWord (answer : Cursor → Version → Lexeme.Result TokenKind) : ScanM Unit := do
  saveCandidate
  allowKey false
  let s ← get
  let kind ← take (answer s.cursor s.version)
  finish kind s.cursor.mark

/-- The setting of a scalar at the cursor. -/
def setting (s : Scan) : Lexeme.Setting := ⟨s.version, s.inFlow, s.indent⟩

/-- Reads a plain scalar; after a line break a key may start. -/
def readPlain : ScanM Unit := do
  saveCandidate
  modify fun s =>
    let (scalar, c) := Lexeme.plainScalar (setting s) s.cursor
    { s.push (.scalar (String.ofList scalar.text) true) s.cursor.mark scalar.stop with
      cursor := c
      keyAllowed := scalar.brokeLine }

/-- Reads a block scalar. -/
def readBlock (folded : Bool) : ScanM Unit := do
  allowKey true
  forgetCandidate
  let s ← get
  let (text, stop) ← take (Lexeme.blockScalar folded (setting s) s.cursor)
  modify (·.push (.scalar text false) s.cursor.mark stop)

/-! ## One lexeme -/

/-- Whether the colon at the cursor marks a value. -/
def marksValue (s : Scan) : Bool :=
  let ended := endsWord (s.cursor.peekAt 1)
  match s.brackets with
  | [] => ended
  | bracket :: _ =>
    if s.version = .v11 then true
    else if bracket = .square then ended
    else
      -- after a colon that marks a value, another one next to it belongs to a scalar
      match s.queue.getLast? with
      | some ⟨.value, _, _⟩ => ended
      | _ => true

/-- Whether a plain scalar starts at the cursor. -/
def startsPlain (s : Scan) : Bool :=
  let next := s.cursor.peekAt 1
  match s.cursor.peek with
  | none => false
  | some ch =>
    let special := endsMark (some ch) || ch = '\t' || ch = Text.apostrophe ||
      "-?:,[]\x7b\x7d#&*!|>\"%@\x60".toList.contains ch
    !special ||
      (s.version ≠ .v11 && ch = ':' && s.inFlow && next ≠ some ' ' && next ≠ some '\t') ||
      (!endsWord next && (ch = '-' || (!s.inFlow && (ch = '?' || ch = ':'))))

/-- Reads the lexeme that starts with `ch` at the cursor. -/
def readLexeme (s : Scan) (ch : Char) : ScanM Unit :=
  let atLineStart := s.cursor.column = 0
  let ended := endsWord (s.cursor.peekAt 1)
  if ch = '%' && atLineStart then readDirective
  else if atLineStart && s.cursor.atTriple '-' then readSeparator .documentStart
  else if atLineStart && s.cursor.atTriple '.' then readSeparator .documentEnd
  else if ch = '[' then readOpen .square .sequenceOpen
  else if ch = '\x7b' then readOpen .curly .mappingOpen
  else if ch = ']' then readClose .sequenceClose
  else if ch = '\x7d' then readClose .mappingClose
  else if ch = ',' then readComma
  else if ch = '-' && ended then readEntry
  else if ch = '?' && (s.inFlow || ended) then readKey
  else if ch = ':' && marksValue s then readValue
  else if ch = '*' then
    readWord fun c _ => (Lexeme.anchorName c).map fun (name, c) => (.alias name, c)
  else if ch = '&' then
    readWord fun c _ => (Lexeme.anchorName c).map fun (name, c) => (.anchor name, c)
  else if ch = '!' then
    readWord fun c version => (Lexeme.tag version c).map fun (tag, c) => (.tag tag, c)
  else if (ch = '|' || ch = '>') && !s.inFlow then readBlock (ch = '>')
  else if ch = '"' || ch = Text.apostrophe then
    readWord fun c _ =>
      (Lexeme.quotedScalar (ch = '"') c).map fun (text, c) => (.scalar text false, c)
  else if startsPlain s then readPlain
  else failHere (.cannotStart (some ch))

/-- Reads the next lexeme. -/
def readNext : ScanM Unit := do
  gotoToken
  -- what stands here decides which keys are lost and which collections end
  forgetStale
  modify fun s => s.unwind s.cursor.column
  let s ← get
  match s.cursor.peek with
  | none => readEnd
  | some ch => readLexeme s ch

end ScanM

/-! ## Releasing tokens -/

/-- Whether the first token of the queue may still get something in front of it. -/
def Scan.mayBecomeKey (s : Scan) : Bool :=
  s.candidates.any (·.2.number = s.released)

namespace ScanM

/-- Scans until the queue has a token that nothing can come before any more. -/
def settle : (fuel : Nat) → ScanM Unit
  | 0 => failHere .tooLong
  | fuel + 1 => do
    if (← get).done then return
    forgetStale
    let s ← get
    if s.queue.isEmpty || s.mayBecomeKey then
      readNext
      settle fuel

/-- The next token.  Every lexeme takes a character, and then there is the end of the text. -/
def peek : ScanM Token := do
  settle ((← get).cursor.left + 2)
  match (← get).queue with
  | t :: _ => return t
  | [] => failHere .tooLong

/-- Releases the next token. -/
def release : ScanM Unit :=
  modify fun s => { s with queue := s.queue.tail, released := s.released + 1 }

end ScanM

end DesignTokens.Yaml
