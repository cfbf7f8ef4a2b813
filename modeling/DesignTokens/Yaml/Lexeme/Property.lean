import DesignTokens.Number.Numeral
import DesignTokens.Yaml.Problem
import DesignTokens.Yaml.Token

/-!
# Directives, anchors and tags

Readers for the lexemes that are not scalars.  A reader takes the cursor at the start of a lexeme
and gives its content with the cursor after it.
-/

namespace DesignTokens.Yaml.Lexeme

/-- A reader's answer: what it read and the place after it, or why it could not. -/
abbrev Result (α : Type) := Except Failure (α × Cursor)

/-- Fails with a problem at a place. -/
def fail {α : Type} (problem : Problem) (c : Cursor) : Except Failure α :=
  .error (.problem problem c.mark)

/-! ## Classes of characters -/

/-- Letters and digits of ASCII, the hyphen and the underscore. -/
def isHandleChar (c : Char) : Bool :=
  c.isAlphanum || c = '-' || c = '_'

/-- Characters of the name of a directive. -/
def isDirectiveChar (c : Char) : Bool :=
  isHandleChar c || c = ':' || c = '.'

/-- Characters of the name of an anchor. -/
def isAnchorChar (c : Char) : Bool :=
  let n := c.toNat
  !",[]\x7b\x7d".toList.contains c &&
    ((0x21 ≤ n && n ≤ 0x7E) || (0xA0 ≤ n && n ≤ 0xD7FF) ||
      (0xE000 ≤ n && n ≤ 0xFFFD && n ≠ 0xFEFF) || 0x10000 ≤ n)

/-- Whether the name of an anchor may end here. -/
def endsAnchor : Option Char → Bool
  | none => true
  | some c => c = '\t' || endsMark (some c) || "?:,[]\x7b\x7d%@\x60".toList.contains c

/-- Characters of a tag; a number sign only after version 1.1. -/
def isTagChar (version : Version) (c : Char) : Bool :=
  c.isAlphanum || c = Text.apostrophe || "-;/?:@&=+$,_.!~*()[]%".toList.contains c ||
    (version ≠ .v11 && c = '#')

/-- Hexadecimal digits. -/
def isHexDigit (c : Char) : Bool :=
  c.isDigit || ('a' ≤ c && c ≤ 'f') || ('A' ≤ c && c ≤ 'F')

/-- The number that hexadecimal digits stand for. -/
def hexNumber (digits : List Char) : Nat :=
  digits.foldl (fun n c => n * 16 + ((Numeral.digitIn? 16 c).getD 0)) 0

/-! ## Parts of lexemes -/

/-- The characters at the start that satisfy `p`, and the place after them. -/
def takeRun (p : Char → Bool) (c : Cursor) : List Char × Cursor :=
  (c.rest.takeWhile p, c.skipWhile p)

/-- The place after the blanks. -/
def skipBlanks (c : Cursor) : Cursor :=
  c.skipWhile (· = ' ')

/-- Takes blanks, a comment and the end of the line. -/
def restOfLine (c : Cursor) : Except Failure Cursor :=
  let c := skipBlanks c
  let c := if c.sees '#' then c.skipLine else c
  if endsLine c.peek then .ok c.skipBreak else fail (.expectedLineEnd c.peek) c

/-! ## Anchors and aliases -/

/-- The name after an ampersand or an asterisk. -/
def anchorName (c : Cursor) : Result String :=
  let (name, d) := takeRun isAnchorChar c.step
  if name.isEmpty then fail (.expectedName d.peek) d
  else if endsAnchor d.peek then .ok (String.ofList name, d)
  else fail (.expectedName d.peek) d

/-! ## Tags -/

/-- Reads escapes with a percent sign, which together encode a text; `bytes` holds what was read
before, last first, and a failure to decode has its place at `first`. -/
def tagEscapes (first : Cursor) : (fuel : Nat) → (bytes : List Nat) → Cursor → Result (List Char)
  | 0, _, c => .ok ([], c)
  | fuel + 1, bytes, c =>
    match c.rest with
    | '%' :: a :: b :: _ =>
      if !isHexDigit a then fail (.expectedUriEscape (some a)) c.step
      else if !isHexDigit b then fail (.expectedUriEscape (some b)) c.step
      else tagEscapes first fuel (hexNumber [a, b] :: bytes) (c.advance 3)
    | '%' :: r =>
      match r with
      | a :: _ =>
        fail (.expectedUriEscape (if isHexDigit a then none else some a)) c.step
      | [] => fail (.expectedUriEscape none) c.step
    | _ =>
      match Text.decodeUtf8 bytes.reverse with
      | .ok text => .ok (text, c)
      | .error e => fail (.undecodableUri e) first

/-- Reads the characters of a tag and its escapes; `done` holds what was read before, last
first. -/
def tagChars (version : Version) : (fuel : Nat) → (done : List Char) → Cursor →
    Result (List Char)
  | 0, done, c => .ok (done.reverse, c)
  | fuel + 1, done, c =>
    if c.sees '%' then
      match tagEscapes c (c.left + 1) [] c with
      | .ok (text, d) => tagChars version fuel (text.reverse ++ done) d
      | .error e => .error e
    else
      let (run, d) := takeRun (fun ch => isTagChar version ch && ch ≠ '%') c
      if run.isEmpty then .ok (done.reverse, c)
      else tagChars version fuel (run.reverse ++ done) d

/-- Reads the text of a tag, which has at least one character. -/
def tagText (version : Version) (c : Cursor) : Result String :=
  match tagChars version (c.left + 1) [] c with
  | .error e => .error e
  | .ok ([], d) => fail (.expectedUri d.peek) d
  | .ok (text, d) => .ok (String.ofList text, d)

/-- Reads a handle: an exclamation mark, or characters between two of them. -/
def tagHandle (c : Cursor) : Result String :=
  if !c.sees '!' then fail (.expectedHandleMark c.peek) c
  else if c.step.sees ' ' then .ok ("!", c.step)
  else
    let (name, d) := takeRun isHandleChar c.step
    if d.sees '!' then .ok (String.ofList ('!' :: name ++ ['!']), d.step)
    else fail (.expectedHandleMark d.peek) d

/-- Whether another exclamation mark follows on the same word. -/
def hasSecondMark (s : List Char) : Bool :=
  (s.takeWhile fun c => !endsMark (some c)).contains '!'

/-- Reads a tag from its exclamation mark on. -/
def tag (version : Version) (c : Cursor) : Result TagText :=
  -- of two exclamation marks next to each other the second one may start another handle
  let (short, c) := if c.peekAt 1 = some '!' then ("!!", c.step) else ("!", c)
  let answer : Result TagText :=
    if c.peekAt 1 = some '<' then
      match tagText version (c.advance 2) with
      | .error e => .error e
      | .ok (text, d) =>
        if d.sees '>' then .ok (.verbatim text, d.step) else fail (.expectedTagEnd d.peek) d
    else if endsWord (c.peekAt 1) then .ok (.verbatim short, c.step)
    else
      let handle : Result String :=
        if hasSecondMark (c.rest.drop 1) then tagHandle c else .ok (short, c.step)
      match handle with
      | .error e => .error e
      | .ok (h, d) =>
        match tagText version d with
        | .error e => .error e
        | .ok (text, d) => .ok (.shorthand h text, d)
  match answer with
  | .error e => .error e
  | .ok (t, d) => if endsMark d.peek then .ok (t, d) else fail (.expectedBlank d.peek) d

/-- Replaces each percent sign that the escapes of a text left, and the two characters after it, by
the character of the hexadecimal number that they are; at the end of the text one is enough. -/
def unescapeSuffix : List Char → Option (List Char)
  | [] => some []
  | c :: r =>
    if c ≠ '%' then (unescapeSuffix r).map (c :: ·)
    else
      match r with
      | [] => none
      | [a] => do return [← charOf [a]]
      | a :: b :: r => do return (← charOf [a, b]) :: (← unescapeSuffix r)
where
  /-- The character of a number. -/
  charOf (numeral : List Char) : Option Char :=
    match Numeral.int? 16 numeral with
    | some (.ofNat n) => some (Char.ofNat n)
    | _ => none

/-! ## Directives -/

/-- Reads the name of a directive. -/
def directiveName (c : Cursor) : Result (List Char) :=
  let (name, d) := takeRun isDirectiveChar c
  if name.isEmpty then fail (.expectedName d.peek) d
  else if endsMark d.peek then .ok (name, d)
  else fail (.expectedName d.peek) d

/-- Reads a number of a version. -/
def versionNumber (c : Cursor) : Result Nat :=
  let (digits, d) := takeRun Char.isDigit c
  if digits.isEmpty then fail (.expectedDigit c.peek) c
  else
    match Numeral.int? 10 digits with
    | some n => .ok (n.toNat, d)
    | none => .error (.fault .unreadable)

/-- Reads two numbers with a point between them. -/
def versionNumbers (c : Cursor) : Result (Nat × Nat) :=
  match versionNumber (skipBlanks c) with
  | .error e => .error e
  | .ok (major, c) =>
    if !c.sees '.' then fail (.expectedDigitOrPoint c.peek) c
    else
      match versionNumber c.step with
      | .error e => .error e
      | .ok (minor, c) =>
        if endsMark c.peek then .ok ((major, minor), c)
        else fail (.expectedDigitOrPoint c.peek) c

/-- Reads a handle and the text that it stands for. -/
def handleDeclaration (version : Version) (c : Cursor) : Result Directive :=
  match tagHandle (skipBlanks c) with
  | .error e => .error e
  | .ok (handle, c) =>
    if !c.sees ' ' then fail (.expectedBlank c.peek) c
    else
      match tagText version (skipBlanks c) with
      | .error e => .error e
      | .ok (text, c) =>
        if endsMark c.peek then .ok (.handle handle text, c) else fail (.expectedBlank c.peek) c

/-- Reads a directive from its percent sign on, without the rest of its line. -/
def directive (version : Version) (c : Cursor) : Result Directive :=
  match directiveName c.step with
  | .error e => .error e
  | .ok (name, d) =>
    if name = "YAML".toList then
      match versionNumbers d with
      | .error e => .error e
      | .ok ((major, minor), d) => .ok (.version major minor, d)
    else if name = "TAG".toList then handleDeclaration version d
    else .ok (.other, d.skipLine)

end DesignTokens.Yaml.Lexeme
