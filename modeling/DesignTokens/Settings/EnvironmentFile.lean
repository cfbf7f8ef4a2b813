import DesignTokens.Data
import DesignTokens.Text.Classes
import DesignTokens.Text.Parts

/-!
# Environment files

A file of settings has a line `NAME=value` for each variable.  Values may stand in quotation marks,
and values outside of them end at a comment.  `${NAME}` stands for the value of a variable that is
known already, and `${NAME:-text}` for the text when there is none.
-/

namespace DesignTokens.EnvironmentFile

open Text

/-! ## Parts of lines -/

/-- A blank inside a line. -/
def isInlineBlank (c : Char) : Bool := isBlank c && c ≠ '\n' && c ≠ '\r'

/-- Skips the word in front of a name that marks it for other programs. -/
def skipExport (s : List Char) : List Char :=
  let word := "export".toList
  if word.isPrefixOf s then
    match s.drop word.length with
    | c :: r => if isInlineBlank c then r.dropWhile isInlineBlank else s
    | [] => s
  else s

/-- Whether a character may be part of a name. -/
def isNameChar (c : Char) : Bool := c ≠ '=' && c ≠ '#' && !isBlank c

/-- A text up to a closing mark, and the rest.  A backslash keeps the character after it from
closing. -/
def upToMark (mark : Char) : List Char → Option (List Char × List Char)
  | [] => none
  | '\\' :: c :: r => (upToMark mark r).map fun (inside, rest) => ('\\' :: c :: inside, rest)
  | c :: r =>
    if c = mark then some ([], r)
    else (upToMark mark r).map fun (inside, rest) => (c :: inside, rest)

/-- The characters that a backslash and a letter stand for between double quotation marks. -/
def escapes : List (Char × Char) :=
  [('\\', '\\'), (Char.ofNat 39, Char.ofNat 39), ('"', '"'), ('a', Char.ofNat 7),
   ('b', Char.ofNat 8), ('f', Char.ofNat 12), ('n', '\n'), ('r', '\r'), ('t', '\t'),
   ('v', Char.ofNat 11)]

/-- The characters that a backslash and a character stand for between single quotation marks. -/
def plainEscapes : List (Char × Char) := escapes.take 2

/-- A text with escapes replaced by what they stand for; other backslashes stay. -/
def unescape (table : List (Char × Char)) : List Char → List Char
  | [] => []
  | [c] => [c]
  | c :: d :: r =>
    match if c = '\\' then table.find? (·.1 = d) else none with
    | some (_, e) => e :: unescape table r
    | none => c :: unescape table (d :: r)

/-- A text up to a comment: a number sign with blanks before it. -/
def upToComment (s : List Char) : List Char :=
  match s with
  | [] => []
  | c :: r =>
    if isBlank c && (r.dropWhile isBlank).head? = some '#' then [] else c :: upToComment r

/-! ## Lines -/

/-- The rest of a text where reading it failed, or what was read and the rest. -/
abbrev Result (α : Type) := Except (List Char) (α × List Char)

/-- The name at the start of a line.  A comment has no name. -/
def readName (s : List Char) : Result (Option String) :=
  match s with
  | '#' :: _ => .ok (none, s)
  | c :: r =>
    if c = Char.ofNat 39 then
      let name := r.takeWhile (· ≠ c)
      match r.dropWhile (· ≠ c) with
      | _ :: rest => if name.isEmpty then .error s else .ok (some (String.ofList name), rest)
      | [] => .error s
    else
      let name := s.takeWhile isNameChar
      if name.isEmpty then .error s
      else .ok (some (String.ofList name), s.dropWhile isNameChar)
  | [] => .error s

/-- The value after the equals sign.  A comment right after it needs a blank before it as well. -/
def readValue (s : List Char) : Result String :=
  let start := s.dropWhile isInlineBlank
  let quoted (mark : Char) (table : List (Char × Char)) (r : List Char) : Result String :=
    match upToMark mark r with
    | some (inside, rest) => .ok (String.ofList (unescape table inside), rest)
    | none => .error start
  match start with
  | '"' :: r => quoted '"' escapes r
  | c :: r =>
    if c = Char.ofNat 39 then quoted c plainEscapes r
    else
      let line := s.takeWhile (· ≠ '\n')
      .ok (String.ofList (trim (upToComment line)), s.dropWhile (· ≠ '\n'))
  | [] => .ok ("", [])

/-- What follows the equals sign when there is one. -/
def readAssigned (s : List Char) : Result (Option String) :=
  match s with
  | '=' :: r => (readValue r).map fun (value, rest) => (some value, rest)
  | _ => .ok (none, s)

/-- The text after a comment, when one stands here. -/
def skipComment (s : List Char) : List Char :=
  match s.dropWhile isInlineBlank with
  | '#' :: r => r.dropWhile (· ≠ '\n')
  | _ => s

/-- The end of a line. -/
def readEnd (s : List Char) : Result Unit :=
  match s.dropWhile isInlineBlank with
  | [] => .ok ((), [])
  | '\n' :: r => .ok ((), r)
  | _ => .error s

/-- The name and the value on a line; a comment has no name, and a name alone no value. -/
def readLine (s : List Char) :
    Except (List Char) (Option (String × Option String) × List Char) := do
  let (name, s) ← readName (skipExport s)
  let (value, s) ← readAssigned (s.dropWhile isInlineBlank)
  let ((), s) ← readEnd (skipComment s)
  return (name.map fun n => (n, value), s)

/-- The names and the values of a text.  The rest of a line that cannot be read is left out; `fuel`
bounds the number of lines. -/
def linesWithin : (fuel : Nat) → List Char → List (String × Option String)
  | 0, _ => []
  | fuel + 1, s =>
    match s.dropWhile isBlank with
    | [] => []
    | s =>
      match readLine s with
      | .ok (line, rest) => line.toList ++ linesWithin fuel rest
      | .error rest => linesWithin fuel ((rest.dropWhile (· ≠ '\n')).drop 1)

/-! ## References to variables -/

/-- The name and the default of a reference to a variable after its opening brace. -/
def reference? (s : List Char) : Option (List Char × Option (List Char) × List Char) :=
  let isInName (c : Char) : Bool := c ≠ '\x7d' && c ≠ ':'
  let name := s.takeWhile isInName
  match s.dropWhile isInName with
  | '\x7d' :: r => some (name, none, r)
  | ':' :: '-' :: r =>
    match r.dropWhile (· ≠ '\x7d') with
    | _ :: rest => some (name, some (r.takeWhile (· ≠ '\x7d')), rest)
    | [] => none
  | _ => none

/-- A text with the values of variables in place of references; `fuel` bounds its length. -/
def expandWithin (known : String → Option (Option String)) : (fuel : Nat) → List Char → List Char
  | 0, _ => []
  | _ + 1, [] => []
  | fuel + 1, c :: r =>
    let found :=
      match c, r with
      | '$', '\x7b' :: t => reference? t
      | _, _ => none
    match found with
    | some (name, fallback, rest) =>
      let value :=
        match known (String.ofList name) with
        | some v => (v.getD "").toList
        | none => fallback.getD []
      value ++ expandWithin known fuel rest
    | none => c :: expandWithin known fuel r

/-- A value with the values of variables in place of references. -/
def expand (known : String → Option (Option String)) (value : String) : String :=
  String.ofList (expandWithin known (value.length + 1) value.toList)

/-- A text without a byte order mark at its start. -/
def withoutMark : List Char → List Char
  | c :: r => if c.toNat = 0xFEFF then r else c :: r
  | [] => []

/-- The variables of a file.  References are to variables of the file that come before, or else of
the environment.  A name alone is a variable without a value. -/
def bindings (environment : Members String) (content : String) : Members (Option String) :=
  let s := Text.unifyNewlines (withoutMark content.toList)
  -- a variable of the file hides the variable of the environment from the lines below it
  (linesWithin (s.length + 1) s).foldl (fun done (name, value) =>
    let known (n : String) : Option (Option String) :=
      match Members.get? n done with
      | some v => some v
      | none => (Members.get? n environment).map some
    Members.set name (value.map (expand known)) done) []

end DesignTokens.EnvironmentFile
