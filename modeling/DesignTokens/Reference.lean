import DesignTokens.Text.Parts

/-!
# Paths and references

A path is the names from the top of a document down to a token or a group, with points between
them.  A reference to a token is written `{path.to.token}`, or `{path.to.token#mode}` for one mode
of the token.
-/

namespace DesignTokens

/-! ## Paths -/

namespace Path

/-- The names on a path. -/
def names (path : String) : List String :=
  (Text.parts '.' path.toList).map String.ofList

/-- The path of a member of a group, or of the top of a document. -/
def below (parent : Option String) (name : String) : String :=
  match parent with
  | some path => path ++ "." ++ name
  | none => name

end Path

/-! ## References -/

/-- The name of the mode that every token has. -/
def defaultMode : String := "."

/-- A reference to a token, perhaps to one of its modes. -/
structure Reference where
  /-- The path of the token. -/
  target : String
  /-- The mode, if one is written. -/
  writtenMode : Option String
deriving DecidableEq

namespace Reference

/-- The mode that is meant. -/
def mode (r : Reference) : String :=
  match r.writtenMode with
  | some m => if m = "" then defaultMode else m
  | none => defaultMode

/-- The written form. -/
def text (r : Reference) : String :=
  match r.writtenMode with
  | some m =>
    if m = "" then "\x7b" ++ r.target ++ "\x7d" else "\x7b" ++ r.target ++ "#" ++ m ++ "\x7d"
  | none => "\x7b" ++ r.target ++ "\x7d"

/-- Whether a text has to be a reference. -/
def isOpenedBy (s : String) : Bool := s.toList.head? = some '\x7b'

/-- Whether `c` separates the parts of a reference. -/
def isMark (c : Char) : Bool := c = '\x7b' || c = '\x7d' || c = '#'

/-- Whether a text is names with points between them; `inName` says that a name has begun. -/
def isPath (inName : Bool) : List Char → Bool
  | [] => inName
  | c :: r => if c = '.' then inName && isPath false r else isPath true r

/-- Reads a reference.  A line break may follow it. -/
def parseChars? (s : List Char) : Option Reference :=
  match s with
  | '\x7b' :: r =>
    let target := r.takeWhile fun c => !isMark c
    if !isPath false target then none
    else
      let (written, rest) :=
        match r.drop target.length with
        | '#' :: t => (some (t.takeWhile fun c => !isMark c), t.dropWhile fun c => !isMark c)
        | t => (none, t)
      if written = some [] then none
      else if rest = ['\x7d'] || rest = ['\x7d', '\n'] then
        some ⟨String.ofList target, written.map String.ofList⟩
      else none
  | _ => none

/-- Reads a reference.  A line break may follow it. -/
def parse? (s : String) : Option Reference := parseChars? s.toList

end Reference

end DesignTokens
