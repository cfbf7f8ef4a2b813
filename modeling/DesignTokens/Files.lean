import DesignTokens.Session
import DesignTokens.Text.Lowercase
import DesignTokens.Text.Parts

/-!
# Files of documents

Documents are read from files below a directory.  The end of the name of a file says what it is
read as, and problems name the file by its path from the directory of the project.
-/

namespace DesignTokens

/-! ## Paths of files -/

/-- The path of a file: names of directories, and the name of the file at the end. -/
abbrev FilePath := List String

namespace FilePath

/-- The path that a text stands for; empty names and names for the same directory do not
count. -/
def ofText (s : String) : FilePath :=
  ((Text.parts '/' s.toList).map String.ofList).filter fun name => name ≠ "" && name ≠ "."

def text (p : FilePath) : String :=
  if p.isEmpty then "." else "/".intercalate p

/-- The names after which the name for the directory above is left out; `above` holds the names so
far, the last one first. -/
def resolveFrom (above : FilePath) : FilePath → FilePath
  | [] => above.reverse
  | name :: rest =>
    if name = ".." then resolveFrom above.tail rest else resolveFrom (name :: above) rest

/-- The path without names for the directory above. -/
def resolve (p : FilePath) : FilePath := resolveFrom [] p

/-- The path from a directory on, when it leads there. -/
def from? (directory p : FilePath) : Option FilePath :=
  if directory.isPrefixOf p then some (p.drop directory.length) else none

/-- The end of the name of a file from its last point on.  A name with no other point than its first
or its last character has no such end. -/
def extension (p : FilePath) : String :=
  let name := (p.getLast?.getD "").toList
  let tail := (name.reverse.takeWhile (· ≠ '.')).reverse
  if tail.isEmpty || name.length ≤ tail.length + 1 then "" else String.ofList ('.' :: tail)

end FilePath

/-! ## Directories -/

/-- Files by their paths, with their bytes. -/
abbrev Files := List (FilePath × List Nat)

namespace Files

def bytes? (p : FilePath) (files : Files) : Option (List Nat) :=
  (files.find? (·.1 = p)).map (·.2)

/-- Whether there is a directory of a path. -/
def isDirectory (p : FilePath) (files : Files) : Bool :=
  p.isEmpty || files.any fun f => p.isPrefixOf f.1 && p.length < f.1.length

/-- The bytes at the end of a path, going down from the directory `place`. -/
def openFrom (files : Files) (place : FilePath) : FilePath → Except Fault (List Nat)
  | [] =>
    match files.bytes? place with
    | some bytes => .ok bytes
    | none => .error (if files.isDirectory place then .isDirectory else .missingFile)
  | name :: rest =>
    if (files.bytes? place).isSome then .error .notDirectory
    else if !files.isDirectory place then .error .missingFile
    else openFrom files (if name = ".." then place.dropLast else place ++ [name]) rest

def readText (p : FilePath) (files : Files) : Except Fault String := do
  match Text.decodeUtf8 (← files.openFrom [] p) with
  | .ok s => return String.ofList (Text.unifyNewlines s)
  | .error _ => throw .undecodable

/-- How problems name a file: by its path from a directory, or else as it was given. -/
def displayName (directory p : FilePath) : String :=
  ((FilePath.from? directory.resolve p.resolve).getD p).text

/-- A file as an input: the end of its name says what it is read as. -/
def input (directory p : FilePath) (files : Files) : Except Fault Input := do
  let content ← files.readText p
  let name := displayName directory p
  let small := String.ofList (Text.lower p.extension.toList)
  if small = ".json" then return .json name content
  else if small = ".yaml" || small = ".yml" then return .yaml name content
  else return .text name content

end Files

end DesignTokens
