import DesignTokens.Json.Printer
import DesignTokens.Problem
import DesignTokens.Tree
import DesignTokens.Tree.OfData
import DesignTokens.Tree.OfGraph
import DesignTokens.Yaml.Graph

/-!
# Documents

A text is read as JSON or as YAML.  A JSON text has to pass the strict JSON reader; its tree then
comes from the YAML reader, because that one knows the places of nodes.  The version of YAML that
holds after a text is passed on from call to call.  Anchors are not: every text starts without any.
-/

namespace DesignTokens

/-- A document that was read: its tree, and the text that the places of the tree refer to. -/
structure Document where
  root : Tree
  /-- The text. -/
  source : String
  /-- What the text was read as. -/
  format : Format
  filename : String

namespace Document

/-- The name of a text that has none. -/
def textName : String := "<string>"

/-- The name of structured data. -/
def dataName : String := "<data>"

/-- The result of reading, and the version of YAML that holds after it. -/
abbrev Reading := Except Failure Document × Yaml.Version

/-! ## YAML -/

/-- The failure of reading YAML as a failure of the document. -/
def ofYamlFailure (format : Format) : Yaml.Failure → Failure
  | .problem problem mark =>
    .issue (.ofDocument (.yaml format problem) ⟨mark.line + 1, mark.column + 1, mark.offset, 0, none⟩)
  | .unacceptable char offset => .issue (.ofDocument (.unacceptable format char offset) .origin)
  | .fault fault => .fault fault

/-- The tree of a text; a text without a document is an empty mapping. -/
def treeOfText (limits : Limits) (version : Yaml.Version) (format : Format) (text : String) :
    Except Failure Tree × Yaml.Version :=
  match Yaml.readGraph version text.toList with
  | (.error e, version) => (.error (ofYamlFailure format e), version)
  | (.ok (_, none), version) => (.ok (.mapping [] .origin), version)
  | (.ok (nodes, some root), version) => (Tree.ofGraph nodes version limits root, version)

/-- Reads a text as a document of a format. -/
def readAs (format : Format) (limits : Limits) (version : Yaml.Version) (filename text : String) :
    Reading :=
  let (tree, version) := treeOfText limits version format text
  (tree.map fun root => ⟨root, text, format, filename⟩, version)

def readYaml (limits : Limits) (version : Yaml.Version) (filename text : String) : Reading :=
  match limits.checkSize text.length with
  | .error e => (.error e, version)
  | .ok () => readAs .yaml limits version filename text

/-! ## JSON -/

/-- The line and the column of the place after a text, both from one. -/
def placeAfter (before : List Char) : Nat × Nat :=
  (before.count '\n' + 1, (before.reverse.takeWhile (· ≠ '\n')).length + 1)

/-- The failure of reading JSON as a failure of the document. -/
def ofJsonError (text : List Char) (e : Json.Error) : Failure :=
  if e.problem = .tooManyDigits then .fault .unreadable
  else
    let offset := text.length - e.rest.length
    let (line, column) := placeAfter (text.take offset)
    .issue (.ofDocument (.json e.problem line column) ⟨line, column, offset, 0, none⟩)

def readJson (limits : Limits) (version : Yaml.Version) (filename text : String) : Reading :=
  match limits.checkSize text.length with
  | .error e => (.error e, version)
  | .ok () =>
    match Json.read text with
    | .error e => (.error (ofJsonError text.toList e), version)
    | .ok _ => readAs .json limits version filename text

/-! ## Texts and data -/

/-- Whether a text is taken for JSON: its first character that is no blank opens a list or an
object. -/
def looksLikeJson (text : String) : Bool :=
  match Text.trimLeft text.toList with
  | c :: _ => c = '\x7b' || c = '['
  | [] => false

/-- Reads a text as what it looks like. -/
def readText (limits : Limits) (version : Yaml.Version) (filename text : String) : Reading :=
  if looksLikeJson text then readJson limits version filename text
  else readYaml limits version filename text

/-- Reads structured data by way of its text, so that places refer to that text. -/
def readRendered (limits : Limits) (version : Yaml.Version) (data : Data) : Reading :=
  let (document, version) := readJson limits version dataName (Json.indented data)
  (document.map ({ · with format := .data }), version)

/-- Takes structured data as a document without a text. -/
def ofData (limits : Limits) (data : Data) : Except Failure Document :=
  (Tree.ofData limits data).map fun root => ⟨root, "", .data, dataName⟩

end Document

end DesignTokens
