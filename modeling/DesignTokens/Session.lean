import DesignTokens.Diagnostic
import DesignTokens.Document

/-!
# Sessions

A session reads one document after the other under the same limits.  It passes on the version of
YAML that holds after each of them, and it reports failures against the text in which they were
found.

The version is all that a reader of YAML carries from text to text.  Its anchors end with the
document, also with one that cannot be read, so an alias never leads into an earlier text.  What a
scalar was read as may be kept with the node of the scalar, but every text has nodes of its own, and
a node is read in the same way each time; so what is kept never shows.
-/

namespace DesignTokens

/-- What stays the same from document to document. -/
structure Setup where
  /-- The limits of documents. -/
  limits : Limits
  /-- Whether reports have colours. -/
  color : Bool

/-- What a document is read from. -/
inductive Input where
  /-- A text that is read as what it looks like. -/
  | text (filename content : String)
  /-- A text that is read as JSON. -/
  | json (filename content : String)
  /-- A text that is read as YAML. -/
  | yaml (filename content : String)
  /-- Structured data; `rendered` asks for a text that places can refer to. -/
  | data (content : Data) (rendered : Bool)

namespace Input

/-- The text that problems of an input refer to, and its name. -/
def source (color : Bool) : Input → Source
  | .text filename content => ⟨content, some filename, color⟩
  | .json filename content => ⟨content, some filename, color⟩
  | .yaml filename content => ⟨content, some filename, color⟩
  | .data content rendered =>
    ⟨if rendered then Json.indented content else "", some Document.dataName, color⟩

/-- Reads an input, and says which version of YAML holds after it. -/
def read (limits : Limits) (version : Yaml.Version) : Input → Document.Reading
  | .text filename content => Document.readText limits version filename content
  | .json filename content => Document.readJson limits version filename content
  | .yaml filename content => Document.readYaml limits version filename content
  | .data content true => Document.readRendered limits version content
  | .data content false => (Document.ofData limits content, version)

end Input

namespace Setup

/-- Reads an input and reports failures. -/
def read (s : Setup) (version : Yaml.Version) (input : Input) :
    Except Error Document × Yaml.Version :=
  let (document, version) := input.read s.limits version
  (document.mapError (input.source s.color).explain, version)

/-- Reads an input with a reader that has read nothing before. -/
def readOnce (s : Setup) (input : Input) : Except Error Document :=
  (s.read .v12 input).1

end Setup

end DesignTokens
