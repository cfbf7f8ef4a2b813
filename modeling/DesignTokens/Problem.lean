import DesignTokens.Data.Spelling
import DesignTokens.Json.Reader
import DesignTokens.Number.Decimal
import DesignTokens.Reference
import DesignTokens.Text.Wording
import DesignTokens.TokenType
import DesignTokens.Tree
import DesignTokens.Yaml.Problem

/-!
# Problems

What can be wrong with a document, from its text to its references.  Every cause has a kind and a
wording; `Issue` adds the place.
-/

namespace DesignTokens

/-! ## Kinds of problems -/

inductive ProblemKind where
  /-- A problem of no kind of its own. -/
  | general
  /-- The text is not well formed. -/
  | form
  /-- A value has a wrong shape. -/
  | type
  /-- A value is not among those that are allowed. -/
  | range
  /-- A value lacks a part. -/
  | missing
  /-- A reference leads nowhere. -/
  | reference
  /-- The tree of groups and tokens is wrong. -/
  | group
  /-- The document is too large. -/
  | safety
deriving DecidableEq

def ProblemKind.name : ProblemKind → String
  | .general => "Error"
  | .form => "SyntaxError"
  | .type => "TypeError"
  | .range => "RangeError"
  | .missing => "MissingPropertyError"
  | .reference => "AliasError"
  | .group => "GroupError"
  | .safety => "SafetyError"

/-! ## Formats of texts -/

/-- The formats that a text can be read as. -/
inductive Format where
  | json
  | yaml
  /-- Structured data that was handed over as such. -/
  | data
deriving DecidableEq

def Format.name : Format → String
  | .json => "json"
  | .yaml => "yaml"
  | .data => "data"

/-! ## What was expected -/

/-- What a place can ask for. -/
inductive Expectation where
  /-- A mapping. -/
  | object
  /-- A token or a group. -/
  | member
  /-- A text. -/
  | string
  | number
  /-- A truth value. -/
  | boolean
  /-- A text or a number. -/
  | stringOrNumber
  /-- A text or a mapping. -/
  | stringOrObject
  /-- Font families. -/
  | families
  | fourNumbers
  /-- The stops of a gradient. -/
  | stops
  /-- The layers of a shadow. -/
  | layers
deriving DecidableEq

/-- How a message names what was expected. -/
def Expectation.phrase : Expectation → String
  | .object => "object"
  | .member => "token or group object"
  | .string => "string"
  | .number => "number"
  | .boolean => "boolean"
  | .stringOrNumber => "string or number"
  | .stringOrObject => "string or object"
  | .families => "string or array of strings"
  | .fourNumbers => "an array of 4 numbers"
  | .stops => "array of gradient stops"
  | .layers => "shadow object or array of shadow objects"

/-- What an empty text was read as. -/
inductive EmptyText where
  /-- The address of a resource. -/
  | link
  /-- A length. -/
  | dimension
  /-- A time. -/
  | duration
  /-- A colour. -/
  | color
  /-- A font family. -/
  | family
  /-- A font in short form. -/
  | typography
deriving DecidableEq

/-- How a message names what an empty text was read as. -/
def EmptyText.phrase : EmptyText → String
  | .link => "URL"
  | .dimension => "dimension"
  | .duration => "duration"
  | .color => "color"
  | .family => "font family name"
  | .typography => "typography shorthand"

/-! ## Problems -/

/-- What is wrong with a document. -/
inductive Problem where
  /-- The text has too many characters. -/
  | tooLong (size : Nat) (limit : Int)
  /-- The tree has too many nodes. -/
  | tooManyNodes (limit : Int)
  /-- The tree is too deep. -/
  | tooDeep (limit : Int)
  /-- The text is no JSON. -/
  | json (problem : Json.Problem) (line column : Nat)
  /-- The text is no YAML. -/
  | yaml (format : Format) (problem : Yaml.Problem)
  /-- The text has a character that may not stand in any text. -/
  | unacceptable (format : Format) (char : Char) (offset : Nat)
  /-- A key is no scalar. -/
  | keyNotText
  /-- A key stands twice in one mapping. -/
  | duplicateKey (name : String)
  /-- A node has a wrong kind. -/
  | expected (what : Expectation) (received : NodeKind)
  | emptyText (what : EmptyText)
  /-- A name cannot be part of a path. -/
  | invalidName (name : String)
  /-- A token has no type. -/
  | missingType
  /-- A mode has the name of the default mode. -/
  | reservedMode
  | unknownType (name : String)
  /-- A text starts as a reference but is none. -/
  | invalidReference (text : String)
  /-- A part of a value is missing. -/
  | missingPart (name : String)
  /-- A text is no number with a unit. -/
  | invalidDimension (text : String)
  /-- A length has no unit. -/
  | missingUnit
  /-- A time has no unit. -/
  | missingTimeUnit
  /-- A text is no time. -/
  | invalidDuration (text : String)
  /-- A text is no colour. -/
  | invalidColor (text : String)
  /-- The channels of a colour are not numbers in a list. -/
  | invalidChannels
  /-- A colour space has an unknown name. -/
  | unknownSpace (name : String)
  /-- A list of font families has something else in it, or nothing. -/
  | invalidFamilies
  /-- The weight of a font is no integer up to a thousand. -/
  | weightOutOfRange (value : Scalar)
  /-- The weight of a font has an unknown name. -/
  | unknownWeight (name : String) (choices : List String)
  /-- A curve has not four numbers. -/
  | pointCount (count : Nat)
  /-- A curve has something else than numbers. -/
  | invalidPoints
  /-- The style of a line has an unknown name. -/
  | unknownStrokeStyle (name : String) (choices : List String)
  /-- The ends of a line have an unknown name. -/
  | unknownLineCap (name : String) (choices : List String)
  /-- The dashes of a line are not texts in a list. -/
  | invalidDashes
  /-- A reference names no token. -/
  | unknownTarget (reference : Reference) (referrer : String)
  /-- A reference names a mode that the token does not have. -/
  | unknownMode (reference : Reference) (referrer : String)
  /-- A reference leads to a token of another type. -/
  | wrongTarget (reference : Reference) (found : TokenType) (accepted : List TokenType)
  /-- References lead back to where they started. -/
  | circular (labels : List String)

namespace Problem

def kind : Problem → ProblemKind
  | .tooLong .. | .tooManyNodes _ | .tooDeep _ => .safety
  | .json .. | .yaml .. | .unacceptable .. | .keyNotText | .duplicateKey _ | .invalidReference _ =>
    .form
  | .invalidName _ | .missingType => .group
  | .reservedMode | .unknownType _ | .unknownSpace _ | .weightOutOfRange _ | .unknownWeight .. |
    .unknownStrokeStyle .. | .unknownLineCap .. => .range
  | .missingPart _ => .missing
  | .unknownTarget .. | .unknownMode .. | .wrongTarget .. | .circular _ => .reference
  | .expected .. | .emptyText _ | .invalidDimension _ | .missingUnit | .missingTimeUnit |
    .invalidDuration _ | .invalidColor _ | .invalidChannels | .invalidFamilies | .pointCount _ |
    .invalidPoints | .invalidDashes => .type

/-- A text between double quotation marks, as it is. -/
def inMarks (s : String) : String := "\"" ++ s ++ "\""

/-- The code point of a character with at least four hexadecimal digits. -/
def codeText (c : Char) : String :=
  let digits := Nat.toDigits 16 c.toNat
  String.ofList (List.replicate (4 - digits.length) '0' ++ digits)

/-- The wording of a problem. -/
def message : Problem → String
  | .tooLong size limit =>
    "Document exceeds maximum size (" ++ Text.grouped size ++ " chars > " ++
      Text.groupedInt limit ++ " limit)"
  | .tooManyNodes limit =>
    "Document exceeds maximum node count (" ++ Text.groupedInt limit ++ ")"
  | .tooDeep limit => "Document exceeds maximum nesting depth (" ++ toString limit ++ ")"
  | .json problem line column =>
    "parse:json: " ++ problem.message ++ " (" ++ toString line ++ ":" ++ toString column ++ ")"
  | .yaml format problem => "parse:" ++ format.name ++ ": " ++ problem.message
  | .unacceptable format char offset =>
    "parse:" ++ format.name ++ ": unacceptable character #x" ++ codeText char ++
      ": special characters are not allowed\n  in \"<unicode string>\", position " ++
      toString offset
  | .keyNotText => "Mapping keys must be strings"
  | .duplicateKey name => "Duplicate key " ++ inMarks name
  | .expected what received => "Expected " ++ what.phrase ++ ", received " ++ received.name
  | .emptyText what => "Expected " ++ what.phrase ++ ", received empty string"
  | .invalidName name =>
    "Invalid name " ++ inMarks name ++ ": names may not be empty or contain " ++
      "\".\", \"\x7b\", \"\x7d\" or \"#\""
  | .missingType => "Missing required property \"$type\""
  | .reservedMode =>
    "Mode name " ++ inMarks defaultMode ++ " is reserved for the default value"
  | .unknownType name =>
    "Unknown $type " ++ inMarks name ++ ". Expected one of: " ++
      TokenType.phrase TokenType.all ++ "."
  | .invalidReference text => "Invalid alias: " ++ inMarks text
  | .missingPart name => "Missing required property " ++ inMarks name
  | .invalidDimension text => "Expected dimension with units, received " ++ inMarks text
  | .missingUnit => "Missing units"
  | .missingTimeUnit => "Missing unit \"ms\" or \"s\""
  | .invalidDuration text =>
    "Expected duration in \x60ms\x60 or \x60s\x60, received " ++ inMarks text
  | .invalidColor text => "Unable to parse color " ++ inMarks text
  | .invalidChannels => "Expected an array of numbers"
  | .unknownSpace name => "Unknown color space " ++ inMarks name
  | .invalidFamilies =>
    "Expected an array of strings, received some non-strings or empty strings"
  | .weightOutOfRange value => "Expected number 0–1000, received " ++ value.plain
  | .unknownWeight name choices =>
    "Unknown font weight " ++ inMarks name ++ ". Expected one of: " ++ Text.choices choices ++ "."
  | .pointCount count => "Expected an array of 4 numbers, received " ++ toString count
  | .invalidPoints => "Expected an array of 4 numbers, received some non-numbers"
  | .unknownStrokeStyle name choices =>
    "Unknown stroke style " ++ inMarks name ++ ". Expected one of: " ++ Text.choices choices ++ "."
  | .unknownLineCap name choices =>
    "Unknown line cap " ++ inMarks name ++ ". Expected one of: " ++ Text.choices choices ++ "."
  | .invalidDashes =>
    "Expected array of strings, recieved some non-strings or empty strings."
  | .unknownTarget reference referrer =>
    "Alias " ++ inMarks reference.text ++ " not found (referenced by " ++ inMarks referrer ++ ")"
  | .unknownMode reference referrer =>
    "Mode " ++ inMarks reference.mode ++ " not found on " ++ inMarks reference.target ++
      " (referenced by " ++ inMarks referrer ++ ")"
  | .wrongTarget reference found accepted =>
    "Alias " ++ inMarks reference.text ++ " points to a " ++ found.name ++ " token, expected " ++
      TokenType.phrase accepted
  | .circular labels => "Circular alias detected: " ++ " -> ".intercalate (labels.map inMarks)

end Problem

/-! ## Issues -/

/-- What a problem is pinned to. -/
inductive Site where
  /-- The document as a whole. -/
  | document
  /-- A member of a mapping. -/
  | member
  | node (kind : NodeKind)
deriving DecidableEq

def Site.name : Site → String
  | .document => "Document"
  | .member => "Member"
  | .node k => k.name

/-- A problem with its place. -/
structure Issue where
  /-- What is wrong. -/
  problem : Problem
  /-- Where it is. -/
  span : Span
  /-- What stands there. -/
  site : Site

namespace Issue

def ofNode (problem : Problem) (node : Tree) : Issue := ⟨problem, node.span, .node node.kind⟩

def ofKey (problem : Problem) (key : Key) : Issue := ⟨problem, key.span, .member⟩

/-- A problem of the whole document. -/
def ofDocument (problem : Problem) (span : Span) : Issue := ⟨problem, span, .document⟩

end Issue

/-- Why a document cannot be used: an issue with its place, or a fault without one. -/
inductive Failure where
  /-- An issue of the document. -/
  | issue (issue : Issue)
  /-- A fault that is no finding about a place. -/
  | fault (fault : Fault)

end DesignTokens
