import DesignTokens.Fault
import DesignTokens.Text.Wording
import DesignTokens.Text.Utf8
import DesignTokens.Yaml.Cursor

/-!
# What can be wrong with a YAML text

A `Problem` is a cause, `Problem.message` its wording, and a `Failure` a cause with its place.
-/

namespace DesignTokens.Yaml

/-- How a message shows the character that was found; the end of the text is the null character. -/
def foundText : Option Char → String
  | none => "'\\x00'"
  | some c => String.ofList (Text.quoted [c])

/-- What is wrong with a YAML text. -/
inductive Problem where
  /-- No token starts with this character. -/
  | cannotStart (found : Option Char)
  /-- What has to be a key is followed by no colon. -/
  | missingColon
  /-- An entry of a sequence stands where none may start. -/
  | misplacedEntry
  /-- A key stands where none may start. -/
  | misplacedKey
  /-- A value stands where none may start. -/
  | misplacedValue
  /-- A name has no characters, or is followed by a wrong one. -/
  | expectedName (found : Option Char)
  /-- A version has no digits. -/
  | expectedDigit (found : Option Char)
  /-- A number of a version goes on with neither a digit nor what may follow. -/
  | expectedDigitOrPoint (found : Option Char)
  /-- A blank has to follow. -/
  | expectedBlank (found : Option Char)
  /-- A comment or a line break has to follow. -/
  | expectedLineEnd (found : Option Char)
  /-- A tag has no characters. -/
  | expectedUri (found : Option Char)
  /-- An escape in a tag has no two hexadecimal digits. -/
  | expectedUriEscape (found : Option Char)
  /-- The escaped bytes in a tag are no text. -/
  | undecodableUri (error : Text.Utf8Error)
  /-- A tag in angle brackets does not end. -/
  | expectedTagEnd (found : Option Char)
  /-- A tag handle does not start or end with an exclamation mark. -/
  | expectedHandleMark (found : Option Char)
  /-- The header of a block scalar holds something else than its indicators. -/
  | expectedIndicators (found : Option Char)
  /-- The indentation of a block scalar is given as zero. -/
  | zeroIndentation
  /-- A block scalar starts with blank lines, and its first line goes further in than the first of
  them. -/
  | deeperFirstLine
  /-- An escape in a quoted scalar lacks hexadecimal digits. -/
  | expectedEscape (digits : Nat) (found : Option Char)
  /-- The character after a backslash means nothing. -/
  | unknownEscape (found : Option Char)
  /-- A quoted scalar does not end. -/
  | unexpectedEnd
  /-- A mark between documents stands inside a quoted scalar. -/
  | unexpectedSeparator
  /-- Something else stands where a document has to start. -/
  | expectedDocumentStart (found : String)
  /-- Something follows the end of a document on its line. -/
  | contentAfterEnd (found : String)
  /-- The version is given twice. -/
  | duplicateVersion
  /-- The version is of another major number. -/
  | incompatibleVersion
  /-- A tag handle is declared twice. -/
  | duplicateHandle (handle : String)
  /-- A tag handle is not declared. -/
  | undefinedHandle (handle : String)
  /-- A node has to stand here. -/
  | expectedNode (found : String)
  /-- A block collection has to end here. -/
  | expectedBlockEnd (found : String)
  /-- A comma or the closing bracket has to stand here. -/
  | expectedListMark (bracket : Char) (found : String)
  /-- An alias names no anchor before it. -/
  | undefinedAnchor (name : String)
  /-- A second document follows. -/
  | secondDocument
  /-- The reader gave up; the limit follows from the length of the text and is never reached. -/
  | tooLong

/-- The wording of a problem. -/
def Problem.message : Problem → String
  | .cannotStart c => "found character " ++ foundText c ++ " that cannot start any token"
  | .missingColon => "could not find expected ':'"
  | .misplacedEntry => "sequence entries are not allowed here"
  | .misplacedKey => "mapping keys are not allowed here"
  | .misplacedValue => "mapping values are not allowed here"
  | .expectedName c => "expected alphabetic or numeric character, but found " ++ foundText c
  | .expectedDigit c => "expected a digit, but found " ++ foundText c
  | .expectedDigitOrPoint c => "expected a digit or '.', but found " ++ foundText c
  | .expectedBlank c => "expected ' ', but found " ++ foundText c
  | .expectedLineEnd c => "expected a comment or a line break, but found " ++ foundText c
  | .expectedUri c => "expected URI, but found " ++ foundText c
  | .expectedUriEscape c =>
    "expected URI escape sequence of 2 hexdecimal numbers, but found " ++ foundText c
  | .undecodableUri e => e.message
  | .expectedTagEnd c => "expected '>' but found " ++ foundText c
  | .expectedHandleMark c => "expected '!', but found " ++ foundText c
  | .expectedIndicators c =>
    "expected chomping or indentation indicators, but found " ++ foundText c
  | .zeroIndentation => "expected indentation indicator in the range 1-9, but found 0"
  | .deeperFirstLine => "more indented follow up line than first in a block scalar"
  | .expectedEscape n c =>
    "expected escape sequence of " ++ toString n ++ " hexdecimal numbers, but found " ++
      foundText c
  | .unknownEscape c => "found unknown escape character " ++ foundText c
  | .unexpectedEnd => "found unexpected end of stream"
  | .unexpectedSeparator => "found unexpected document separator"
  | .expectedDocumentStart t => "expected '<document start>', but found (" ++ Text.quote t ++ ",)"
  | .contentAfterEnd t =>
    "found non-comment content after document end marker, (" ++ Text.quote t ++ ",)"
  | .duplicateVersion => "found duplicate YAML directive"
  | .incompatibleVersion => "found incompatible YAML document (version 1.* is required)"
  | .duplicateHandle h => "duplicate tag handle " ++ Text.quote h
  | .undefinedHandle h => "found undefined tag handle " ++ Text.quote h
  | .expectedNode t => "expected the node content, but found " ++ Text.quote t
  | .expectedBlockEnd t => "expected <block end>, but found " ++ Text.quote t
  | .expectedListMark b t =>
    "expected ',' or " ++ foundText (some b) ++ ", but got " ++ Text.quote t
  | .undefinedAnchor a => "found undefined alias " ++ Text.quote a
  | .secondDocument => "but found another document"
  | .tooLong => "the text is too long"

/-- Why a text is no YAML document. -/
inductive Failure where
  /-- A problem at a place. -/
  | problem (problem : Problem) (mark : Mark)
  /-- A character that may not stand in any document, at an offset. -/
  | unacceptable (char : Char) (offset : Nat)
  /-- A fault that has no place. -/
  | fault (fault : Fault)

end DesignTokens.Yaml
