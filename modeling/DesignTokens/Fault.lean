import DesignTokens.Text.Wording

/-!
# Faults

Failures that are no finding about a document: a scalar that its tag cannot read, a name that a
table lacks, a file that is not there.  They carry no place, and most of them no message; findings
with a place are issues (`DesignTokens.Issue`).
-/

namespace DesignTokens

/-- A failure without a place in a document. -/
inductive Fault where
  /-- A scalar has a tag that no reader knows. -/
  | unknownTag
  /-- A text is not what it is read as. -/
  | unreadable
  /-- A name or a position is not in a table. -/
  | unknownName
  /-- A position is beyond the end of a list or a text. -/
  | outOfBounds
  /-- A number is too large for the arithmetic that meets it. -/
  | tooLarge
  /-- A document declares a version of its language that has no rules. -/
  | unsupportedVersion
  /-- A value has another shape than the place where it is used. -/
  | wrongShape
  /-- What stands where a reference is expected is none. -/
  | notReference
  /-- The references form a cycle, so they have no order. -/
  | cyclic
  /-- Bytes that encode no text. -/
  | undecodable
  /-- There is no file of that name. -/
  | missingFile
  /-- The name belongs to a directory. -/
  | isDirectory
  /-- A file stands where the path needs a directory. -/
  | notDirectory
  /-- The value of a token is read before the type of the token is known. -/
  | untyped (token : String)
deriving DecidableEq, Repr

/-- The wording of a fault, for those that have one. -/
def Fault.message? : Fault → Option String
  | .untyped token =>
    some ("token " ++ Text.quote token ++ " has no type; run alias type inference first")
  | _ => none

end DesignTokens
