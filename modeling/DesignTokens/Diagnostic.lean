import DesignTokens.Problem
import DesignTokens.Source.Frame

/-!
# Diagnostics

A diagnostic is an issue as it is reported: with the name of the file and with the lines around the
place.
-/

namespace DesignTokens

/-- The text that places refer to, and how it is shown. -/
structure Source where
  text : String
  filename : Option String
  /-- Whether frames have colours. -/
  color : Bool

/-- A problem as it is reported. -/
structure Diagnostic where
  kind : ProblemKind
  /-- The message alone. -/
  message : String
  /-- What stands at the place. -/
  site : String
  /-- The place, with the name of the file. -/
  span : Span
  /-- The message with the lines around the place. -/
  rendered : String

namespace Source

/-- Reports a message about a place. -/
def report (s : Source) (kind : ProblemKind) (message : String) (span : Span)
    (site : String) : Diagnostic :=
  let place := span.inFile s.filename
  ⟨kind, message, site, place, Frame.withMessage s.color message s.text place⟩

/-- Reports an issue. -/
def diagnose (s : Source) (issue : Issue) : Diagnostic :=
  s.report issue.problem.kind issue.problem.message issue.span issue.site.name

end Source

/-- Why an operation failed: a diagnostic, or a fault without a place. -/
inductive Error where
  /-- A problem that is reported with its place. -/
  | diagnostic (d : Diagnostic)
  /-- A fault without a place. -/
  | fault (fault : Fault)

/-- Reports a failure. -/
def Source.explain (s : Source) : Failure → Error
  | .issue i => .diagnostic (s.diagnose i)
  | .fault f => .fault f

end DesignTokens
