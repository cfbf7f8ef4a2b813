import DesignTokens.Data
import DesignTokens.Number.Decimal
import DesignTokens.Text.Wording

/-!
# Spelling of data

How data is written where a text is wanted: a text as it is, and everything else on one line, with
the texts inside it in quotation marks.
-/

namespace DesignTokens

/-- A scalar by itself: a text as it is. -/
def Scalar.plain : Scalar → String
  | .bool b => if b then "True" else "False"
  | .int i => toString i
  | .float x => x.text
  | .text s => s

/-- A scalar inside other data: a text in quotation marks. -/
def Scalar.spelled : Scalar → String
  | .text s => Text.quote s
  | s => s.plain

namespace Data

mutual

/-- Data inside other data. -/
def spelled : Data → String
  | .null => "None"
  | .scalar s => s.spelled
  | .list items => "[" ++ ", ".intercalate (spelledItems items) ++ "]"
  | .object members => "\x7b" ++ ", ".intercalate (spelledMembers members) ++ "\x7d"

def spelledItems : List Data → List String
  | [] => []
  | d :: ds => spelled d :: spelledItems ds

/-- The members of an object with their names. -/
def spelledMembers : List (String × Data) → List String
  | [] => []
  | (k, d) :: ms => (Text.quote k ++ ": " ++ spelled d) :: spelledMembers ms

end

/-- Data as a text. -/
def plain : Data → String
  | .scalar s => s.plain
  | d => d.spelled

end Data

end DesignTokens
