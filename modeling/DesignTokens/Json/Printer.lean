import DesignTokens.Data
import DesignTokens.Number.Decimal
import DesignTokens.Text.Wording

/-!
# Writing JSON

Two written forms: lines with two blanks of indent, where characters beyond ASCII stand as they
are, and one line where they are escaped.
-/

namespace DesignTokens.Json

/-! ## Scalars -/

/-- The escape with four hexadecimal digits. -/
def unicodeEscape (n : Nat) : List Char :=
  '\\' :: 'u' :: Text.hexDigits 4 n

/-- The escapes of a character beyond ASCII: one, or two halves. -/
def unitEscapes (n : Nat) : List Char :=
  if n < 0x10000 then unicodeEscape n
  else
    let m := n - 0x10000
    unicodeEscape (0xD800 + m / 0x400) ++ unicodeEscape (0xDC00 + m % 0x400)

/-- How a JSON string shows a character; `ascii` asks for escapes beyond ASCII. -/
def stringChar (ascii : Bool) (c : Char) : List Char :=
  if c = '"' ∨ c = '\\' then ['\\', c]
  else if c = '\n' then ['\\', 'n']
  else if c = '\r' then ['\\', 'r']
  else if c = '\t' then ['\\', 't']
  else if c.toNat = 8 then ['\\', 'b']
  else if c.toNat = 12 then ['\\', 'f']
  else if c.toNat < 32 then unicodeEscape c.toNat
  else if ascii && 126 < c.toNat then unitEscapes c.toNat
  else [c]

/-- A text as a JSON string. -/
def stringText (ascii : Bool) (s : String) : String :=
  String.ofList ('"' :: s.toList.flatMap (stringChar ascii) ++ ['"'])

/-- A double precision number; the numbers without digits are words. -/
def floatText (x : Binary64) : String :=
  match x.shape with
  | .nan => "NaN"
  | .infinite negative => if negative then "-Infinity" else "Infinity"
  | .finite .. => x.text

def scalarText (ascii : Bool) : Scalar → String
  | .bool b => if b then "true" else "false"
  | .int i => toString i
  | .float x => floatText x
  | .text s => stringText ascii s

/-! ## Values on several lines -/

/-- A line break with the indent of a depth. -/
def newline (depth : Nat) : String :=
  String.ofList ('\n' :: List.replicate (2 * depth) ' ')

mutual

/-- A value on lines of its own, its first line at a given depth. -/
def linesAt (depth : Nat) : Data → String
  | .null => "null"
  | .scalar s => scalarText false s
  | .list [] => "[]"
  | .list (x :: xs) =>
    "[" ++ newline (depth + 1) ++ linesAt (depth + 1) x ++ itemLines (depth + 1) xs ++
      newline depth ++ "]"
  | .object [] => "\x7b\x7d"
  | .object ((k, v) :: ms) =>
    "\x7b" ++ newline (depth + 1) ++ stringText false k ++ ": " ++ linesAt (depth + 1) v ++
      memberLines (depth + 1) ms ++ newline depth ++ "\x7d"

/-- The items after the first one, each on a line of its own. -/
def itemLines (depth : Nat) : List Data → String
  | [] => ""
  | x :: xs => "," ++ newline depth ++ linesAt depth x ++ itemLines depth xs

/-- The members after the first one, each on a line of its own. -/
def memberLines (depth : Nat) : List (String × Data) → String
  | [] => ""
  | (k, v) :: ms =>
    "," ++ newline depth ++ stringText false k ++ ": " ++ linesAt depth v ++ memberLines depth ms

end

/-- A value with two blanks of indent for each depth. -/
def indented (d : Data) : String :=
  linesAt 0 d

/-! ## Values on one line -/

mutual

/-- A value on one line, in ASCII. -/
def line : Data → String
  | .null => "null"
  | .scalar s => scalarText true s
  | .list xs => "[" ++ ", ".intercalate (lineItems xs) ++ "]"
  | .object ms => "\x7b" ++ ", ".intercalate (lineMembers ms) ++ "\x7d"

/-- The items of a list on one line. -/
def lineItems : List Data → List String
  | [] => []
  | x :: xs => line x :: lineItems xs

/-- The members of an object on one line. -/
def lineMembers : List (String × Data) → List String
  | [] => []
  | (k, v) :: ms => (stringText true k ++ ": " ++ line v) :: lineMembers ms

end

end DesignTokens.Json
