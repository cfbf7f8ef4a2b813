import DesignTokens.Json.Reader
import DesignTokens.Yaml.Graph

/-!
# Portable texts

Not every text of JSON means the same to a reader of YAML.  That reader folds some line breaks
inside quotation marks, takes a key only when its colon stands close behind it, and knows other
words for numbers without digits.  `Portable` says what a text has to do without.

Escapes need no condition.  Both readers take the escapes of two halves of a character that stand
next to each other for this character (`readUnicodeEscape`, `Yaml.Lexeme.numericEscape`).  A half on
its own is no character, and a text here is made of characters; both readers put the replacement
character in its place, so what is said about such a text is said up to this replacement.
-/

namespace DesignTokens.Json

open Yaml (Cursor maxKeyLength isAcceptable)

/-! ## Characters of strings -/

/-- Whether a character separates lines or paragraphs.  JSON takes it for an ordinary character, and
YAML for a line break that it keeps. -/
def isSeparator (c : Char) : Bool := c.toNat = 0x2028 || c.toNat = 0x2029

/-- Whether a character in a string stands for itself in YAML too, where `r` follows it.  The next
line breaks a line, blanks next to a separator are lost, and no mark between documents may follow
a separator. -/
def isKept (ch : Char) (r : List Char) : Bool :=
  if isSeparator ch then r.head? ≠ some ' ' && !(Cursor.start r).atSeparator
  else if ch = ' ' then !r.head?.any isSeparator
  else ch.toNat ≠ 0x85

/-! ## Places in a text -/

/-- A place in a text of JSON. -/
inductive Spot where
  /-- Outside of strings.  When a string and blanks stand in front of it on its line, `since` is the
  number of characters from the opening quotation mark on. -/
  | outside (since : Option Nat)
  /-- In a string, `since` characters after its start. -/
  | inside (since : Nat)
  /-- After a backslash in a string. -/
  | escaped (since : Nat)

/-- Whether a text from a place on has only what means the same in YAML.  A tab may stand between
brackets, so something other than white space has to follow it. -/
def isPortable : Spot → List Char → Bool
  | _, [] => true
  | .inside since, ch :: r =>
    if ch = '"' then isPortable (.outside (some (since + 1))) r
    else if ch = '\\' then isPortable (.escaped (since + 1)) r
    else isKept ch r && isPortable (.inside (since + 1)) r
  | .escaped since, _ :: r => isPortable (.inside (since + 1)) r
  | .outside since, ch :: r =>
    if ch = '"' then isPortable (.inside 1) r
    else if ch = ':' then
      since.any (· ≤ maxKeyLength) && isPortable (.outside none) r
    else if ch = ' ' || ch = '\t' then
      (ch = ' ' || !r.all isSpace) && isPortable (.outside (since.map (· + 1))) r
    else !(ch = 'N' || ch = 'I') && isPortable (.outside none) r

/-- A text of JSON that means the same in YAML. -/
structure Portable (text : List Char) : Prop where
  acceptable : text.all isAcceptable = true
  /-- No tab stands before the value. -/
  start : '\t' ∉ text.takeWhile isSpace
  places : isPortable (.outside none) text = true

/-! ## Going along a text -/

variable {since : Option Nat} {n : Nat} {ch : Char} {r : List Char}

@[simp] theorem isPortable_quote :
    isPortable (.outside since) ('"' :: r) = isPortable (.inside 1) r := by
  rw [isPortable, if_pos rfl]

@[simp] theorem isPortable_close :
    isPortable (.inside n) ('"' :: r) = isPortable (.outside (some (n + 1))) r := by
  rw [isPortable, if_pos rfl]

@[simp] theorem isPortable_escape :
    isPortable (.inside n) ('\\' :: ch :: r) = isPortable (.inside (n + 2)) r := by
  rw [isPortable, if_neg (by decide), if_pos rfl, isPortable]

theorem isPortable_inside (hquote : ch ≠ '"') (hescape : ch ≠ '\\') :
    isPortable (.inside n) (ch :: r) = (isKept ch r && isPortable (.inside (n + 1)) r) := by
  rw [isPortable, if_neg hquote, if_neg hescape]

@[simp] theorem isPortable_colon : isPortable (.outside since) (':' :: r) =
    (since.any (· ≤ maxKeyLength) && isPortable (.outside none) r) := by
  rw [isPortable, if_neg (by decide), if_pos rfl]

end DesignTokens.Json
