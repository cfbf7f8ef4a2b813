/-!
# Places in a text

A `Mark` is a place; a `Cursor` is a place together with the text from there on.  Lines end at a
line feed, and at a carriage return that no line feed follows; a byte order mark takes no column.
-/

namespace DesignTokens.Yaml

/-! ## Marks -/

/-- A place in a text.  Lines and columns count from zero, the offset counts characters. -/
structure Mark where
  /-- The number of line ends before the place. -/
  line : Nat
  /-- The number of characters since the last line end. -/
  column : Nat
  /-- The number of characters before the place. -/
  offset : Nat
deriving DecidableEq, Inhabited

/-! ## Classes of characters

The end of the text is `none`. -/

/-- Whether a character breaks a line.  The separators of lines and paragraphs do, although the
count of lines passes over them. -/
def isBreak (c : Char) : Bool :=
  c = '\n' || c = '\r' || c.toNat = 0x85 || c.toNat = 0x2028 || c.toNat = 0x2029

/-- Whether a line ends here. -/
def endsLine : Option Char → Bool
  | none => true
  | some c => isBreak c

/-- Whether a word ends here: at a blank, a tab, or the end of a line. -/
def endsWord (o : Option Char) : Bool :=
  o = some ' ' || o = some '\t' || endsLine o

/-- Whether a property or an indicator ends here: at a blank or the end of a line, but not at a
tab. -/
def endsMark (o : Option Char) : Bool :=
  o = some ' ' || endsLine o

/-! ## Cursors -/

/-- A place in a text and the text from there on. -/
structure Cursor where
  /-- The text from the place on. -/
  rest : List Char
  /-- The number of characters from the place on, which bounds what a reader has to do. -/
  left : Nat
  /-- The number of line ends before the place. -/
  line : Nat
  /-- The number of characters since the last line end. -/
  column : Nat
  /-- The number of characters before the place. -/
  offset : Nat
  /-- No character is counted twice or left out. -/
  left_eq : left = rest.length

namespace Cursor

def start (text : List Char) : Cursor := ⟨text, text.length, 0, 0, 0, rfl⟩

/-- The place of the cursor. -/
def mark (c : Cursor) : Mark := ⟨c.line, c.column, c.offset⟩

/-- The next character. -/
def peek (c : Cursor) : Option Char := c.rest.head?

/-- The character `n` places ahead. -/
def peekAt (c : Cursor) (n : Nat) : Option Char := c.rest[n]?

/-- Whether the next character is `ch`. -/
def sees (c : Cursor) (ch : Char) : Bool := c.peek = some ch

/-- The place after the next character. -/
def step (c : Cursor) : Cursor :=
  match c with
  | ⟨[], _, _, _, _, _⟩ => c
  | ⟨ch :: r, left, line, column, offset, h⟩ =>
    have h : left - 1 = r.length := by simp [h]
    -- of a carriage return and a line feed only the second one ends the line
    if ch = '\n' || (ch = '\r' && r.head? != some '\n') then
      ⟨r, left - 1, line + 1, 0, offset + 1, h⟩
    else if ch.toNat = 0xFEFF then ⟨r, left - 1, line, column, offset + 1, h⟩
    else ⟨r, left - 1, line, column + 1, offset + 1, h⟩

/-- The place `n` characters ahead. -/
def advance : Nat → Cursor → Cursor
  | 0, c => c
  | n + 1, c => advance n c.step

/-- The place after the characters at the start that satisfy `p`. -/
def skipWhile (p : Char → Bool) (c : Cursor) : Cursor :=
  advance (c.rest.takeWhile p).length c

/-- The place at the end of the line. -/
def skipLine (c : Cursor) : Cursor :=
  c.skipWhile fun ch => !endsLine (some ch)

/-- The line break at the cursor as a scalar keeps it, and the place after it.  The separators of
lines and paragraphs stay, every other break becomes a line feed. -/
def lineBreak? (c : Cursor) : Option (Char × Cursor) :=
  match c.rest with
  | [] => none
  | ch :: r =>
    if ch = '\r' && r.head? = some '\n' then some ('\n', c.advance 2)
    else if ch = '\n' || ch = '\r' || ch.toNat = 0x85 then some ('\n', c.step)
    else if isBreak ch then some (ch, c.step)
    else none

/-- The place after the line break at the cursor, or the same place when there is none. -/
def skipBreak (c : Cursor) : Cursor :=
  match c.lineBreak? with
  | some (_, d) => d
  | none => c

/-- Whether three equal characters stand here as a word of their own. -/
def atTriple (c : Cursor) (ch : Char) : Bool :=
  c.rest.take 3 = [ch, ch, ch] && endsWord (c.peekAt 3)

/-- Whether a mark between documents stands here. -/
def atSeparator (c : Cursor) : Bool :=
  c.atTriple '-' || c.atTriple '.'

/-! ## Where a cursor gets to -/

/-- A step takes one character, unless the text is at its end. -/
theorem rest_step (c : Cursor) : c.step.rest = c.rest.tail := by
  unfold step
  split
  · rfl
  · dsimp only [List.tail_cons]
    split
    · rfl
    · split <;> rfl

/-- Several steps take as many characters, as far as there are any. -/
theorem rest_advance (n : Nat) (c : Cursor) : (c.advance n).rest = c.rest.drop n := by
  induction n generalizing c with
  | zero => rfl
  | succ n ih => rw [advance, ih, rest_step, List.drop_tail]

/-- What is left after skipping starts with no character of the class. -/
theorem rest_skipWhile (p : Char → Bool) (c : Cursor) :
    (c.skipWhile p).rest = c.rest.dropWhile p := by
  rw [skipWhile, rest_advance]
  induction c.rest with
  | nil => rfl
  | cons ch r ih =>
    by_cases h : p ch
    · simp [h, ih]
    · simp [h]

end Cursor

end DesignTokens.Yaml
