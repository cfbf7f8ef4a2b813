import DesignTokens.Yaml.Lexeme.Property

/-!
# Scalars as they are written

Readers for plain, quoted and block scalars.  Line breaks inside a scalar fold: a single one
becomes a blank, and of several the first one is dropped.
-/

namespace DesignTokens.Yaml.Lexeme

/-- What the readers of scalars know about the place of the scalar. -/
structure Setting where
  /-- The version of the language. -/
  version : Version
  /-- Whether the scalar stands between brackets. -/
  inFlow : Bool
  /-- The column of the innermost block collection, -1 outside all of them. -/
  indent : Int

/-- How a break and the breaks after it fold. -/
def foldBreaks (first : Char) (more : List Char) : List Char :=
  if first ≠ '\n' then first :: more
  else if more.isEmpty then [' ']
  else more

/-! ## Plain scalars -/

/-- Whether a plain scalar ends at `c`, when `next` follows it. -/
def endsPlain (setting : Setting) (c : Char) (next : Option Char) : Bool :=
  if c = ':' && !endsWord next then false
  else if c = '?' && setting.version ≠ .v11 then false
  else
    endsWord (some c) || (!setting.inFlow && c = ':' && endsWord next) ||
      (setting.inFlow && ",:?[]\x7b\x7d".toList.contains c)

/-- The characters at the start of a text that belong to a plain scalar. -/
def plainRun (setting : Setting) : List Char → List Char
  | [] => []
  | c :: r => if endsPlain setting c r.head? then [] else c :: plainRun setting r

/-- Reads blanks and line breaks inside a plain scalar; the answer has the breaks, first to last,
and says whether the scalar ends at a mark between documents. -/
def plainBreaks : (fuel : Nat) → (done : List Char) → Cursor → List Char × Bool × Cursor
  | 0, done, c => (done.reverse, false, c)
  | fuel + 1, done, c =>
    if c.sees ' ' then plainBreaks fuel done c.step
    else
      match c.lineBreak? with
      | some (b, d) =>
        if d.atSeparator then ((b :: done).reverse, true, d) else plainBreaks fuel (b :: done) d
      | none => (done.reverse, false, c)

/-- What stands between two runs of a plain scalar. -/
structure Gap where
  /-- The text that it folds to; empty when the scalar ends. -/
  text : List Char
  /-- Whether it has a line break. -/
  hasBreak : Bool
  /-- The place after it. -/
  after : Cursor

/-- Reads what stands between two runs of a plain scalar. -/
def plainGap (c : Cursor) : Gap :=
  let (blanks, c) := takeRun (· = ' ') c
  match c.lineBreak? with
  | none => ⟨blanks, false, c⟩
  | some (b, d) =>
    if d.atSeparator then ⟨[], true, d⟩
    else
      match plainBreaks d.left [] d with
      | (_, true, e) => ⟨[], true, e⟩
      | (more, false, e) => ⟨foldBreaks b more, true, e⟩

/-- A plain scalar as it was read. -/
structure PlainScalar where
  text : List Char
  /-- The place after its last run. -/
  stop : Mark
  /-- Whether the last thing read was a line break. -/
  brokeLine : Bool

/-- Reads the runs of a plain scalar.  `gap` is what stood before the next run, `scalar` what was
read before that, and the cursor stands after the gap. -/
def plainRuns (setting : Setting) : (fuel : Nat) → (gap : List Char) → PlainScalar → Cursor →
    PlainScalar × Cursor
  | 0, _, scalar, c => (scalar, c)
  | fuel + 1, gap, scalar, c =>
    let run := plainRun setting c.rest
    if c.sees '#' || run.isEmpty then (scalar, c)
    else
      let d := c.advance run.length
      let between := plainGap d
      let scalar := ⟨scalar.text ++ gap ++ run, d.mark, between.hasBreak⟩
      let e := between.after
      -- a comment ends the scalar, and so does a line that starts before its collection
      if between.text.isEmpty || e.sees '#' || (!setting.inFlow && e.column < setting.indent + 1)
      then (scalar, e)
      else plainRuns setting fuel between.text scalar e

/-- Reads a plain scalar. -/
def plainScalar (setting : Setting) (c : Cursor) : PlainScalar × Cursor :=
  plainRuns setting (c.left + 1) [] ⟨[], c.mark, false⟩ c

/-! ## Quoted scalars -/

/-- The character that a backslash and `c` stand for. -/
def escaped? (c : Char) : Option Char :=
  ([('0', 0x00), ('a', 0x07), ('b', 0x08), ('t', 0x09), ('\t', 0x09), ('n', 0x0A), ('v', 0x0B),
    ('f', 0x0C), ('r', 0x0D), ('e', 0x1B), (' ', 0x20), ('"', 0x22), ('/', 0x2F), ('\\', 0x5C),
    ('N', 0x85), ('_', 0xA0), ('L', 0x2028), ('P', 0x2029)].find? (·.1 = c)).map
    fun p => Char.ofNat p.2

/-- The number of hexadecimal digits after a backslash and `c`. -/
def escapeWidth? (c : Char) : Option Nat :=
  if c = 'x' then some 2 else if c = 'u' then some 4 else if c = 'U' then some 8 else none

/-- The first of the next `n` characters that is no hexadecimal digit. -/
def firstNonHex : (n : Nat) → List Char → Option (Option Char)
  | 0, _ => none
  | _ + 1, [] => some none
  | n + 1, c :: r => if isHexDigit c then firstNonHex n r else some (some c)

/-- Whether a number is the first half of a pair. -/
def isHighHalf (n : Nat) : Bool := 0xD800 ≤ n && n ≤ 0xDBFF

/-- Whether a number is the second half of a pair. -/
def isLowHalf (n : Nat) : Bool := 0xDC00 ≤ n && n ≤ 0xDFFF

/-- The code of a second half that follows as an escape with four digits. -/
def lowHalf? (s : List Char) : Option Nat :=
  match s with
  | '\\' :: 'u' :: r =>
    if (firstNonHex 4 r).isNone && isLowHalf (hexNumber (r.take 4)) then
      some (hexNumber (r.take 4))
    else none
  | _ => none

/-- Reads the digits of an escape.  Two escapes that are halves of a pair are one character, as in
JSON, and a half on its own is the replacement character: no text holds a half. -/
def numericEscape (width : Nat) (c : Cursor) : Result Char :=
  match firstNonHex width c.rest with
  | some found => fail (.expectedEscape width found) c
  | none =>
    let code := hexNumber (c.rest.take width)
    let d := c.advance width
    if Nat.pow 2 31 ≤ code then .error (.fault .tooLarge)
    else if 0x110000 ≤ code then .error (.fault .unreadable)
    else if isHighHalf code then
      -- the second half of a pair is an escape of its own
      match lowHalf? d.rest with
      | some low =>
        .ok (Char.ofNat (0x10000 + (code - 0xD800) * 0x400 + (low - 0xDC00)), d.advance 6)
      | none => .ok (Char.ofNat 0xFFFD, d)
    else if isLowHalf code then .ok (Char.ofNat 0xFFFD, d)
    else .ok (Char.ofNat code, d)

/-- Reads blanks and line breaks after a line break inside quotation marks; the answer has the
breaks. -/
def quotedBreaks : (fuel : Nat) → (done : List Char) → Cursor → Result (List Char)
  | 0, done, c => .ok (done.reverse, c)
  | fuel + 1, done, c =>
    if c.atSeparator then fail .unexpectedSeparator c
    else
      let d := c.skipWhile fun ch => ch = ' ' || ch = '\t'
      match d.lineBreak? with
      | some (b, e) => quotedBreaks fuel (b :: done) e
      | none => .ok (done.reverse, d)

/-- Whether `c` stands for itself between quotation marks of either kind. -/
def isPlainQuoted (c : Char) : Bool :=
  !(c = ' ' || c = '\t' || c = '"' || c = Text.apostrophe || c = '\\' || isBreak c)

/-- Reads an escape from its backslash on. -/
def quotedEscape (c : Cursor) : Result (List Char) :=
  let d := c.step
  match d.peek with
  | none => fail (.unknownEscape none) d
  | some ch =>
    match escaped? ch, escapeWidth? ch with
    | some e, _ => .ok ([e], d.step)
    | none, some width =>
      match numericEscape width d.step with
      | .ok (e, r) => .ok ([e], r)
      | .error e => .error e
    | none, none =>
      if isBreak ch then quotedBreaks (d.left + 1) [] d.skipBreak
      else fail (.unknownEscape (some ch)) d

/-- Reads blanks and line breaks between quotation marks. -/
def quotedGap (c : Cursor) : Result (List Char) :=
  let (blanks, d) := takeRun (fun ch => ch = ' ' || ch = '\t') c
  match d.rest with
  | [] => fail .unexpectedEnd d
  | _ :: _ =>
    match d.lineBreak? with
    | none => .ok (blanks, d)
    | some (b, e) =>
      match quotedBreaks (e.left + 1) [] e with
      | .ok (more, e) => .ok (foldBreaks b more, e)
      | .error e => .error e

/-- Reads up to the closing quotation mark and over it; `double` asks for the double one, and
`done` holds what was read before, last first. -/
def quotedChars (double : Bool) : (fuel : Nat) → (done : List Char) → Cursor →
    Result (List Char)
  | 0, _, c => fail .unexpectedEnd c
  | fuel + 1, done, c =>
    match c.peek with
    | none => fail .unexpectedEnd c
    | some ch =>
      if isPlainQuoted ch then
        let (run, d) := takeRun isPlainQuoted c
        quotedChars double fuel (run.reverse ++ done) d
      else if !double && ch = Text.apostrophe && c.peekAt 1 = some Text.apostrophe then
        quotedChars double fuel (ch :: done) (c.advance 2)
      else if ch = (if double then '"' else Text.apostrophe) then .ok (done.reverse, c.step)
      else if ch = '"' || ch = Text.apostrophe || (!double && ch = '\\') then
        quotedChars double fuel (ch :: done) c.step
      else
        match if ch = '\\' then quotedEscape c else quotedGap c with
        | .ok (text, d) => quotedChars double fuel (text.reverse ++ done) d
        | .error e => .error e

/-- Reads a quoted scalar from its opening quotation mark on. -/
def quotedScalar (double : Bool) (c : Cursor) : Result String :=
  match quotedChars double (c.left + 1) [] c.step with
  | .ok (text, d) => .ok (String.ofList text, d)
  | .error e => .error e

/-! ## Block scalars -/

/-- What happens to the line breaks at the end of a block scalar. -/
inductive Chomping where
  /-- All go. -/
  | strip
  /-- The first one stays. -/
  | clip
  /-- All stay. -/
  | keep
deriving DecidableEq

/-- The header of a block scalar. -/
structure BlockHeader where
  /-- What happens to the line breaks at the end. -/
  chomping : Chomping
  /-- The indentation relative to the collection around it. -/
  increment : Option Nat

/-- Reads the sign for the line breaks at the end, if there is one. -/
def chompingMark? (c : Cursor) : Option (Chomping × Cursor) :=
  if c.sees '+' then some (.keep, c.step) else if c.sees '-' then some (.strip, c.step) else none

/-- Reads the digit of the indentation, if there is one. -/
def incrementMark? (c : Cursor) : Result (Option Nat) :=
  match c.peek with
  | some ch =>
    if ch = '0' then fail .zeroIndentation c
    else if ch.isDigit then .ok (some (ch.toNat - 48), c.step)
    else .ok (none, c)
  | none => .ok (none, c)

/-- Reads the header of a block scalar after its indicator: the sign and the digit in either
order. -/
def blockHeader (c : Cursor) : Result BlockHeader :=
  let answer : Result BlockHeader :=
    match chompingMark? c with
    | some (chomping, d) =>
      match incrementMark? d with
      | .ok (increment, e) => .ok (⟨chomping, increment⟩, e)
      | .error e => .error e
    | none =>
      match incrementMark? c with
      | .error e => .error e
      | .ok (none, d) => .ok (⟨.clip, none⟩, d)
      | .ok (some n, d) =>
        match chompingMark? d with
        | some (chomping, e) => .ok (⟨chomping, some n⟩, e)
        | none => .ok (⟨.clip, some n⟩, d)
  match answer with
  | .error e => .error e
  | .ok (header, d) =>
    if endsMark d.peek then .ok (header, d) else fail (.expectedIndicators d.peek) d

/-- The blank lines at the start of a block scalar without a given indentation. -/
structure LeadingLines where
  /-- Their line breaks, last first. -/
  breaks : List Char
  /-- The column of the first line break. -/
  firstColumn : Option Nat
  /-- The greatest column before a character that is no blank. -/
  maxColumn : Nat
  /-- The place after the last line break. -/
  stop : Mark

/-- Whether the first blank line has blanks, and something stands further in than they go. -/
def LeadingLines.isDeeper (lines : LeadingLines) : Bool :=
  match lines.firstColumn with
  | some n => 0 < n && n < lines.maxColumn
  | none => false

/-- Reads blanks and line breaks at the start of a block scalar. -/
def leadingLines : (fuel : Nat) → LeadingLines → Cursor → LeadingLines × Cursor
  | 0, lines, c => (lines, c)
  | fuel + 1, lines, c =>
    if c.sees ' ' then
      let d := c.step
      leadingLines fuel { lines with maxColumn := max lines.maxColumn d.column } d
    else
      match c.lineBreak? with
      | some (b, d) =>
        leadingLines fuel
          { lines with
            breaks := b :: lines.breaks
            firstColumn := lines.firstColumn <|> some c.column
            stop := d.mark } d
      | none => (lines, c)

/-- The place after the blanks before a column. -/
def skipIndent (indent : Nat) (c : Cursor) : Cursor :=
  c.advance ((c.rest.takeWhile (· = ' ')).length.min (indent - c.column))

/-- Reads blank lines inside a block scalar: their line breaks, last first, and the place after the
last one. -/
def blockBreaks (indent : Nat) : (fuel : Nat) → (done : List Char) → (stop : Mark) → Cursor →
    List Char × Mark × Cursor
  | 0, done, stop, c => (done, stop, c)
  | fuel + 1, done, stop, c =>
    let d := skipIndent indent c
    match d.lineBreak? with
    | some (b, e) => blockBreaks indent fuel (b :: done) e.mark e
    | none => (done, stop, d)

/-- Blank lines from a place on. -/
def blankLines (indent : Nat) (c : Cursor) : List Char × Mark × Cursor :=
  blockBreaks indent (c.left + 1) [] c.mark c

/-- What has been read of the lines of a block scalar. -/
structure BlockLines where
  /-- The text, last character first. -/
  text : List Char
  /-- The line break after the last line; the last line of the text may have none. -/
  lineBreak : Option Char
  /-- The line breaks of the blank lines after it, last first. -/
  breaks : List Char
  /-- The place after the last line break. -/
  stop : Mark

/-- Whether a block scalar has another line here. -/
def hasBlockLine (indent : Nat) (c : Cursor) : Bool :=
  c.column = indent && !c.rest.isEmpty

/-- Reads the lines of a block scalar.  `watch` asks to stop at a mark between documents. -/
def blockLines (folded watch : Bool) (indent : Nat) : (fuel : Nat) → BlockLines → Cursor →
    BlockLines × Cursor
  | 0, lines, c => (lines, c)
  | fuel + 1, lines, c =>
    if !hasBlockLine indent c then (lines, c)
    else
      let startsDark := !(c.sees ' ' || c.sees '\t')
      let (run, d) := takeRun (fun ch => !endsLine (some ch)) c
      let text := run.reverse ++ (lines.breaks ++ lines.text)
      let (lineBreak, e) :=
        match d.lineBreak? with
        | some (b, e) => (some b, e)
        | none => (none, d)
      let (breaks, stop, f) := blankLines indent e
      let lines := ⟨text, lineBreak, breaks, stop⟩
      if watch && f.column = 0 && f.atSeparator then (lines, f)
      else if !hasBlockLine indent f then (lines, f)
      else
        -- a line break folds between two lines that both start with something to see
        let joint :=
          if folded && lineBreak = some '\n' && startsDark && !(f.sees ' ' || f.sees '\t') then
            if breaks.isEmpty then [' '] else []
          else lineBreak.toList
        blockLines folded watch indent fuel { lines with text := joint ++ text } f

/-- Reads a block scalar from its indicator on: its text, and the place where it ends. -/
def blockScalar (folded : Bool) (setting : Setting) (c : Cursor) : Result (String × Mark) :=
  match blockHeader c.step with
  | .error e => .error e
  | .ok (header, d) =>
    match restOfLine d with
    | .error e => .error e
    | .ok e =>
      let outer := (setting.indent + 1).toNat
      -- without a digit in the header the first line with something to see sets the column
      let start : Except Failure (Bool × Nat × (List Char × Mark) × Cursor) :=
        match header.increment with
        | none =>
          let (lead, f) := leadingLines (e.left + 1) ⟨[], none, 0, e.mark⟩ e
          if lead.isDeeper then fail .deeperFirstLine f
          else .ok (outer == 0, max outer lead.maxColumn, (lead.breaks, lead.stop), f)
        | some n =>
          let indent := max 1 outer + n - 1
          let (breaks, stop, f) := blankLines indent e
          .ok (false, indent, (breaks, stop), f)
      match start with
      | .error e => .error e
      | .ok (watch, indent, first, f) =>
        let (lines, g) :=
          blockLines folded watch indent (f.left + 1) ⟨[], none, first.1, first.2⟩ f
        let text :=
          if header.chomping = .strip then lines.text else lines.lineBreak.toList ++ lines.text
        let text := if header.chomping = .keep then lines.breaks ++ text else text
        .ok ((String.ofList text.reverse, lines.stop), g)

end DesignTokens.Yaml.Lexeme
