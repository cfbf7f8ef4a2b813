import DesignTokens.Source.Span

/-!
# Code frames

A frame shows the line of a place with up to two lines around it, each with its number, and a caret
below the place.  Tabs in front of the place are kept, so that the caret stands right below it.
-/

namespace DesignTokens.Frame

/-! ## Styles -/

/-- The escape that ends every style. -/
def reset : String := "\x1b[0m"

/-- Bold print. -/
def bold : String := "\x1b[1m"

/-- Faint print. -/
def dim : String := "\x1b[2m"

/-- Red print. -/
def red : String := "\x1b[31m"

/-- A text in a style; an empty text needs none. -/
def styled (color : Bool) (codes text : String) : String :=
  if color && text ≠ "" then codes ++ text ++ reset else text

/-! ## Lines -/

/-- The lines of a text. -/
def lines : List Char → List (List Char)
  | [] => [[]]
  | c :: r =>
    if c = '\n' then [] :: lines r
    else
      match lines r with
      | [] => [[c]]
      | line :: rest => (c :: line) :: rest

/-- A text always has a line. -/
theorem lines_ne_nil (s : List Char) : lines s ≠ [] := by
  cases s with
  | nil => simp [lines]
  | cons c r =>
    unfold lines
    split
    · simp
    · split <;> simp

/-- The most lines that are shown before and after the line of the place. -/
def context : Nat := 2

/-- A number with blanks in front of it. -/
def padded (width : Nat) (text : String) : String :=
  String.ofList (List.replicate (width - text.length) ' ') ++ text

/-- A text as blanks; tabs stay. -/
def blanks (s : List Char) : String :=
  String.ofList (s.map fun c => if c = '\t' then '\t' else ' ')

/-- A line with its number; `target` asks for the mark of the place. -/
def codeLine (color target : Bool) (width number : Nat) (text : List Char) : String :=
  let marker := if target then styled color (bold ++ red) ">" else " "
  let gutter := styled color dim (" " ++ padded width (toString number) ++ " |")
  marker ++ gutter ++ if text.isEmpty then "" else " " ++ String.ofList text

/-- The line with the caret below a column. -/
def caretLine (color : Bool) (width : Nat) (column : Int) (text : List Char) : String :=
  let gutter := styled color dim (" " ++ padded width "" ++ " |")
  " " ++ gutter ++ " " ++ blanks (text.take (column - 1).toNat) ++ styled color (bold ++ red) "^"

/-- The frame of a place in a text; an empty text has none. -/
def render (color : Bool) (source : String) (span : Span) : String :=
  if source = "" then ""
  else
    let all := lines source.toList
    -- a place outside of the text is shown at its first or its last line
    let target := ((min (max span.line 1) all.length) - 1).toNat
    let first := target - context
    let last := min (target + context + 1) all.length
    let width := (toString last).length
    let shown := ((all.drop first).take (last - first)).zipIdx first
    "\n".intercalate (shown.flatMap fun (text, index) =>
      let line := codeLine color (index = target) width (index + 1) text
      if index = target then [line, caretLine color width span.column text] else [line])

/-- A message with the frame of a place below it. -/
def withMessage (color : Bool) (message source : String) (span : Span) : String :=
  let heading := styled color bold message
  match render color source span with
  | "" => heading
  | frame => heading ++ "\n\n" ++ frame

end DesignTokens.Frame
