import DesignTokens.Text.Printable

/-!
# Wording of messages

A message shows a text in quotation marks, with a backslash before what would be misread and a
number for what cannot be printed.  It lists what it would have accepted as `a`, `a or b` or
`a, b, or c`, and writes large numbers with a comma after every three digits from the right.
-/

namespace DesignTokens.Text

/-! ## Quoted texts -/

/-- The small hexadecimal digit of `n`, for `n < 16`. -/
def hexDigit (n : Nat) : Char :=
  if n < 10 then Char.ofNat (48 + n) else Char.ofNat (87 + n)

/-- The last `width` hexadecimal digits of `n`. -/
def hexDigits : (width n : Nat) → List Char
  | 0, _ => []
  | w + 1, n => hexDigits w (n / 16) ++ [hexDigit (n % 16)]

/-- How a quoted text shows `c`, when `mark` is the quotation mark around it. -/
def quotedChar (mark c : Char) : List Char :=
  if c = mark ∨ c = '\\' then ['\\', c]
  else if c = '\n' then ['\\', 'n']
  else if c = '\r' then ['\\', 'r']
  else if c = '\t' then ['\\', 't']
  else if isPrintable c then [c]
  else if c.toNat < 0x100 then '\\' :: 'x' :: hexDigits 2 c.toNat
  else if c.toNat < 0x10000 then '\\' :: 'u' :: hexDigits 4 c.toNat
  else '\\' :: 'U' :: hexDigits 8 c.toNat

/-- The apostrophe, the usual quotation mark. -/
def apostrophe : Char := Char.ofNat 39

/-- The quotation mark for a text: an apostrophe, unless the text has apostrophes and no double
quotation marks. -/
def quotationMark (s : List Char) : Char :=
  if s.contains apostrophe && !s.contains '"' then '"' else apostrophe

/-- The text in quotation marks, as messages show it. -/
def quoted (s : List Char) : List Char :=
  let mark := quotationMark s
  mark :: s.flatMap (quotedChar mark) ++ [mark]

/-- The text in quotation marks, as messages show it. -/
def quote (s : String) : String :=
  String.ofList (quoted s.toList)

/-! ## Choices -/

/-- The choices as one phrase; there is no phrase for no choice. -/
def choices? : List String → Option String
  | [] => none
  | [a] => some a
  | [a, b] => some (a ++ " or " ++ b)
  | items => items.getLast?.map fun last => ", ".intercalate items.dropLast ++ ", or " ++ last

/-- The choices as one phrase, empty when there is no choice. -/
def choices (items : List String) : String :=
  (choices? items).getD ""

/-! ## Numbers with thousands marked -/

/-- Digits from the right, with a comma after every three; `count` digits of the current three were
written before. -/
def groupFromRight (count : Nat) : List Char → List Char
  | [] => []
  | c :: r =>
    if count = 3 then ',' :: c :: groupFromRight 1 r else c :: groupFromRight (count + 1) r

/-- A number with its thousands marked. -/
def grouped (n : Nat) : String :=
  String.ofList (groupFromRight 0 (toString n).toList.reverse).reverse

/-- An integer with its thousands marked. -/
def groupedInt (i : Int) : String :=
  if i < 0 then "-" ++ grouped i.natAbs else grouped i.natAbs

/-- Without the commas the digits are those of the number. -/
theorem filter_groupFromRight (count : Nat) (s : List Char) (h : ∀ c ∈ s, c ≠ ',') :
    (groupFromRight count s).filter (· ≠ ',') = s := by
  induction s generalizing count with
  | nil => rfl
  | cons c r ih =>
    have hc : c ≠ ',' := h c (by simp)
    have hr := fun n => ih n fun d hd => h d (by simp [hd])
    by_cases h3 : count = 3 <;> simpa [groupFromRight, h3, hc] using hr _

end DesignTokens.Text
