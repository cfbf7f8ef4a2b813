import DesignTokens.Data
import DesignTokens.Number.Numeral

/-!
# Typed fields

Options and settings come as data, and every field has a type.  A value is taken when it is of that
type or can be read as one; otherwise the field is reported, together with all others that are
wrong.
-/

namespace DesignTokens.Field

/-! ## Errors -/

/-- What is wrong with a field. -/
inductive Problem where
  /-- It is not there. -/
  | missing
  | notText
  | notList
  | notPath
  /-- It is nothing that stands for an integer. -/
  | notInteger
  /-- Its text is no integer. -/
  | unreadableInteger
  /-- It is a number between two integers. -/
  | fractional
  /-- It is no finite number. -/
  | notFinite
  | tooManyDigits
  /-- It is nothing that stands for a truth value. -/
  | notFlag
  /-- Its text or number is no truth value. -/
  | unreadableFlag
deriving DecidableEq

/-- A field that is wrong. -/
structure Error where
  /-- The names and positions that lead to the field. -/
  place : List String
  /-- What is wrong. -/
  problem : Problem
deriving DecidableEq

/-- A value that was checked, or all that is wrong. -/
abbrev Checked (α : Type) := Except (List Error) α

/-- All that is wrong with a value. -/
def errors {α : Type} : Checked α → List Error
  | .ok _ => []
  | .error es => es

/-- The checked value of the field of a name. -/
def named {α : Type} (name : String) (x : Except Problem α) : Checked α :=
  x.mapError fun p => [⟨[name], p⟩]

/-- Two checked values together. -/
def both {α β : Type} (a : Checked α) (b : Checked β) : Checked (α × β) :=
  match a, b with
  | .ok x, .ok y => .ok (x, y)
  | a, b => .error (errors a ++ errors b)

/-- Two values together are wrong where one of them is. -/
theorem errors_both {α β : Type} (a : Checked α) (b : Checked β) :
    errors (both a b) = errors a ++ errors b := by
  cases a <;> cases b <;> rfl

/-! ## Texts -/

def text : Data → Except Problem String
  | .scalar (.text s) => .ok s
  | _ => .error .notText

/-- The texts of a list; `n` is the position of the first one. -/
def textItems (name : String) (n : Nat) : List Data → Checked (List String)
  | [] => .ok []
  | d :: ds =>
    let first : Checked String := (text d).mapError fun p => [⟨[name, toString n], p⟩]
    (both first (textItems name (n + 1) ds)).map fun (s, ss) => s :: ss

/-- The list of texts of a field. -/
def texts (name : String) : Data → Checked (List String)
  | .list ds => textItems name 0 ds
  | _ => .error [⟨[name], .notList⟩]

/-! ## Integers -/

/-- The text of a number without the zeros that lead it and the underscores between them; the last
zero stays when no other digit follows.  A number starts with a digit or a minus sign, and behind a
minus sign all zeros stay. -/
def withoutZeros? (s : List Char) : Option (List Char) :=
  match s with
  | [] => none
  | '0' :: r => afterZero '0' r
  | c :: _ => if c.isDigit || c = '-' then some s else none
where
  /-- What follows a zero or an underscore `last`. -/
  afterZero (last : Char) : List Char → Option (List Char)
    | [] => some [last]
    | c :: r =>
      if c = '0' || c = '_' then afterZero c r
      else if c.isDigit then some (c :: r)
      else if c = '.' then some (last :: c :: r)
      else none

/-- A text without the fraction at its end, when the fraction has zeros only. -/
def withoutFraction (s : List Char) : List Char :=
  match s.dropWhile (· ≠ '.') with
  | _ :: c :: r => if (c :: r).all (· = '0') then s.takeWhile (· ≠ '.') else s
  | _ => s

/-- A text without its underscores, which may stand neither at an end nor next to each other. -/
def withoutUnderscores? (s : List Char) : Option (List Char) :=
  if s.head? = some '_' || s.getLast? = some '_' || (s.zip s.tail).contains ('_', '_') then none
  else some (s.filter (· ≠ '_'))

/-- The text of an integer with nothing but a minus sign and digits. -/
def plainInteger? (s : List Char) : Option (List Char) :=
  let unsigned? :=
    match s with
    | '+' :: '-' :: _ => none
    | '+' :: r => some r
    | r => some r
  ((unsigned?.bind withoutZeros?).map withoutFraction).bind withoutUnderscores?

/-- The number of digits. -/
def ofDigits? (s : List Char) : Option Nat :=
  if s.isEmpty || !s.all Char.isDigit then none
  else some (s.foldl (fun n c => n * 10 + (c.toNat - 48)) 0)

/-- The most bytes of the text of an integer, without what does not count. -/
def maxLength : Nat := 4300

/-- The integer that a text is, with blanks around it. -/
def integerOfText (s : String) : Except Problem Int :=
  match plainInteger? (Numeral.bare s.toList) with
  | none => .error .unreadableInteger
  | some plain =>
    if maxLength < (String.ofList plain).utf8ByteSize then .error .tooManyDigits
    else
      let value? : Option Int :=
        match plain with
        | '-' :: r => (ofDigits? r).map fun n => -(n : Int)
        | r => (ofDigits? r).map fun n => (n : Int)
      match value? with
      | some i => .ok i
      | none => .error .unreadableInteger

/-- The integer that a number is; it has to be near enough to zero. -/
def integerOfFloat (x : Binary64) : Except Problem Int :=
  match x.shape, x.toInt? with
  | .finite .., some i => if i.natAbs < Nat.pow 2 63 then .ok i else .error .tooManyDigits
  | .finite .., none => .error .fractional
  | _, _ => .error .notFinite

/-- An integer: also a truth value, a number or a text that is one. -/
def integer : Data → Except Problem Int
  | .scalar (.bool b) => .ok (if b then 1 else 0)
  | .scalar (.int i) => .ok i
  | .scalar (.float x) => integerOfFloat x
  | .scalar (.text s) => integerOfText s
  | _ => .error .notInteger

/-! ## Truth values -/

/-- The texts for a truth value that holds. -/
def trueWords : List String := ["1", "on", "t", "true", "y", "yes"]

/-- The texts for a truth value that does not hold. -/
def falseWords : List String := ["0", "off", "f", "false", "n", "no"]

/-- The truth value that an integer is. -/
def flagOfInt (i : Int) : Except Problem Bool :=
  if i = 0 then .ok false else if i = 1 then .ok true else .error .unreadableFlag

/-- The truth value that a text is, in letters of any case. -/
def flagOfText (s : String) : Except Problem Bool :=
  let small := String.ofList (s.toList.map Char.toLower)
  if trueWords.contains small then .ok true
  else if falseWords.contains small then .ok false
  else .error .unreadableFlag

/-- A truth value: also a number or a text that is one. -/
def flag : Data → Except Problem Bool
  | .scalar (.bool b) => .ok b
  | .scalar (.int i) => if -Int.pow 2 63 ≤ i && i < Int.pow 2 63 then flagOfInt i else .error .notFlag
  | .scalar (.float x) =>
    match integerOfFloat x with
    | .ok i => flagOfInt i
    | .error _ => .error .notFlag
  | .scalar (.text s) => flagOfText s
  | _ => .error .notFlag

end DesignTokens.Field
