import DesignTokens.Data
import DesignTokens.Fault
import DesignTokens.Number.Numeral
import DesignTokens.Text.Lowercase
import DesignTokens.Text.Parts
import DesignTokens.Yaml.Token

/-!
# What scalars mean

A scalar without quotation marks and without a tag gets its tag from its text, and the version of
the language says how.  A tag then says which value the text stands for.
-/

namespace DesignTokens.Yaml

/-! ## Tags of scalars -/

/-- The tags of scalars that have a meaning. -/
inductive ScalarTag where
  /-- Nothing. -/
  | null
  /-- A truth value. -/
  | bool
  /-- An integer. -/
  | int
  /-- A double precision number. -/
  | float
  /-- A date, with or without a time. -/
  | timestamp
  /-- Bytes in base 64. -/
  | binary
  | text
  /-- A collection, which no scalar is. -/
  | collection
  /-- A tag without a meaning. -/
  | unknown
deriving DecidableEq

/-- What the tags of the language start with. -/
def standardTag : String := "tag:yaml.org,2002:"

def ScalarTag.ofName (tag : String) : ScalarTag :=
  let standard : List (String × ScalarTag) :=
    [("null", .null), ("bool", .bool), ("int", .int), ("float", .float),
     ("timestamp", .timestamp), ("binary", .binary), ("str", .text), ("seq", .collection),
     ("map", .collection), ("set", .collection), ("omap", .collection), ("pairs", .collection)]
  ((standard.find? fun p => standardTag ++ p.1 = tag).map (·.2)).getD .unknown

/-! ## The shapes of numbers -/

/-- A digit of ASCII or an underscore. -/
def isLooseDigit (c : Char) : Bool := c.isDigit || c = '_'

/-- Whether a text has a character, and all of them satisfy `p`. -/
def isRun (p : Char → Bool) (s : List Char) : Bool := !s.isEmpty && s.all p

/-- The text without one sign at its start. -/
def dropSign : List Char → List Char
  | '+' :: r => r
  | '-' :: r => r
  | r => r

/-- Whether a text is an exponent; `signed` asks for a sign. -/
def isPower (signed : Bool) : List Char → Bool
  | c :: r =>
    (c = 'e' || c = 'E') &&
      (match r with
        | '+' :: t => isRun Char.isDigit t
        | '-' :: t => isRun Char.isDigit t
        | t => !signed && isRun Char.isDigit t)
  | [] => false

/-- The text after the digits and underscores at its start, when the first one is a digit. -/
def afterDigits? (s : List Char) : Option (List Char) :=
  match s with
  | c :: _ => if c.isDigit then some (s.dropWhile isLooseDigit) else none
  | [] => none

/-- Whether a text is a number below sixty with one or two digits. -/
def isSixtieth : List Char → Bool
  | [a] => a.isDigit
  | [a, b] => '0' ≤ a && a ≤ '5' && b.isDigit
  | _ => false

/-- Whether a text is an integer to the base sixty, with colons between its digits. -/
def isSexagesimal (leadingZero : Bool) (s : List Char) : Bool :=
  match Text.parts ':' (dropSign s) with
  | first :: second :: rest =>
    (match first with
      | c :: r => c.isDigit && (leadingZero || c ≠ '0') && r.all isLooseDigit
      | [] => false) && (second :: rest).all isSixtieth
  | _ => false

/-- Whether a text is a decimal number with a point or an exponent. -/
def isDecimalFraction (version : Version) (s : List Char) : Bool :=
  let bare := dropSign s
  let plain :=
    match afterDigits? bare with
    | some ('.' :: r) =>
      let t := r.dropWhile isLooseDigit
      t.isEmpty || isPower false t
    | some r => isPower false r
    | none => false
  let pointFirst :=
    match if version = .v11 then s else bare with
    | '.' :: r =>
      let t := r.dropWhile isLooseDigit
      t.length < r.length && (t.isEmpty || isPower true t)
    | _ => false
  plain || pointFirst

/-- Whether a text is a number to the base sixty with a point. -/
def isSexagesimalFraction (s : List Char) : Bool :=
  let head := s.takeWhile (· ≠ '.')
  match s.dropWhile (· ≠ '.') with
  | '.' :: r => isSexagesimal true head && r.all isLooseDigit
  | _ => false

/-- Whether a text is one of the words for numbers without digits. -/
def isWordFloat (s : List Char) : Bool :=
  [".inf", ".Inf", ".INF"].any (·.toList = dropSign s) ||
    [".nan", ".NaN", ".NAN"].any (·.toList = s)

/-- Whether a text has the shape of a double precision number. -/
def looksFloat (version : Version) (s : List Char) : Bool :=
  isDecimalFraction version s || isWordFloat s ||
    (version = .v11 && isSexagesimalFraction s)

/-- Whether a text has the shape of an integer. -/
def looksInt (version : Version) (s : List Char) : Bool :=
  let bare := dropSign s
  let isBit (c : Char) : Bool := c = '0' || c = '1' || c = '_'
  let isOctal (c : Char) : Bool := ('0' ≤ c && c ≤ '7') || c = '_'
  let isHex (c : Char) : Bool :=
    c.isDigit || ('a' ≤ c && c ≤ 'f') || ('A' ≤ c && c ≤ 'F') || c = '_'
  let marked :=
    match bare with
    | '0' :: 'b' :: r => isRun isBit r
    | '0' :: 'x' :: r => isRun isHex r
    | '0' :: 'o' :: r => version ≠ .v11 && isRun isOctal r
    | _ => false
  marked ||
    (if version = .v11 then
      isRun isOctal bare ||
        (match bare with
          | c :: r => c.isDigit && c ≠ '0' && r.all isLooseDigit
          | [] => false) ||
        isSexagesimal false s
    else isRun isLooseDigit bare)

/-! ## Dates -/

/-- A date, with a time where the text has one. -/
structure Timestamp where
  year : Nat
  month : Nat
  day : Nat
  /-- Hour, minute and second. -/
  time : Option (Nat × Nat × Nat)
  /-- The distance from universal time in minutes. -/
  offset : Int
  /-- Whether month and day have two digits, and no time follows. -/
  strict : Bool

/-- The number at the start of a text, of between `least` and `most` digits; as many are taken as
there are. -/
def takeNumber? (least most : Nat) (s : List Char) : Option (Nat × Nat × List Char) :=
  let digits := (s.take most).takeWhile Char.isDigit
  if digits.length < least then none
  else some (digits.foldl (fun n c => n * 10 + (c.toNat - 48)) 0, digits.length,
    s.drop digits.length)

/-- The text after a character. -/
def expect? (c : Char) : List Char → Option (List Char)
  | d :: r => if d = c then some r else none
  | [] => none

/-- The distance from universal time that ends a date. -/
def zone? (s : List Char) : Option Int :=
  match s with
  | [] => some 0
  | _ =>
    match s.dropWhile fun c => c = ' ' || c = '\t' with
    | ['Z'] => some 0
    | sign :: r =>
      if sign = '+' || sign = '-' then do
        let (hours, _, r) ← takeNumber? 1 2 r
        let minutes ←
          match r with
          | [] => some 0
          | _ => do
            let (m, _, r) ← (expect? ':' r).bind (takeNumber? 2 2)
            if r.isEmpty then some m else none
        let total : Int := hours * 60 + minutes
        some (if sign = '-' then -total else total)
      else none
    | [] => none

/-- The time after a date: hour, minute, second, and the distance from universal time. -/
def timeOfDay? (s : List Char) : Option ((Nat × Nat × Nat) × Int) := do
  let r ←
    match s with
    | 'T' :: r => some r
    | 't' :: r => some r
    | _ =>
      let r := s.dropWhile fun c => c = ' ' || c = '\t'
      if r.length < s.length then some r else none
  let (hour, _, r) ← takeNumber? 1 2 r
  let (minute, _, r) ← (expect? ':' r).bind (takeNumber? 2 2)
  let (second, _, r) ← (expect? ':' r).bind (takeNumber? 2 2)
  let r :=
    match r with
    | '.' :: t => t.dropWhile Char.isDigit
    | t => t
  let offset ← zone? r
  some ((hour, minute, second), offset)

/-- The date that a text has the shape of. -/
def Timestamp.ofText? (s : List Char) : Option Timestamp := do
  let (year, _, r) ← takeNumber? 4 4 s
  let (month, monthDigits, r) ← (expect? '-' r).bind (takeNumber? 1 2)
  let (day, dayDigits, r) ← (expect? '-' r).bind (takeNumber? 1 2)
  match r with
  | [] => some ⟨year, month, day, none, 0, monthDigits = 2 && dayDigits = 2⟩
  | _ => do
    let (time, offset) ← timeOfDay? r
    some ⟨year, month, day, some time, offset, true⟩

/-- Whether a year has a 29th of February. -/
def isLeapYear (year : Nat) : Bool :=
  year % 4 = 0 && (year % 100 ≠ 0 || year % 400 = 0)

/-- The number of days of a month. -/
def daysInMonth (year month : Nat) : Nat :=
  if month = 2 then if isLeapYear year then 29 else 28
  else if month = 4 || month = 6 || month = 9 || month = 11 then 30
  else 31

/-- The number of days before the first day of a year, counted from year one. -/
def daysBeforeYear (year : Nat) : Nat :=
  let y := year - 1
  y * 365 + y / 4 - y / 100 + y / 400

/-- The number of days before the first day of a month in its year. -/
def daysBeforeMonth (year month : Nat) : Nat :=
  ((List.range (month - 1)).map fun m => daysInMonth year (m + 1)).foldl (· + ·) 0

namespace Timestamp

/-- Whether the numbers are those of a day and a time, in the years 1 to 9999. -/
def isValid (t : Timestamp) : Bool :=
  1 ≤ t.year && 1 ≤ t.month && t.month ≤ 12 && 1 ≤ t.day && t.day ≤ daysInMonth t.year t.month &&
    (match t.time with
      | none => true
      | some (hour, minute, second) => hour < 24 && minute < 60 && second < 60)

/-- Whether the time is still in the years 1 to 9999 as universal time. -/
def isInRange (t : Timestamp) : Bool :=
  match t.time with
  | none => true
  | some (hour, minute, _) =>
    let days := daysBeforeYear t.year + daysBeforeMonth t.year t.month + (t.day - 1)
    let minutes : Int := days * 1440 + hour * 60 + minute - t.offset
    0 ≤ minutes && minutes < daysBeforeYear 10000 * 1440

end Timestamp

/-! ## Tags from texts -/

/-- The words for truth values. -/
def boolWords (version : Version) : List String :=
  ["true", "True", "TRUE", "false", "False", "FALSE"] ++
    if version = .v11 then
      ["y", "Y", "yes", "Yes", "YES", "n", "N", "no", "No", "NO", "on", "On", "ON", "off", "Off",
       "OFF"]
    else []

/-- The tag that a text without quotation marks gets. -/
def impliedTag (version : Version) (text : List Char) : ScalarTag :=
  let s := if text.getLast? = some '\n' && text.length ≠ 1 then text.dropLast else text
  let starts (chars : String) : Bool :=
    match s with
    | c :: _ => chars.toList.contains c
    | [] => false
  -- the first shape that fits counts, and a fraction may have the shape of an integer as well
  if (boolWords version).any (·.toList = s) then .bool
  else if starts "-+0123456789." && looksFloat version s then .float
  else if starts "-+0123456789" && looksInt version s then .int
  else if s.isEmpty || ["~", "null", "Null", "NULL"].any (·.toList = s) then .null
  else if ((Timestamp.ofText? s).map (·.strict)).getD false then .timestamp
  else if ["<<", "=", "!", "&", "*"].any (·.toList = s) then .unknown
  else .text

/-! ## Values of texts -/

/-- The truth value of a word. -/
def readBool (s : List Char) : Except Fault Data :=
  let word := String.ofList (Text.lower s)
  if ["yes", "y", "true", "on"].contains word then .ok (.bool true)
  else if ["no", "n", "false", "off"].contains word then .ok (.bool false)
  else .error .unknownName

/-- An optional number, or the fault of a text that is none. -/
def orUnreadable {α : Type} : Option α → Except Fault α
  | some a => .ok a
  | none => .error .unreadable

/-- The integer of the digits to the base sixty between colons. -/
def readSixties (parts : List (List Char)) : Option Int :=
  parts.foldl (fun value part => do
    let value ← value
    let digit ← Numeral.int? 10 part
    some (value * 60 + digit)) (some 0)

/-- The integer of a text. -/
def readInt (version : Version) (text : List Char) : Except Fault Int := do
  let s := text.filter (· ≠ '_')
  if s.isEmpty then throw .outOfBounds
  let negative := s.head? = some '-'
  let s := dropSign s
  let value ←
    if s = ['0'] then pure 0
    else
      match s with
      | '0' :: 'b' :: r => orUnreadable (Numeral.int? 2 r)
      | '0' :: 'x' :: r => orUnreadable (Numeral.int? 16 r)
      | '0' :: 'o' :: r => orUnreadable (Numeral.int? 8 r)
      | _ =>
        if version = .v11 && s.isEmpty then throw .outOfBounds
        else if version = .v11 && s.head? = some '0' then orUnreadable (Numeral.int? 8 s)
        else if version = .v11 && s.contains ':' then orUnreadable (readSixties (Text.parts ':' s))
        else orUnreadable (Numeral.int? 10 s)
  return if negative then -value else value

/-- The number of the digits to the base sixty between colons. -/
def readSixtieths (parts : List (List Char)) : Except Fault Binary64 := do
  let digits ← parts.mapM fun part => orUnreadable (Numeral.float? part)
  let (value, _) ← digits.reverse.foldlM (fun ((value, base) : Binary64 × Int) digit => do
    match Binary64.ofInt? base with
    | some b => pure (value.add (digit.mul b), base * 60)
    | none => throw Fault.tooLarge) (Binary64.zero false, 1)
  return value

/-- The double precision number of a text. -/
def readFloat (version : Version) (text : List Char) : Except Fault Binary64 := do
  let s := Text.lower (text.filter (· ≠ '_'))
  if s.isEmpty then throw .outOfBounds
  let negative := s.head? = some '-'
  let s := dropSign s
  let value ←
    if s = ".inf".toList then pure (.infinity false)
    else if s = ".nan".toList then pure .nan
    else if version ≠ .v12 && s.contains ':' then readSixtieths (Text.parts ':' s)
    else orUnreadable (Numeral.float? s)
  return if negative then value.neg else value

/-- Whether the characters from a place on, `filled` characters into a group of four, are bytes in
base 64; `pads` counts the padding just before the place. -/
def isBase64 (filled pads : Nat) : List Char → Bool
  | [] => filled = 0
  | c :: r =>
    if c = '=' then
      if 2 ≤ filled then (4 ≤ filled + pads + 1) || isBase64 filled (pads + 1) r
      else isBase64 filled pads r
    else if c.isAlphanum || c = '+' || c = '/' then isBase64 ((filled + 1) % 4) 0 r
    else isBase64 filled pads r

/-- The value of a scalar.  Bytes, dates and collections stay texts. -/
def readScalar (version : Version) (tag : ScalarTag) (text : String) : Except Fault Data :=
  let s := text.toList
  match tag with
  | .null => .ok .null
  | .bool => readBool s
  | .int => (readInt version s).map .int
  | .float => (readFloat version s).map .float
  | .text => .ok (.text text)
  | .collection => .ok (.text text)
  | .binary =>
    if s.all (·.toNat < 128) && isBase64 0 0 s then .ok (.text text) else .error .unknownTag
  | .timestamp =>
    let bare := if s.getLast? = some '\n' then s.dropLast else s
    match Timestamp.ofText? bare with
    | none => .error .unknownTag
    | some t =>
      if !t.isValid then .error .unreadable
      else if !t.isInRange then .error .tooLarge
      else .ok (.text text)
  | .unknown => .error .unknownTag

end DesignTokens.Yaml
