/-!
# Globs

Patterns over whole texts: `*` stands for any characters, `?` for one character, `[seq]` for one
character of a set and `[!seq]` for one outside it.  A bracket that is not closed stands for
itself.
-/

namespace DesignTokens.Text

/-- The members of a bracketed set: single characters are ranges of length one. -/
abbrev CharSet := List (Char × Char)

/-- One part of a glob. -/
inductive GlobItem where
  /-- Any characters, also none. -/
  | any
  /-- One character, whichever it is. -/
  | one
  /-- One character in the set, or outside it. -/
  | set (negated : Bool) (members : CharSet)
  /-- That character. -/
  | literal (c : Char)

namespace GlobItem

/-! ## Sets -/

/-- The pieces of the text between brackets, which are divided by the hyphens that make ranges: a
hyphen makes a range when it has a character before it and one after it that are of no other range.
`skip` counts the characters that have to come before the next such hyphen, and `piece` holds what
was read of the first piece, last character first. -/
def pieces : (skip : Nat) → (piece : List Char) → List Char → List (List Char)
  | _, piece, [] => [piece.reverse]
  | 0, piece, '-' :: d :: r => piece.reverse :: pieces 2 [] (d :: r)
  | skip, piece, c :: r => pieces (skip - 1) (c :: piece) r

/-- Takes out the ranges that hold nothing because their first character comes after their last:
what stands around them then makes one piece. -/
def dropEmptyRanges : List (List Char) → List (List Char)
  | [] => []
  | piece :: r =>
    match dropEmptyRanges r with
    | [] => [piece]
    | next :: rest =>
      match piece.getLast?, next.head? with
      | some first, some last =>
        if last < first then (piece.dropLast ++ next.tail) :: rest else piece :: next :: rest
      | _, _ => piece :: next :: rest

/-- The members of pieces: their characters, and the ranges between one piece and the next. -/
def membersOf : List (List Char) → CharSet
  | [] => []
  | [piece] => piece.map fun c => (c, c)
  | piece :: next :: r =>
    (piece.map fun c => (c, c)) ++ (piece.getLast?.toList.zip next.head?.toList) ++
      membersOf (next :: r)

/-- The set that a text between brackets stands for.  Whether it starts with an exclamation mark
counts after empty ranges are taken out. -/
def setOf (body : List Char) : GlobItem :=
  let skip := if body.head? = some '!' then 2 else 1
  match dropEmptyRanges (pieces skip [] body) with
  | ['!'] :: next :: r =>
    -- the mark is no character of the set, so nothing is left for the hyphen to make a range of
    .set true (('-', '-') :: membersOf (next :: r))
  | ('!' :: piece) :: r => .set true (membersOf (piece :: r))
  | all => .set false (membersOf all)

/-- What a set matches: with no member left, nothing, or anything when negated. -/
def holds (negated : Bool) (members : CharSet) (c : Char) : Bool :=
  (members.any fun m => m.1 ≤ c && c ≤ m.2) != negated

/-- Splits the text after an opening bracket into the body of the set and what follows the
closing bracket.  A closing bracket at the start of the body, after the negation mark if there is
one, belongs to the body. -/
def splitSet (s : List Char) : Option (List Char × List Char) :=
  let (mark, rest) :=
    match s with
    | '!' :: r => (['!'], r)
    | r => ([], r)
  let (first, tail) :=
    match rest with
    | ']' :: r => ([']'], r)
    | r => ([], r)
  match tail.dropWhile (· ≠ ']') with
  | [] => none
  | _ :: after => some (mark ++ first ++ tail.takeWhile (· ≠ ']'), after)

/-! ## Reading globs -/

/-- The parts of a glob, read with at most `fuel` steps. -/
def parseWithin : Nat → List Char → List GlobItem
  | 0, _ => []
  | _, [] => []
  | fuel + 1, '*' :: r => .any :: parseWithin fuel r
  | fuel + 1, '?' :: r => .one :: parseWithin fuel r
  | fuel + 1, '[' :: r =>
    match splitSet r with
    | some (body, after) => setOf body :: parseWithin fuel after
    | none => .literal '[' :: parseWithin fuel r
  | fuel + 1, c :: r => .literal c :: parseWithin fuel r

/-! ## Matching -/

/-- All ends of a text, the text itself first and the empty one last. -/
def suffixes : List Char → List (List Char)
  | [] => [[]]
  | c :: r => (c :: r) :: suffixes r

/-- What is left of a text after a part that stands for one character. -/
def after? : GlobItem → List Char → Option (List Char)
  | _, [] => none
  | .any, _ :: _ => none
  | .one, _ :: r => some r
  | .set negated members, c :: r => if holds negated members c then some r else none
  | .literal d, c :: r => if c = d then some r else none

/-- Nothing is left of an empty text. -/
theorem after?_nil (i : GlobItem) : i.after? [] = none := by
  cases i <;> rfl

/-- What may be left of a text after a part, when one of `rests` is left before it.  The longest one
comes first, and the others are ends of it. -/
def advance (item : GlobItem) (rests : List (List Char)) : List (List Char) :=
  match item, rests with
  | .any, s :: _ => suffixes s
  | i, ss => ss.filterMap i.after?

/-- Whether one of several ends of a text fits the parts. -/
def fitsOne : List GlobItem → List (List Char) → Bool
  | [], rests => rests.any List.isEmpty
  | i :: is, rests => fitsOne is (i.advance rests)

/-- Whether the whole text fits the parts. -/
def fits (items : List GlobItem) (s : List Char) : Bool := fitsOne items [s]

end GlobItem

/-- The parts of a glob. -/
def globItems (pattern : String) : List GlobItem :=
  GlobItem.parseWithin pattern.length pattern.toList

/-- Whether the whole of `s` fits the glob `pattern`. -/
def fitsGlob (pattern s : String) : Bool :=
  GlobItem.fits (globItems pattern) s.toList

/-- Whether `s` fits one of the globs. -/
def fitsAny (patterns : List String) (s : String) : Bool :=
  patterns.any fun p => fitsGlob p s

/-- Nothing fits when nothing is left. -/
theorem fitsOne_nil (items : List GlobItem) : GlobItem.fitsOne items [] = false := by
  induction items with
  | nil => rfl
  | cons i is ih => cases i <;> simpa [GlobItem.fitsOne, GlobItem.advance] using ih

/-- A glob without special characters fits only its own text. -/
theorem fits_literals (p s : List Char) :
    GlobItem.fits (p.map .literal) s = true ↔ s = p := by
  induction p generalizing s with
  | nil => cases s <;> simp [GlobItem.fits, GlobItem.fitsOne]
  | cons c p ih =>
    cases s with
    | nil =>
      simp [GlobItem.fits, GlobItem.fitsOne, GlobItem.advance, GlobItem.after?_nil, fitsOne_nil]
    | cons d r =>
      by_cases h : d = c
      · simpa [GlobItem.fits, GlobItem.fitsOne, GlobItem.advance, GlobItem.after?, h] using ih r
      · simp [GlobItem.fits, GlobItem.fitsOne, GlobItem.advance, GlobItem.after?, h, fitsOne_nil]

end DesignTokens.Text
