/-!
# Places in a document

A `Span` is a range of characters in the text of a document.
-/

namespace DesignTokens

/-- A range of characters.  Lines and columns count from one, the offset from zero. -/
structure Span where
  /-- The line of the first character. -/
  line : Int
  /-- The column of the first character. -/
  column : Int
  /-- The number of characters before the first one. -/
  offset : Int
  /-- The number of characters. -/
  length : Int
  /-- The name of the file, where it is known. -/
  file : Option String
deriving DecidableEq, Inhabited

namespace Span

/-- The empty range at the start of a text. -/
def origin : Span := ⟨1, 1, 0, 0, none⟩

/-- The range in a file, unless it already is in one; an empty name is none. -/
def inFile (name : Option String) (s : Span) : Span :=
  match name with
  | some n => if n ≠ "" && s.file.isNone then { s with file := some n } else s
  | none => s

/-- The range without its file. -/
def withoutFile (s : Span) : Span := { s with file := none }

/-- Naming a file changes nothing else. -/
theorem withoutFile_inFile (name : Option String) (s : Span) (h : s.file = none) :
    (s.inFile name).withoutFile = s := by
  obtain ⟨l, c, o, n, f⟩ := s
  subst h
  unfold inFile withoutFile
  split
  · split <;> rfl
  · rfl

end Span

end DesignTokens
