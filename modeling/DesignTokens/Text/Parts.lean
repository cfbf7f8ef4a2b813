/-!
# Parts of texts

Cutting a text at a mark, and putting its parts together again.  Files end their lines in one of
three ways; texts are read with line feeds alone.
-/

namespace DesignTokens.Text

/-! ## Parts between marks -/

/-- The parts of a text between the marks; a text without a mark is one part. -/
def parts (mark : Char) : List Char → List (List Char)
  | [] => [[]]
  | c :: r =>
    if c = mark then [] :: parts mark r
    else
      match parts mark r with
      | [] => [[c]]
      | s :: ss => (c :: s) :: ss

/-- A text has at least one part. -/
theorem parts_ne_nil (mark : Char) (s : List Char) : parts mark s ≠ [] := by
  cases s with
  | nil => simp [parts]
  | cons c r =>
    unfold parts
    split
    · simp
    · split <;> simp

/-- The parts with marks between them are the text. -/
theorem intercalate_parts (mark : Char) (s : List Char) :
    [mark].intercalate (parts mark s) = s := by
  induction s with
  | nil => rfl
  | cons c r ih =>
    have hne := parts_ne_nil mark r
    unfold parts
    split
    · rename_i h
      subst h
      cases hp : parts c r with
      | nil => exact absurd hp hne
      | cons p ps => simpa [hp, List.intercalate] using ih
    · cases hp : parts mark r with
      | nil => exact absurd hp hne
      | cons p ps =>
        rw [hp] at ih
        cases ps with
        | nil => simpa [List.intercalate] using ih
        | cons q qs => simpa [List.intercalate] using ih

/-! ## Line ends -/

/-- The text with a line feed for every carriage return, and for every carriage return with a line
feed after it. -/
def unifyNewlines : List Char → List Char
  | [] => []
  | '\r' :: '\n' :: r => '\n' :: unifyNewlines r
  | c :: r => (if c = '\r' then '\n' else c) :: unifyNewlines r

/-- No carriage return is left. -/
theorem return_notMem_unifyNewlines (s : List Char) : '\r' ∉ unifyNewlines s := by
  fun_induction unifyNewlines s with
  | case1 => simp
  | case2 r ih => simpa using ih
  | case3 c r _ ih =>
    by_cases h : c = '\r'
    · simpa [h] using ih
    · simpa [h, Ne.symm h] using ih

end DesignTokens.Text
