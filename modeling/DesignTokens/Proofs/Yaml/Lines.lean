import DesignTokens.Document
import DesignTokens.Proofs.Source.Frame
import DesignTokens.Proofs.Yaml.Scan

/-!
# Marks and line feeds

A mark counts lines by the rules of YAML: a carriage return that no line feed follows ends a line
too, and a byte order mark takes no column.  A frame only knows line feeds.  The two agree on a
place exactly where line feeds alone end the lines before it and no byte order mark stands on its
line (`Cursor.place_eq_iff`).
-/

namespace DesignTokens

/-! ## Counting by line feeds -/

namespace Document

open DesignTokens.Frame

/-- A character that marks the order of bytes, and takes no column. -/
def orderMark : Char := Char.ofNat 0xFEFF

/-- The number of carriage returns in a text that no line feed follows, when `after` follows the
text. -/
def loneReturns : (before after : List Char) → Nat
  | [], _ => 0
  | c :: before, after =>
    loneReturns before after + if c = '\r' ∧ (before ++ after).head? ≠ some '\n' then 1 else 0

/-- Up to a place line feeds alone end lines, and no byte order mark stands on its line. -/
def FeedsOnly (before after : List Char) : Prop :=
  loneReturns before after = 0 ∧ orderMark ∉ lastLine before

instance (before after : List Char) : Decidable (FeedsOnly before after) :=
  inferInstanceAs (Decidable (_ ∧ _))

/-- What follows a text becomes its last character. -/
theorem loneReturns_snoc (before after : List Char) (c : Char) :
    loneReturns (before ++ [c]) after =
      loneReturns before (c :: after) + if c = '\r' ∧ after.head? ≠ some '\n' then 1 else 0 := by
  induction before with
  | nil => simp [loneReturns]
  | cons d before ih =>
    rw [List.cons_append, loneReturns, loneReturns, ih, List.append_assoc, List.singleton_append]
    omega

theorem placeAfter_eq (before : List Char) :
    placeAfter before = (before.count '\n' + 1, (lastLine before).length + 1) := by
  rw [placeAfter, lastLine, List.length_reverse]

end Document

/-! ## Cursors -/

namespace Yaml.Cursor

open Document DesignTokens.Frame

variable {text before : List Char} {c : Cursor}

/-- A cursor stands behind the characters of a text that were read.  Its line counts line feeds and
lone carriage returns; without the latter its column counts what was read of the line, but for byte
order marks. -/
structure Behind (text before : List Char) (c : Cursor) : Prop where
  text_eq : text = before ++ c.rest
  offset : c.offset = before.length
  line : c.line = before.count '\n' + loneReturns before c.rest
  column : loneReturns before c.rest = 0 →
    c.column + (lastLine before).count orderMark = (lastLine before).length

theorem behind_start (text : List Char) : (start text).Behind text [] where
  text_eq := rfl
  offset := rfl
  line := rfl
  column _ := rfl

theorem Behind.step (h : c.Behind text before) : ∃ before, c.step.Behind text before := by
  obtain ⟨rest, left, line, column, offset, hleft⟩ := c
  obtain ⟨htext, hoffset, hline, hcolumn⟩ := h
  cases rest with
  | nil => exact ⟨before, htext, hoffset, hline, hcolumn⟩
  | cons ch r =>
    dsimp only at htext hoffset hline hcolumn
    have htext' : text = before ++ [ch] ++ r := by rw [htext, List.append_cons]
    have hoffset' : offset + 1 = (before ++ [ch]).length := by rw [hoffset, List.length_append]; rfl
    have hlone := loneReturns_snoc before r ch
    have hcount : (before ++ [ch]).count '\n' = before.count '\n' + if ch = '\n' then 1 else 0 := by
      simp [List.count_singleton]
    refine ⟨before ++ [ch], ?_⟩
    unfold Cursor.step
    dsimp only
    split
    · -- YAML ends a line here, the text only does at a line feed
      rename_i hends
      obtain rfl | hreturn : ch = '\n' ∨ ch = '\r' ∧ r.head? ≠ some '\n' := by simpa using hends
      · rw [if_neg (by simp), Nat.add_zero] at hlone
        rw [if_pos rfl] at hcount
        refine ⟨htext', hoffset', ?_, fun _ => ?_⟩
        · rw [hcount, hlone, hline, Nat.add_right_comm]
        · rw [lastLine_snoc, if_pos rfl]
          rfl
      · rw [if_pos hreturn] at hlone
        rw [if_neg (by rw [hreturn.1]; decide), Nat.add_zero] at hcount
        refine ⟨htext', hoffset', ?_, fun hzero => ?_⟩
        · rw [hcount, hlone, hline, Nat.add_assoc]
        · rw [hlone] at hzero
          omega
    · rename_i hstays
      obtain ⟨hfeed, hreturn⟩ : ch ≠ '\n' ∧ ¬(ch = '\r' ∧ r.head? ≠ some '\n') := by
        simpa using hstays
      rw [if_neg hreturn, Nat.add_zero] at hlone
      rw [if_neg hfeed, Nat.add_zero] at hcount
      have hline' : line = (before ++ [ch]).count '\n' + loneReturns (before ++ [ch]) r := by
        rw [hcount, hlone, hline]
      have hlast : lastLine (before ++ [ch]) = lastLine before ++ [ch] := by
        rw [lastLine_snoc, if_neg hfeed]
      split
      · -- a byte order mark is counted on the line instead of in the column
        rename_i hmark
        have hch : ch = orderMark := by rw [orderMark, ← hmark, Char.ofNat_toNat]
        refine ⟨htext', hoffset', hline', fun hzero => ?_⟩
        have hread := hcolumn (hlone.symm.trans hzero)
        rw [hlast, List.count_append, hch, List.count_singleton_self, List.length_append,
          List.length_singleton, ← hread, Nat.add_assoc]
      · rename_i hmark
        have hch : ch ≠ orderMark := by
          rintro rfl
          exact hmark (by decide)
        refine ⟨htext', hoffset', hline', fun hzero => ?_⟩
        have hread := hcolumn (hlone.symm.trans hzero)
        change column + 1 + _ = _
        rw [hlast, List.count_append, List.count_singleton, List.length_append,
          List.length_singleton, if_neg (by simpa using hch)]
        omega

/-- A place of a text has the characters before it behind it. -/
theorem exists_behind (h : Reached text c) : ∃ before, c.Behind text before := by
  obtain ⟨n, rfl⟩ := h
  -- the induction goes forward from any cursor, as `advance` does
  suffices ∀ {c : Cursor} {before}, c.Behind text before →
      ∃ before, (c.advance n).Behind text before from this (behind_start text)
  induction n with
  | zero => exact fun h => ⟨_, h⟩
  | succ n ih =>
    intro c before h
    obtain ⟨before, h⟩ := h.step
    exact ih h

/-- A cursor agrees with the count of line feeds just where these alone end lines. -/
theorem Behind.place_eq_iff (h : c.Behind text before) :
    (c.line + 1, c.column + 1) = placeAfter before ↔ FeedsOnly before c.rest := by
  rw [placeAfter_eq, Prod.mk.injEq, FeedsOnly, ← List.count_eq_zero]
  -- a lone carriage return can only add lines, a byte order mark only take columns away
  have hline := h.line
  constructor
  · rintro ⟨hl, hc⟩
    have hzero : loneReturns before c.rest = 0 := by omega
    have := h.column hzero
    exact ⟨hzero, by omega⟩
  · rintro ⟨hzero, hmarks⟩
    have := h.column hzero
    exact ⟨by omega, by omega⟩

end Yaml.Cursor

/-! ## Ranges -/

/-- A range that starts at a place of a text: its offset counts the characters before the place, and
where line feeds alone end lines, its line and its column count them. -/
def Span.In (text : List Char) (s : Span) : Prop :=
  ∃ before after, text = before ++ after ∧ s.offset = before.length ∧
    (Document.FeedsOnly before after →
      s.line = (Document.placeAfter before).1 ∧ s.column = (Document.placeAfter before).2)

namespace Span

variable {text : List Char} {s : Span}

theorem in_origin (text : List Char) : origin.In text :=
  ⟨[], text, rfl, rfl, fun _ => ⟨rfl, rfl⟩⟩

/-- The place behind some characters of a text. -/
theorem in_placeAfter (before after : List Char) (length : Int) (file : Option String) :
    Span.In (before ++ after) ⟨(Document.placeAfter before).1, (Document.placeAfter before).2,
      before.length, length, file⟩ :=
  ⟨before, after, rfl, rfl, fun _ => ⟨rfl, rfl⟩⟩

theorem in_of_markOf {m : Yaml.Mark} (h : Yaml.MarkOf text m) (length : Int)
    (file : Option String) : Span.In text ⟨m.line + 1, m.column + 1, m.offset, length, file⟩ := by
  obtain ⟨c, hc, rfl⟩ := h
  obtain ⟨before, hbehind⟩ := Yaml.Cursor.exists_behind hc
  refine ⟨before, c.rest, hbehind.text_eq, congrArg Int.ofNat hbehind.offset, fun hfeeds => ?_⟩
  rw [← hbehind.place_eq_iff.mpr hfeeds]
  exact ⟨rfl, rfl⟩

/-- The name of the file says nothing about the place. -/
theorem In.inFile (h : s.In text) (name : Option String) : (s.inFile name).In text := by
  unfold Span.inFile
  split
  · split <;> exact h
  · exact h

end Span

end DesignTokens
