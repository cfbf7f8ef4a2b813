import DesignTokens.Source.Frame
import Mathlib.Data.List.Basic
import Mathlib.Data.List.Induction

/-!
# Frames show their places

For a frame only line feeds end lines.  A place whose line and column count line feeds stands on the
line that the frame marks, and the caret stands right below it (`Frame.render_shows`).
-/

namespace DesignTokens.Frame

/-! ## The line of a place -/

/-- The part of the line of a place that stands before the place. -/
def lastLine (before : List Char) : List Char := (before.reverse.takeWhile (· ≠ '\n')).reverse

/-- The part of the line of a place that stands behind the place. -/
def firstLine (after : List Char) : List Char := after.takeWhile (· ≠ '\n')

theorem lastLine_snoc (before : List Char) (c : Char) :
    lastLine (before ++ [c]) = if c = '\n' then [] else lastLine before ++ [c] := by
  unfold lastLine
  rw [List.reverse_append, List.reverse_singleton, List.singleton_append]
  by_cases h : c = '\n' <;> simp [h]

theorem lines_cons_of_ne {c : Char} (h : c ≠ '\n') {s line : List Char} {rest : List (List Char)}
    (hs : lines s = line :: rest) : lines (c :: s) = (c :: line) :: rest := by
  rw [lines, if_neg h, hs]

theorem lines_eq_cons (s : List Char) : lines s = firstLine s :: (lines s).tail := by
  induction s with
  | nil => rfl
  | cons c s ih =>
    by_cases h : c = '\n'
    · simp [lines, firstLine, h]
    · have hfirst : firstLine (c :: s) = c :: firstLine s := by simp [firstLine, h]
      rw [lines_cons_of_ne h ih, hfirst, List.tail_cons]

/-- Of the lines of a text, as many lie above the line of a place as there are line feeds before the
place. -/
theorem exists_lines (before : List Char) : ∃ above, above.length = before.count '\n' ∧
    ∀ after, lines (before ++ after) =
      above ++ (lastLine before ++ firstLine after) :: (lines after).tail := by
  induction before using List.reverseRecOn with
  | nil => exact ⟨[], rfl, lines_eq_cons⟩
  | append_singleton before c ih =>
    obtain ⟨above, hlength, hlines⟩ := ih
    by_cases h : c = '\n'
    · -- the line of the place so far is complete
      refine ⟨above ++ [lastLine before], by simp [hlength, h], fun after => ?_⟩
      have hfirst : firstLine (c :: after) = [] := by simp [firstLine, h]
      have htail : (lines (c :: after)).tail = lines after := by simp [lines, h]
      rw [List.append_assoc, List.singleton_append, hlines, hfirst, htail, lastLine_snoc, if_pos h,
        List.append_nil, List.nil_append, List.append_assoc, List.singleton_append,
        ← lines_eq_cons]
    · refine ⟨above, by simp [hlength, h], fun after => ?_⟩
      have hfirst : firstLine (c :: after) = c :: firstLine after := by simp [firstLine, h]
      have htail : (lines (c :: after)).tail = (lines after).tail := by
        rw [lines_cons_of_ne h (lines_eq_cons after), List.tail_cons]
      rw [List.append_assoc, List.singleton_append, hlines, hfirst, htail, lastLine_snoc, if_neg h,
        List.append_assoc, List.singleton_append]

/-! ## Frames -/

/-- A line of a frame without the mark, with its number from zero. -/
def plainLine (color : Bool) (width : Nat) (line : List Char × Nat) : String :=
  codeLine color false width (line.2 + 1) line.1

/-- What a frame has for a line: the line, and the caret below it when it is the line of the
place. -/
def frameLines (color : Bool) (target width : Nat) (column : Int) (line : List Char × Nat) :
    List String :=
  let shown := codeLine color (line.2 = target) width (line.2 + 1) line.1
  if line.2 = target then [shown, caretLine color width column line.1] else [shown]

/-- The line with the caret below the end of a part of a line: blanks stand for this part. -/
def caretBelow (color : Bool) (width : Nat) (left : List Char) : String :=
  " " ++ styled color dim (" " ++ padded width "" ++ " |") ++ " " ++ blanks left ++
    styled color (bold ++ red) "^"

theorem caretLine_eq (color : Bool) (width : Nat) (left right : List Char) :
    caretLine color width (left.length + 1) (left ++ right) = caretBelow color width left := by
  unfold caretBelow caretLine
  simp

/-- A frame of a text shows a place: it marks the line of the place, which has `left` before the
place and `right` behind it, and the caret stands below the end of `left`.  Around them are other
lines of the text, each with its number. -/
def Shows (color : Bool) (text : List Char) (frame : String) (number : Nat)
    (left right : List Char) : Prop :=
  ∃ (width : Nat) (above below : List (List Char × Nat)),
    frame = "\n".intercalate (above.map (plainLine color width) ++
      codeLine color true width (number + 1) (left ++ right) :: caretBelow color width left ::
        below.map (plainLine color width)) ∧
    (lines text)[number]? = some (left ++ right) ∧
    (∀ p ∈ above, p.2 < number ∧ (lines text)[p.2]? = some p.1) ∧
    ∀ p ∈ below, number < p.2 ∧ (lines text)[p.2]? = some p.1

/-- What is shown of the lines of a text are lines of it, under their numbers. -/
theorem getElem?_of_mem_zipIdx {all : List (List Char)} {first count : Nat} {p : List Char × Nat}
    (h : p ∈ ((all.drop first).take count).zipIdx first) : all[p.2]? = some p.1 := by
  obtain ⟨hle, hget⟩ := List.mem_zipIdx_iff_le_and_getElem?_sub.mp h
  rw [List.getElem?_take] at hget
  split at hget
  · rwa [List.getElem?_drop, Nat.add_sub_cancel' hle] at hget
  · cases hget

/-- Some lines around a line are some of those above it, the line itself, and some of those below
it. -/
theorem exists_zipIdx {above : List (List Char)} (here : List Char) (below : List (List Char))
    {first count : Nat} (hfirst : first ≤ above.length) (hcount : above.length < first + count) :
    ∃ before after, (((above ++ here :: below).drop first).take count).zipIdx first =
        before ++ (here, above.length) :: after ∧
      (∀ p ∈ before, p.2 < above.length) ∧ ∀ p ∈ after, above.length < p.2 := by
  -- behind the lines above, at least the line itself is left to show
  obtain ⟨n, hn⟩ : ∃ n, count - (above.drop first).length = n + 1 :=
    ⟨count - (above.length - first) - 1, by rw [List.length_drop]; omega⟩
  refine ⟨(above.drop first).zipIdx first, (below.take n).zipIdx (above.length + 1), ?_, ?_, ?_⟩
  · rw [List.drop_append_of_le_length hfirst, List.take_append,
      List.take_of_length_le (by omega), hn, List.take_succ_cons, List.zipIdx_append,
      List.zipIdx_cons, List.length_drop, Nat.add_sub_cancel' hfirst]
  · rintro ⟨line, i⟩ hp
    have := List.snd_lt_of_mem_zipIdx hp
    rw [List.length_drop] at this
    omega
  · rintro ⟨line, i⟩ hp
    have := List.le_snd_of_mem_zipIdx hp
    omega

/-- The lines around a line of a text, each with its number from zero. -/
def window (all : List (List Char)) (target : Nat) : List (List Char × Nat) :=
  let first := target - context
  ((all.drop first).take (min (target + context + 1) all.length - first)).zipIdx first

/-- The number of characters that the numbers around a line of a text take. -/
def numberWidth (all : List (List Char)) (target : Nat) : Nat :=
  (toString (min (target + context + 1) all.length)).length

/-- A frame has the lines around the line of the place, with the caret below this line.  A place
outside of the text is taken for its first or its last line. -/
theorem exists_render {source : String} (hne : source ≠ "") (span : Span) :
    ∃ (target : Nat) (here : List Char) (above below : List (List Char × Nat)),
      let all := lines source.toList
      let width := numberWidth all target
      (target : Int) = min (max span.line 1) all.length - 1 ∧
        window all target = above ++ (here, target) :: below ∧
        (∀ p ∈ above, p.2 < target) ∧ (∀ p ∈ below, target < p.2) ∧
        ∀ color, render color source span = "\n".intercalate (above.map (plainLine color width) ++
          codeLine color true width (target + 1) here :: caretLine color width span.column here ::
            below.map (plainLine color width)) := by
  generalize hall : lines source.toList = all
  have hpos : 0 < all.length := hall ▸ List.length_pos_iff.mpr (lines_ne_nil _)
  obtain ⟨target, htarget⟩ : ∃ target : Nat,
      target = ((min (max span.line 1) all.length) - 1).toNat := ⟨_, rfl⟩
  have hlt : target < all.length := by omega
  have hlength : (all.take target).length = target := List.length_take_of_le (Nat.le_of_lt hlt)
  have hsplit : all.take target ++ all[target] :: all.drop (target + 1) = all := by
    rw [← List.drop_eq_getElem_cons hlt, List.take_append_drop]
  obtain ⟨above, below, hshown, habove, hbelow⟩ :=
    exists_zipIdx all[target] (all.drop (target + 1))
      (by omega : target - context ≤ (all.take target).length)
      (by omega : (all.take target).length < target - context +
        (min (target + context + 1) all.length - (target - context)))
  rw [hsplit, hlength] at hshown
  rw [hlength] at habove hbelow
  refine ⟨target, all[target], above, below, by omega, hshown, habove, hbelow, fun color => ?_⟩
  -- every line but that of the place is shown as it is
  have hplain : ∀ p : List Char × Nat, p.2 ≠ target →
      frameLines color target (numberWidth all target) span.column p =
        [plainLine color (numberWidth all target) p] := by
    intro p hp
    unfold frameLines
    simp only [hp, decide_false, if_false]
    rfl
  have hrender : render color source span = "\n".intercalate ((window all target).flatMap
      (frameLines color target (numberWidth all target) span.column)) := by
    rw [render, if_neg hne, htarget, ← hall]
    rfl
  rw [hrender, show window all target = _ from hshown, List.flatMap_append, List.flatMap_cons,
    List.flatMap_congr fun p hp => hplain p (Nat.ne_of_lt (habove p hp)),
    List.flatMap_congr fun p hp => hplain p (Nat.ne_of_gt (hbelow p hp)), ← List.map_eq_flatMap,
    ← List.map_eq_flatMap, frameLines, if_pos rfl, decide_eq_true rfl]
  rfl

/-- A place whose line and column count line feeds is shown. -/
theorem render_shows (color : Bool) {source : String} {before after : List Char} {span : Span}
    (hsource : source.toList = before ++ after) (hne : source ≠ "")
    (hline : span.line = before.count '\n' + 1)
    (hcolumn : span.column = (lastLine before).length + 1) :
    Shows color source.toList (render color source span) (before.count '\n') (lastLine before)
      (firstLine after) := by
  obtain ⟨linesAbove, hlength, hlines⟩ := exists_lines before
  have hall := hlines after
  rw [← hsource] at hall
  obtain ⟨target, here, above, below, htarget, hshown, habove, hbelow, hrender⟩ :=
    exists_render hne span
  have hget : ∀ p ∈ above ++ (here, target) :: below, (lines source.toList)[p.2]? = some p.1 :=
    fun p hp => getElem?_of_mem_zipIdx (hshown ▸ hp)
  -- the line of the place is one of the text, so the frame does not move to another one
  obtain rfl : target = before.count '\n' := by
    rw [hall, List.length_append, List.length_cons] at htarget
    omega
  have hhere : here = lastLine before ++ firstLine after := by
    have h := hget (here, before.count '\n') (by simp)
    rw [hall, ← hlength, List.getElem?_append_right (Nat.le_refl _), Nat.sub_self,
      List.getElem?_cons_zero] at h
    exact (Option.some.inj h).symm
  subst hhere
  have hframe := hrender color
  rw [hcolumn, caretLine_eq] at hframe
  exact ⟨_, above, below, hframe, hget (_, before.count '\n') (by simp),
    fun p hp => ⟨habove p hp, hget p (by simp [hp])⟩,
    fun p hp => ⟨hbelow p hp, hget p (by simp [hp])⟩⟩

end DesignTokens.Frame
