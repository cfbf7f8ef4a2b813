import DesignTokens.Proofs.OneLine
import DesignTokens.Proofs.Source.Frame

/-!
# The layout of frames

A frame has a row for each line around the line of a place, with the numbers of the lines at the
right end of one column, and a caret below the place.  Wherever the place is said to be, the frame
shows lines of the text: a line outside of the text counts as its first or its last line, and the
caret stands at most behind the end of the line.  Styles add nothing but their escapes.

## Main statement

* `render_layout`: the rows of a plain frame, and what is left of a styled one without its escapes.
-/

namespace DesignTokens.Frame

/-! ## Rows -/

/-- Blanks. -/
def gap (n : Nat) : String := String.ofList (List.replicate n ' ')

/-- A row shows a line of the text: a mark, the number of the line at the right end of a column, and
the line, unless it is empty. -/
def IsRow (width : Nat) (mark : String) (number : Nat) (line row : String) : Prop :=
  ∃ free, free + (toString number).length = width ∧
    row = mark ++ " " ++ gap free ++ toString number ++ " |" ++
      if line = "" then "" else " " ++ line

/-- The row below a line, with a caret below a column: in front of the caret there is a blank for
every character of the line, and a tab for every tab. -/
def IsCaret (width : Nat) (column : Int) (line row : String) : Prop :=
  ∃ before : List Char, (before.length : Int) = min (max (column - 1) 0) line.length ∧
    (∀ i (hi : i < before.length),
      before[i] = if line.toList[i]? = some '\t' then '\t' else ' ') ∧
    row = " " ++ " " ++ gap width ++ " |" ++ " " ++ String.ofList before ++ "^"

/-- The number of the first line that is shown around a line. -/
def firstShown (target : Nat) : Nat := max (target - 2) 1

/-- The number of the last line that is shown around a line of a text with `count` lines. -/
def lastShown (count target : Nat) : Nat := min (target + 2) count

/-- The rows of a frame: those of the lines around the line of the place and of this line itself,
which alone is marked, and one row with the caret. -/
structure IsLayout (lines : List String) (span : Span) (target width : Nat) (above : List String)
    (marked caret : String) (below : List String) : Prop where
  /-- The line of the place is one of the text. -/
  target_eq : (target : Int) = min (max span.line 1) lines.length
  /-- The column of the numbers is as wide as the last number that is shown. -/
  width_eq : width = (toString (lastShown lines.length target)).length
  length_above : above.length = target - firstShown target
  length_rows : (above ++ marked :: below).length =
    lastShown lines.length target + 1 - firstShown target
  row : ∀ i row, (above ++ marked :: below)[i]? = some row →
    ∃ line, lines[firstShown target + i - 1]? = some line ∧
      IsRow width (if firstShown target + i = target then ">" else " ") (firstShown target + i)
        line row
  caret : ∃ line, lines[target - 1]? = some line ∧ IsCaret width span.column line caret

/-! ## Numbers in a column -/

/-- A greater number has at least as many digits. -/
theorem length_toString_le {a b : Nat} (h : a ≤ b) :
    (toString a).length ≤ (toString b).length := by
  have hlength (n : Nat) : (toString n).length = (Nat.toDigits 10 n).length := by
    rw [Nat.toString_eq_ofList_toDigits, String.length_ofList]
  have hpos : 0 < (Nat.toDigits 10 b).length := Nat.length_toDigits_pos
  have hb : b < 10 ^ (Nat.toDigits 10 b).length :=
    (Nat.length_toDigits_le_iff (by decide) hpos).mp (Nat.le_refl _)
  rw [hlength, hlength]
  apply (Nat.length_toDigits_le_iff (by decide) hpos).mpr
  exact Nat.lt_of_le_of_lt h hb

theorem padded_eq (width : Nat) (text : String) :
    padded width text = gap (width - text.length) ++ text := rfl

theorem styled_false (codes text : String) : styled false codes text = text := rfl

/-- A number that fits into its column stands at the right end of it. -/
theorem isRow_codeLine {width number : Nat} (h : (toString number).length ≤ width) (target : Bool)
    (line : List Char) :
    IsRow width (if target then ">" else " ") number (String.ofList line)
      (codeLine false target width number line) := by
  refine ⟨width - (toString number).length, Nat.sub_add_cancel h, ?_⟩
  have hempty : String.ofList line = "" ↔ line.isEmpty = true := by
    rw [← String.toList_inj, String.toList_ofList, List.isEmpty_iff]
    rfl
  rw [codeLine, styled_false, styled_false, padded_eq]
  simp only [hempty, String.append_assoc]

theorem isCaret_caretLine (width : Nat) (column : Int) (text : List Char) :
    IsCaret width column (String.ofList text) (caretLine false width column text) := by
  refine ⟨(text.take (column - 1).toNat).map fun c => if c = '\t' then '\t' else ' ', ?_, ?_, ?_⟩
  · -- a column in front of the line counts as its first, and behind the line as its end
    rw [List.length_map, List.length_take, String.length_ofList]
    omega
  · intro i hi
    rw [List.length_map, List.length_take] at hi
    have hget : text[i]? = some text[i] := List.getElem?_eq_getElem _
    simp [hget]
  · have hgutter : padded width "" = gap width := by
      rw [padded_eq]
      exact String.append_empty
    rw [caretLine, styled_false, styled_false, hgutter]
    simp only [blanks, ← String.append_assoc]

/-! ## Lines -/

/-- A frame divides a text into its lines. -/
theorem lines_eq_parts (s : List Char) : lines s = Text.parts '\n' s := by
  induction s with
  | nil => rfl
  | cons c s ih =>
    cases hs : lines s with
    | nil => exact absurd hs (lines_ne_nil s)
    | cons line rest => simp [lines, Text.parts, ← ih, hs]

theorem textLines_eq (source : String) :
    Text.lines source = (lines source.toList).map String.ofList := by
  rw [Text.lines, lines_eq_parts]

/-- The lines of a text with line feeds between them are the text. -/
theorem intercalate_textLines (source : String) : "\n".intercalate (Text.lines source) = source := by
  have hparts : (Text.lines source).map String.toList = Text.parts '\n' source.toList := by
    rw [Text.lines, List.map_map]
    simp [Function.comp_def]
  rw [← String.toList_inj, String.toList_intercalate, hparts]
  exact Text.intercalate_parts '\n' source.toList

/-! ## Layouts -/

/-- The lines around a line are counted from its second line above, or from the first line. -/
theorem getElem?_window {all : List (List Char)} {target i : Nat} {p : List Char × Nat}
    (h : (window all target)[i]? = some p) :
    all[p.2]? = some p.1 ∧ p.2 + 1 = firstShown (target + 1) + i ∧
      p.2 + 1 ≤ lastShown all.length (target + 1) := by
  rw [window, List.getElem?_zipIdx, List.getElem?_take, List.getElem?_drop,
    Option.map_eq_some_iff] at h
  obtain ⟨line, hline, rfl⟩ := h
  split at hline
  · rename_i hi
    refine ⟨hline, ?_, ?_⟩
    · rw [firstShown]
      change target - 2 + i + 1 = _
      omega
    · rw [lastShown]
      change i < min (target + 2 + 1) all.length - (target - 2) at hi
      change target - 2 + i + 1 ≤ _
      omega
  · cases hline

theorem length_window {all : List (List Char)} {target : Nat} :
    (window all target).length =
      lastShown all.length (target + 1) + 1 - firstShown (target + 1) := by
  rw [window, List.length_zipIdx, List.length_take, List.length_drop, lastShown, firstShown]
  change min (min (target + 2 + 1) all.length - (target - 2)) (all.length - (target - 2)) = _
  omega

/-- A plain frame is laid out around the line of the place. -/
theorem exists_layout {source : String} (hne : source ≠ "") (span : Span) :
    ∃ target width above marked caret below,
      IsLayout (Text.lines source) span target width above marked caret below ∧
        render false source span = "\n".intercalate (above ++ marked :: caret :: below) := by
  obtain ⟨target, here, above, below, htarget, hwindow, habove, hbelow, hrender⟩ :=
    exists_render hne span
  have hline (i : Nat) :
      (Text.lines source)[i]? = (lines source.toList)[i]?.map String.ofList := by
    rw [textLines_eq, List.getElem?_map]
  have hcount : (Text.lines source).length = (lines source.toList).length := by
    rw [textLines_eq, List.length_map]
  generalize hwidth : numberWidth (lines source.toList) target = width at hrender
  -- only the line of the place has another mark than a blank
  have hplain (p : List Char × Nat) (hp : p.2 ≠ target) :
      plainLine false width p = codeLine false (p.2 = target) width (p.2 + 1) p.1 := by
    rw [plainLine, decide_eq_false hp]
  have hrows : above.map (plainLine false width) ++ codeLine false true width (target + 1) here ::
      below.map (plainLine false width) = (window (lines source.toList) target).map fun p =>
        codeLine false (p.2 = target) width (p.2 + 1) p.1 := by
    rw [hwindow, List.map_append, List.map_cons, decide_eq_true rfl,
      List.map_congr_left fun p hp => hplain p (Nat.ne_of_lt (habove p hp)),
      List.map_congr_left fun p hp => hplain p (Nat.ne_of_gt (hbelow p hp))]
  have hmarked : (window (lines source.toList) target)[above.length]? = some (here, target) := by
    rw [hwindow, List.getElem?_append_right (Nat.le_refl _), Nat.sub_self,
      List.getElem?_cons_zero]
  obtain ⟨hhere, hnumber, -⟩ := getElem?_window hmarked
  refine ⟨target + 1, width, _, _, _, _, ⟨?_, ?_, ?_, ?_, ?_, ?_⟩, hrender false⟩
  · rw [hcount]
    omega
  · rw [hcount, ← hwidth]
    rfl
  · rw [List.length_map]
    omega
  · rw [hrows, List.length_map, length_window, hcount]
  · intro i row hrow
    rw [hrows, List.getElem?_map, Option.map_eq_some_iff] at hrow
    obtain ⟨p, hp, rfl⟩ := hrow
    obtain ⟨hat, hnumber, hle⟩ := getElem?_window hp
    refine ⟨String.ofList p.1, ?_, ?_⟩
    · rw [← hnumber, Nat.add_sub_cancel, hline, hat]
      rfl
    · -- no number that is shown takes more characters than the last one
      have hfits : (toString (p.2 + 1)).length ≤ width := by
        rw [← hwidth]
        apply length_toString_le
        exact hle.trans (Nat.le_of_eq (by rw [lastShown]; rfl))
      rw [← hnumber]
      simpa using isRow_codeLine hfits (p.2 = target) p.1
  · refine ⟨String.ofList here, ?_, isCaret_caretLine width span.column here⟩
    rw [Nat.add_sub_cancel, hline, hhere]
    rfl

/-! ## Escapes -/

/-- The escapes of the styles. -/
def escapes : List (List Char) := [reset, bold, dim, red].map String.toList

/-- A text without its escapes; at first some characters are left out that belong to an escape. -/
def withoutEscapes : Nat → List Char → List Char
  | _, [] => []
  | left + 1, _ :: r => withoutEscapes left r
  | 0, c :: r =>
    match escapes.find? (·.isPrefixOf (c :: r)) with
    | some escape => withoutEscapes (escape.length - 1) r
    | none => c :: withoutEscapes 0 r

/-- A text without the escapes of styles. -/
def unstyled (text : String) : String := String.ofList (withoutEscapes 0 text.toList)

/-- Whatever follows, without its escapes a text is another text. -/
def Leaves (text plain : String) : Prop :=
  ∀ rest, withoutEscapes 0 (text.toList ++ rest) = plain.toList ++ withoutEscapes 0 rest

theorem unstyled_eq {text plain : String} (h : Leaves text plain) : unstyled text = plain := by
  have hleaves := h []
  rw [withoutEscapes, List.append_nil, List.append_nil] at hleaves
  rw [unstyled, hleaves, String.ofList_toList]

theorem withoutEscapes_cons {c : Char} (h : c ≠ '\x1b') (rest : List Char) :
    withoutEscapes 0 (c :: rest) = c :: withoutEscapes 0 rest := by
  have hnone : escapes.find? (·.isPrefixOf (c :: rest)) = none := by
    simp [escapes, reset, bold, dim, red, h.symm]
  rw [withoutEscapes, hnone]

/-- Without the character that starts them there are no escapes. -/
theorem leaves_self {text : String} (h : '\x1b' ∉ text.toList) : Leaves text text := by
  intro rest
  generalize text.toList = s at h
  induction s with
  | nil => rfl
  | cons c s ih =>
    rw [List.mem_cons, not_or] at h
    rw [List.cons_append, withoutEscapes_cons (Ne.symm h.1), ih h.2, List.cons_append]

theorem leaves_escape {escape : String} (h : escape.toList ∈ escapes) : Leaves escape "" := by
  intro rest
  unfold escapes at h
  simp only [List.map_cons, List.map_nil, List.mem_cons, List.not_mem_nil, or_false] at h
  rcases h with h | h | h | h <;> rw [h] <;> rfl

theorem leaves_append {s s' t t' : String} (h : Leaves s t) (h' : Leaves s' t') :
    Leaves (s ++ s') (t ++ t') := by
  intro rest
  rw [String.toList_append, String.toList_append, List.append_assoc, h, h', List.append_assoc]

theorem leaves_intercalate {ss ts : List String} (h : List.Forall₂ Leaves ss ts) :
    Leaves ("\n".intercalate ss) ("\n".intercalate ts) := by
  have hlinefeed : Leaves "\n" "\n" := leaves_self (by decide)
  induction h with
  | nil => exact leaves_self (by decide)
  | cons hhead htail ih =>
    -- there is a line feed only in front of another line
    cases htail with
    | nil => simpa using hhead
    | cons hnext hrest =>
      rw [String.intercalate_cons_cons, String.intercalate_cons_cons]
      exact leaves_append (leaves_append hhead hlinefeed) ih

/-- A style adds only escapes. -/
theorem leaves_styled {codes text : String} (hcodes : Leaves codes "") (h : '\x1b' ∉ text.toList) :
    Leaves (styled true codes text) text := by
  have hreset : Leaves reset "" := leaves_escape (by decide)
  unfold styled
  -- an empty text has no style
  split
  · simpa using leaves_append (leaves_append hcodes (leaves_self h)) hreset
  · exact leaves_self h

/-! ## Styled frames -/

theorem not_mem_toString (n : Nat) : '\x1b' ∉ (toString n).toList := by
  intro h
  rw [Nat.toString_eq_ofList_toDigits, String.toList_ofList] at h
  have hdigit : Char.isDigit '\x1b' := Nat.isDigit_of_mem_toDigits (by decide) (by decide) h
  exact absurd hdigit (by decide)

theorem not_mem_padded {width : Nat} {text : String} (h : '\x1b' ∉ text.toList) :
    '\x1b' ∉ (padded width text).toList := by
  simp [padded, h]

/-- Behind its mark and before its line, the number of a line is dim. -/
theorem leaves_gutter {width : Nat} {text : String} (h : '\x1b' ∉ text.toList) :
    Leaves (styled true dim (" " ++ padded width text ++ " |"))
      (styled false dim (" " ++ padded width text ++ " |")) := by
  apply leaves_styled (leaves_escape (by decide))
  simp [not_mem_padded h]

/-- Marks and carets are bold and red. -/
theorem leaves_mark {text : String} (h : '\x1b' ∉ text.toList) :
    Leaves (styled true (bold ++ red) text) (styled false (bold ++ red) text) :=
  leaves_styled (leaves_append (leaves_escape (by decide)) (leaves_escape (by decide))) h

theorem leaves_codeLine {target : Bool} {width number : Nat} {line : List Char}
    (h : '\x1b' ∉ line) :
    Leaves (codeLine true target width number line) (codeLine false target width number line) := by
  unfold codeLine
  apply leaves_append (leaves_append _ (leaves_gutter (not_mem_toString number)))
  · apply leaves_self
    split <;> simp [h]
  · have hmark : '\x1b' ∉ ">".toList := by decide
    cases target with
    | false => exact leaves_self (by decide)
    | true =>
      rw [if_pos rfl, if_pos rfl]
      exact leaves_mark hmark

theorem leaves_caretLine (width : Nat) (column : Int) (line : List Char) :
    Leaves (caretLine true width column line) (caretLine false width column line) := by
  have hblanks (s : List Char) : '\x1b' ∉ (blanks s).toList := by
    rw [blanks, String.toList_ofList, List.mem_map]
    rintro ⟨c, -, hc⟩
    split at hc <;> exact absurd hc (by decide)
  have hblank : Leaves " " " " := leaves_self (by decide)
  have hempty : '\x1b' ∉ "".toList := by decide
  have hcaret : '\x1b' ∉ "^".toList := by decide
  unfold caretLine
  apply leaves_append _ (leaves_mark hcaret)
  apply leaves_append _ (leaves_self (hblanks _))
  apply leaves_append _ hblank
  exact leaves_append hblank (leaves_gutter hempty)

/-- Without its escapes a styled frame is the plain one. -/
theorem leaves_render {source : String} (h : '\x1b' ∉ source.toList) (span : Span) :
    Leaves (render true source span) (render false source span) := by
  by_cases hne : source = ""
  · rw [render, render, if_pos hne, if_pos hne]
    exact leaves_self (by decide)
  obtain ⟨target, here, above, below, -, hwindow, -, -, hrender⟩ := exists_render hne span
  have hline : ∀ p ∈ above ++ (here, target) :: below, '\x1b' ∉ p.1 := by
    intro p hp hmem
    rw [← hwindow] at hp
    have hlines := List.mem_of_getElem? (getElem?_of_mem_zipIdx hp)
    rw [lines_eq_parts] at hlines
    exact h (Text.mem_parts.mp ⟨p.1, hlines, hmem⟩).1
  -- around the line of the place only the numbers have a style
  have hplain {ps : List (List Char × Nat)} (width : Nat) (hps : ∀ p ∈ ps, '\x1b' ∉ p.1) :
      List.Forall₂ Leaves (ps.map (plainLine true width)) (ps.map (plainLine false width)) := by
    rw [List.forall₂_map_left_iff, List.forall₂_map_right_iff, List.forall₂_same]
    exact fun p hp => leaves_codeLine (hps p hp)
  rw [hrender, hrender]
  apply leaves_intercalate
  apply List.rel_append (hplain _ fun p hp => hline p (by simp [hp]))
  apply List.Forall₂.cons (leaves_codeLine (hline (here, target) (by simp)))
  apply List.Forall₂.cons (leaves_caretLine _ _ _)
  exact hplain _ fun p hp => hline p (by simp [hp])

/-! ## Messages -/

theorem intercalate_ne_empty {rows : List String} (h : 2 ≤ rows.length) :
    "\n".intercalate rows ≠ "" := by
  match rows, h with
  | first :: second :: rest, _ =>
    rw [String.intercalate_cons_cons]
    simp

/-- A frame has at least the line of the place and the caret. -/
theorem render_ne_empty {source : String} (hne : source ≠ "") (color : Bool) (span : Span) :
    render color source span ≠ "" := by
  obtain ⟨target, here, above, below, -, -, -, -, hrender⟩ := exists_render hne span
  rw [hrender]
  apply intercalate_ne_empty
  rw [List.length_append, List.length_cons, List.length_cons]
  omega

theorem withMessage_eq (color : Bool) (message : String) {source : String} (hne : source ≠ "")
    (span : Span) : withMessage color message source span =
      styled color bold message ++ "\n\n" ++ render color source span := by
  unfold withMessage
  split
  · rename_i hempty
    exact absurd hempty (render_ne_empty hne color span)
  · rfl

/-- Without its escapes a styled message with a frame is the plain one. -/
theorem leaves_withMessage {message source : String} (hmessage : '\x1b' ∉ message.toList)
    (hsource : '\x1b' ∉ source.toList) (span : Span) :
    Leaves (withMessage true message source span) (withMessage false message source span) := by
  have hheading : Leaves (styled true bold message) (styled false bold message) :=
    leaves_styled (leaves_escape (by decide)) hmessage
  by_cases hne : source = ""
  · simpa [withMessage, render, hne] using hheading
  · rw [withMessage_eq true message hne, withMessage_eq false message hne]
    have hgap : Leaves "\n\n" "\n\n" := leaves_self (by decide)
    exact leaves_append (leaves_append hheading hgap) (leaves_render hsource span)

/-! ## Frames and their layout -/

/-- The plain frame of a text has the rows around the line of a place and a caret below it.  Without
their escapes styled frames and messages are the plain ones, unless the text or the message itself
has escapes. -/
theorem render_layout (source : String) (span : Span) :
    (source ≠ "" →
      "\n".intercalate (Text.lines source) = source ∧
      (∀ line ∈ Text.lines source, OneLine line) ∧
      ∃ target width above marked caret below,
        IsLayout (Text.lines source) span target width above marked caret below ∧
        render false source span = "\n".intercalate (above ++ marked :: caret :: below)) ∧
    ('\x1b' ∉ source.toList →
      unstyled (render true source span) = render false source span ∧
      ∀ message : String, '\x1b' ∉ message.toList →
        unstyled (withMessage true message source span) =
          withMessage false message source span) := by
  constructor
  · intro hne
    refine ⟨intercalate_textLines source, fun _ h => Text.oneLine_of_mem_lines h, ?_⟩
    exact exists_layout hne span
  · intro hsource
    refine ⟨unstyled_eq (leaves_render hsource span), fun message hmessage => ?_⟩
    exact unstyled_eq (leaves_withMessage hmessage hsource span)

/-- A place behind the end of the second line. -/
def behindSecond : Span := ⟨2, 9, 4, 0, none⟩

/-- A tab stays in front of the caret, which stands right behind the line. -/
theorem render_layout_tab :
    (∃ target width above marked caret below,
      IsLayout (Text.lines "a\n\tb") behindSecond target width above marked caret below ∧
      render false "a\n\tb" behindSecond =
        "\n".intercalate (above ++ marked :: caret :: below)) ∧
    render false "a\n\tb" behindSecond = "  1 | a\n> 2 | \tb\n    | \t ^" ∧
    unstyled (withMessage true "no" "a\n\tb" behindSecond) =
      withMessage false "no" "a\n\tb" behindSecond := by
  refine ⟨((render_layout "a\n\tb" behindSecond).1 (by decide)).2.2, by decide, ?_⟩
  exact ((render_layout "a\n\tb" behindSecond).2 (by decide)).2 "no" (by decide)

end DesignTokens.Frame
