import DesignTokens.Css.Text
import DesignTokens.Data.Spelling
import DesignTokens.Proofs.Json.NumberText
import DesignTokens.Proofs.Text

/-!
# Texts on one line

A text is on one line when there is no line feed in it.  Numbers are, and so is data that is spelled
out, whatever its texts are (`oneLine_spelled`), because these are quoted; a text by itself is
written as it is.  Names in small letters with hyphens are on one line when the names are.
-/

namespace DesignTokens

/-- No line ends within a text. -/
def OneLine (s : String) : Prop := '\n' ∉ s.toList

instance (s : String) : Decidable (OneLine s) := inferInstanceAs (Decidable ('\n' ∉ s.toList))

/-! ## Texts that are put together -/

@[simp] theorem oneLine_append {s t : String} : OneLine (s ++ t) ↔ OneLine s ∧ OneLine t := by
  simp [OneLine, String.toList_append]

@[simp] theorem oneLine_ofList {s : List Char} : OneLine (String.ofList s) ↔ '\n' ∉ s := by
  rw [OneLine, String.toList_ofList]

theorem oneLine_join {ss : List String} : OneLine (String.join ss) ↔ ∀ s ∈ ss, OneLine s := by
  simp [OneLine, String.toList_join]

theorem oneLine_intercalate {separator : String} (hseparator : OneLine separator)
    {ss : List String} (hss : ∀ s ∈ ss, OneLine s) : OneLine (separator.intercalate ss) := by
  induction ss with
  | nil => simp [OneLine]
  | cons s ss ih =>
    obtain ⟨hs, hss⟩ := List.forall_mem_cons.mp hss
    cases ss with
    | nil => exact hs
    | cons t ss =>
      rw [String.intercalate_cons_cons, oneLine_append, oneLine_append]
      exact ⟨⟨hs, hseparator⟩, ih hss⟩

/-! ## Lines of a text -/

namespace Text

/-- The lines of a text, of which the last one may be empty. -/
def lines (text : String) : List String := (parts '\n' text.toList).map String.ofList

theorem oneLine_of_mem_lines {text line : String} (h : line ∈ lines text) : OneLine line := by
  obtain ⟨part, hpart, rfl⟩ := List.mem_map.mp h
  rw [oneLine_ofList]
  exact fun hmem => (mem_parts.mp ⟨part, hpart, hmem⟩).2 rfl

/-- Lines with a line feed behind each of them. -/
theorem toList_intercalate_lines {ls : List String} (hne : ls ≠ []) :
    ("\n".intercalate ls ++ "\n").toList = ls.flatMap fun l => l.toList ++ ['\n'] := by
  induction ls with
  | nil => exact absurd rfl hne
  | cons l ls ih =>
    cases ls with
    | nil => simp
    | cons l' ls =>
      have hrest := ih (List.cons_ne_nil _ _)
      rw [String.toList_append] at hrest
      rw [String.intercalate_cons_cons, List.flatMap_cons, ← hrest]
      simp [String.toList_append]

/-- Lines that are put together are the first lines of the text. -/
theorem parts_flatMap {ls : List String} (h : ∀ l ∈ ls, OneLine l) (rest : List Char) :
    parts '\n' (ls.flatMap (fun l => l.toList ++ ['\n']) ++ rest) =
      ls.map String.toList ++ parts '\n' rest := by
  induction ls with
  | nil => rfl
  | cons l ls ih =>
    obtain ⟨hl, hls⟩ := List.forall_mem_cons.mp h
    rw [List.flatMap_cons, List.append_assoc, List.append_assoc, List.singleton_append,
      parts_append, parts_of_not_mem hl, ih hls]
    rfl

/-- The lines of a text begin with the lines in front, as long as these are lines. -/
theorem lines_intercalate {front : List String} (h : ∀ l ∈ front, OneLine l) (hne : front ≠ [])
    (rest : List String) : ∃ more, lines ("\n".intercalate (front ++ rest) ++ "\n") =
      front ++ more := by
  have hne' : front ++ rest ≠ [] := by simp [hne]
  refine ⟨(parts '\n' (rest.flatMap fun l => l.toList ++ ['\n'])).map String.ofList, ?_⟩
  rw [lines, toList_intercalate_lines hne', List.flatMap_append, parts_flatMap h, List.map_append,
    List.map_map]
  simp [Function.comp_def]

end Text

/-! ## Numbers -/

namespace Decimal

theorem not_mem_digitText (n : Nat) : '\n' ∉ digitText n := fun h => by
  have hdigit := (Json.isDigits_digitText n).digits _ h
  simp [Char.isDigit] at hdigit

theorem not_mem_exponentText (e : Int) : '\n' ∉ exponentText e := by
  have hdigits := not_mem_digitText e.natAbs
  rw [exponentText]
  split <;> split <;> simp [hdigits]

theorem not_mem_placePoint {keepsPoint : Bool} {digits : List Char} {point : Int}
    (h : '\n' ∉ digits) : '\n' ∉ placePoint keepsPoint digits point := by
  have htake : ∀ n, '\n' ∉ digits.take n := fun n hn => h (List.mem_of_mem_take hn)
  have hdrop : ∀ n, '\n' ∉ digits.drop n := fun n hn => h (List.mem_of_mem_drop hn)
  rw [placePoint]
  split
  · simp [h]
  · dsimp only
    split
    · split <;> simp [htake]
    · simp [htake, hdrop]

theorem not_mem_render (layout : Layout) (d : Decimal) : '\n' ∉ render layout d := by
  have hdigits := not_mem_digitText d.digits
  have hexponent := not_mem_exponentText
  rw [render]
  split
  · exact not_mem_placePoint hdigits
  · split
    · simp
    · simp_all
    · simp_all

end Decimal

namespace Binary64

theorem not_mem_signed {negative : Bool} {text : List Char} (h : '\n' ∉ text) :
    '\n' ∉ signed negative text := by
  rw [signed]
  split <;> simp [h]

theorem oneLine_text (x : Binary64) : OneLine x.text := by
  rw [text, oneLine_ofList]
  split
  · decide
  · exact not_mem_signed (by decide)
  · exact not_mem_signed (Decimal.not_mem_render _ _)

theorem oneLine_briefText (x : Binary64) : OneLine x.briefText := by
  rw [briefText, oneLine_ofList]
  split
  · decide
  · exact not_mem_signed (by decide)
  · exact not_mem_signed (Decimal.not_mem_render _ _)

end Binary64

theorem oneLine_int (i : Int) : OneLine (toString i) := by
  rw [OneLine, Json.toList_toString]
  exact Binary64.not_mem_signed (Decimal.not_mem_digitText _)

/-! ## Spelled data -/

namespace Text

theorem not_mem_hexDigits (width n : Nat) : '\n' ∉ hexDigits width n := by
  have hdigit : ∀ d < 16, hexDigit d ≠ '\n' := by decide
  induction width generalizing n with
  | zero => simp [hexDigits]
  | succ width ih =>
    rw [hexDigits, List.mem_append, List.mem_singleton, not_or]
    exact ⟨ih _, (hdigit (n % 16) (Nat.mod_lt _ (by decide))).symm⟩

/-- A line feed is shown as another character. -/
theorem not_mem_quotedChar {mark : Char} (hmark : mark ≠ '\n') (c : Char) :
    '\n' ∉ quotedChar mark c := by
  unfold quotedChar
  split_ifs with hescaped hline
  · rcases hescaped with rfl | rfl
    · simp [Ne.symm hmark]
    · decide
  · decide
  · decide
  · decide
  · simpa using Ne.symm hline
  all_goals
    simp only [List.mem_cons, not_or]
    exact ⟨by decide, by decide, not_mem_hexDigits _ _⟩

theorem oneLine_quote (s : String) : OneLine (quote s) := by
  have hmark : quotationMark s.toList ≠ '\n' := by
    rw [quotationMark]
    split <;> decide
  rw [quote, oneLine_ofList, quoted]
  simp [Ne.symm hmark, not_mem_quotedChar hmark]

end Text

theorem Scalar.oneLine_spelled (s : Scalar) : OneLine s.spelled := by
  cases s with
  | bool b => cases b <;> decide
  | int i => exact oneLine_int i
  | float x => exact x.oneLine_text
  | text t => exact Text.oneLine_quote t

namespace Data

mutual

/-- Spelled data is on one line. -/
theorem oneLine_spelled : (d : Data) → OneLine d.spelled
  | .null => by rw [spelled]; decide
  | .scalar s => by rw [spelled]; exact s.oneLine_spelled
  | .list items => by
    rw [spelled, oneLine_append, oneLine_append]
    exact ⟨⟨by decide, oneLine_intercalate (by decide) (oneLine_spelledItems items)⟩, by decide⟩
  | .object members => by
    rw [spelled, oneLine_append, oneLine_append]
    exact ⟨⟨by decide, oneLine_intercalate (by decide) (oneLine_spelledMembers members)⟩,
      by decide⟩

theorem oneLine_spelledItems : (ds : List Data) → ∀ s ∈ spelledItems ds, OneLine s
  | [] => by simp [spelledItems]
  | d :: ds => by
    rw [spelledItems]
    exact List.forall_mem_cons.mpr ⟨oneLine_spelled d, oneLine_spelledItems ds⟩

theorem oneLine_spelledMembers : (ms : List (String × Data)) → ∀ s ∈ spelledMembers ms, OneLine s
  | [] => by simp [spelledMembers]
  | (k, d) :: ms => by
    rw [spelledMembers]
    refine List.forall_mem_cons.mpr ⟨?_, oneLine_spelledMembers ms⟩
    rw [oneLine_append, oneLine_append]
    exact ⟨⟨Text.oneLine_quote k, by decide⟩, oneLine_spelled d⟩

end

/-- A text by itself is written as it is, and everything else on one line. -/
theorem oneLine_plain {d : Data} (h : ∀ s, d = .text s → OneLine s) : OneLine d.plain := by
  cases d with
  | scalar s =>
    cases s with
    | text t => exact h t rfl
    | bool b => exact (Scalar.bool b).oneLine_spelled
    | int i => exact oneLine_int i
    | float x => exact x.oneLine_text
  | null => exact oneLine_spelled .null
  | list items => exact oneLine_spelled (.list items)
  | object members => exact oneLine_spelled (.object members)

end Data

/-! ## Names of custom properties -/

namespace Text

/-- Only a line feed has a line feed as its small letter. -/
theorem counterpart_ne {c : Char} (h : c ≠ '\n') : counterpart lowerRuns c ≠ '\n' := by
  -- every run of letters stays behind the line feed when it is shifted
  have hruns : ∀ r ∈ lowerRuns, 10 < r.first + r.shift := by decide +kernel
  rw [counterpart]
  split
  · rename_i r hr
    have hrun := hruns r (List.mem_of_find?_eq_some hr)
    have hholds : r.holds c.toNat = true := by simpa using List.find?_some hr
    simp only [CaseRun.holds, Bool.and_eq_true, decide_eq_true_eq] at hholds
    have hlt : 10 < ((c.toNat : Int) + r.shift).toNat := by omega
    intro heq
    by_cases hvalid : ((c.toNat : Int) + r.shift).toNat.isValidChar
    · rw [Char.ofNat, dif_pos hvalid] at heq
      have hnat : ((c.toNat : Int) + r.shift).toNat = 10 := congrArg Char.toNat heq
      omega
    · rw [Char.ofNat, dif_neg hvalid] at heq
      cases heq
  · exact h

theorem not_mem_lowerAfter {before s : List Char} (h : '\n' ∉ s) :
    '\n' ∉ lowerAfter before s := by
  induction s generalizing before with
  | nil => simp [lowerAfter]
  | cons c s ih =>
    rw [List.mem_cons, not_or] at h
    rw [lowerAfter, List.mem_append, not_or]
    refine ⟨?_, ih h.2⟩
    split_ifs
    · decide
    · decide
    · decide
    · simpa using (counterpart_ne (Ne.symm h.1)).symm

end Text

namespace Css

theorem not_mem_hyphenate {before : Option Char} {s : List Char} (h : '\n' ∉ s) :
    '\n' ∉ hyphenate before s := by
  induction s generalizing before with
  | nil => simp [hyphenate]
  | cons c s ih =>
    rw [List.mem_cons, not_or] at h
    rw [hyphenate]
    split <;> simp [h.1, ih h.2]

theorem oneLine_kebab {name : String} (h : OneLine name) : OneLine (kebab name) := by
  rw [kebab, oneLine_ofList]
  refine Text.not_mem_lowerAfter fun hmem => ?_
  obtain ⟨c, hc, hcn⟩ := List.mem_map.mp hmem
  split at hcn
  · exact absurd hcn (by decide)
  · exact not_mem_hyphenate h (hcn ▸ hc)

/-- The custom property of a path is on one line when the path is. -/
theorem oneLine_variableName {path : String} (h : OneLine path) : OneLine (variableName path) := by
  rw [variableName, oneLine_append]
  refine ⟨by decide, oneLine_intercalate (by decide) fun s hs => ?_⟩
  obtain ⟨name, hname, rfl⟩ := List.mem_map.mp hs
  obtain ⟨part, hpart, rfl⟩ := List.mem_map.mp hname
  refine oneLine_kebab (oneLine_ofList.mpr fun hmem => h ?_)
  exact (Text.mem_parts.mp ⟨part, hpart, hmem⟩).1

theorem oneLine_partName {own : String} (hown : OneLine own) {part : Option String}
    (hpart : ∀ name, part = some name → OneLine name) : OneLine (partName own part) := by
  cases part with
  | none => exact hown
  | some name =>
    rw [partName, oneLine_append, oneLine_append]
    exact ⟨⟨hown, by decide⟩, hpart name rfl⟩

end Css

end DesignTokens
