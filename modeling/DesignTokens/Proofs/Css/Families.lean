import DesignTokens.Css.Text
import DesignTokens.Proofs.Text
import DesignTokens.Value.Grammar
import Mathlib.Algebra.Group.Nat.Even
import Mathlib.Data.List.DropRight

/-!
# Reading font families back

The text of font families is cut at the commas outside quotation marks; of each part the blanks at
its ends are dropped, and then the quotation marks around it.  Only a name with a blank is written
in quotation marks, so names that have commas or quotation marks themselves, or other blanks at
their ends, may be read as other names.

## Main statement

* `families_read`: which lists of names are read back, and that no two of them have one text.
-/

namespace DesignTokens.Css

/-! ## Reading -/

/-- Whether a character is a blank of a style sheet. -/
def isSpace (c : Char) : Bool :=
  c = ' ' || c = '\t' || c = '\n' || c = '\x0c' || c = '\r'

/-- Whether a quotation mark is open behind a text, when it is known of the place in front of it. -/
def isOpen (before : Bool) : List Char → Bool
  | [] => before
  | c :: s => isOpen (before ^^ c = '"') s

/-- The parts of a text between the commas outside quotation marks. -/
def familyParts (before : Bool) : List Char → List (List Char)
  | [] => [[]]
  | c :: s =>
    if c = ',' ∧ before = false then [] :: familyParts before s
    else (familyParts (before ^^ c = '"') s).modifyHead (c :: ·)

/-- A text without the blanks at its ends. -/
def trimmed (s : List Char) : List Char := (s.dropWhile isSpace).rdropWhile isSpace

/-- A text without the quotation marks around it, if there are any. -/
def unquoted (s : List Char) : List Char :=
  if 2 ≤ s.length ∧ s.head? = some '"' ∧ s.getLast? = some '"' then s.tail.dropLast else s

/-- The name that a part is read as. -/
def readFamily (s : List Char) : String := String.ofList (unquoted (trimmed s))

/-- The names that the text of font families is read as. -/
def readFamilies (text : String) : List String := (familyParts false text.toList).map readFamily

/-! ## Names that are read back -/

/-- Every comma of a text stands inside quotation marks. -/
def Covered (before : Bool) (s : List Char) : Prop :=
  ∀ u v, s = u ++ ',' :: v → isOpen before u = true

/-- A name by itself is read back: its commas stand inside quotation marks when it is written, and
without quotation marks that are added there is nothing at its ends that is dropped. -/
structure Intact (name : String) : Prop where
  covered : Covered (name.toList.contains ' ') name.toList
  bare : ' ' ∉ name.toList → trimmed name.toList = name.toList ∧
    unquoted name.toList = name.toList

/-- Every name is read back by itself, and none but the last leaves a quotation mark open. -/
structure Legible (names : List String) : Prop where
  intact : ∀ name ∈ names, Intact name
  closed : ∀ name ∈ names.dropLast, Even (name.toList.count '"')

/-! ## Quotation marks -/

theorem isOpen_eq (before : Bool) (s : List Char) :
    isOpen before s = (before ^^ decide (¬ Even (s.count '"'))) := by
  induction s generalizing before with
  | nil => simp [isOpen]
  | cons c s ih =>
    rw [isOpen, ih]
    by_cases h : c = '"'
    · have hcount : decide (¬ Even ((c :: s).count '"')) = !decide (¬ Even (s.count '"')) := by
        rw [h, List.count_cons_self, ← decide_not, decide_eq_decide, Nat.even_add_one]
      rw [hcount, decide_eq_true h, Bool.xor_assoc, Bool.true_xor]
    · rw [List.count_cons_of_ne h, decide_eq_false h, Bool.xor_false]

theorem covered_cons {before : Bool} {c : Char} {s : List Char} :
    Covered before (c :: s) ↔ (c = ',' → before = true) ∧ Covered (before ^^ c = '"') s := by
  constructor
  · intro h
    refine ⟨fun hc => h [] s (by rw [hc]; rfl), fun u v huv => ?_⟩
    exact h (c :: u) v (by rw [huv]; rfl)
  · rintro ⟨hc, hs⟩ u v huv
    cases u with
    | nil => exact hc (List.cons.inj huv).1
    | cons d u =>
      obtain ⟨rfl, hv⟩ := List.cons.inj huv
      exact hs u v hv

theorem covered_nil (before : Bool) : Covered before [] := by
  intro u v huv
  simp at huv

/-- A text has no comma outside quotation marks, or there is a first one. -/
theorem covered_or (before : Bool) (s : List Char) :
    Covered before s ∨ ∃ u v, s = u ++ ',' :: v ∧ Covered before u ∧ isOpen before u = false := by
  induction s generalizing before with
  | nil => exact .inl (covered_nil before)
  | cons c s ih =>
    by_cases hcut : c = ',' ∧ before = false
    · exact .inr ⟨[], s, by rw [hcut.1]; rfl, covered_nil before, hcut.2⟩
    · have hc : c = ',' → before = true := fun h => by simpa [h] using hcut
      rcases ih (before ^^ c = '"') with hs | ⟨u, v, rfl, hu, hclosed⟩
      · exact .inl (covered_cons.mpr ⟨hc, hs⟩)
      · exact .inr ⟨c :: u, v, rfl, covered_cons.mpr ⟨hc, hu⟩, hclosed⟩

/-! ## Parts -/

/-- A text without commas outside quotation marks belongs to one part. -/
theorem familyParts_append {before : Bool} {s : List Char} (hs : Covered before s)
    (t : List Char) :
    familyParts before (s ++ t) = (familyParts (isOpen before s) t).modifyHead (s ++ ·) := by
  induction s generalizing before with
  | nil =>
    show familyParts before t = (familyParts before t).modifyHead id
    rw [List.modifyHead_id]
    rfl
  | cons c s ih =>
    obtain ⟨hc, hs⟩ := covered_cons.mp hs
    have hno : ¬ (c = ',' ∧ before = false) := by
      rintro ⟨h, hbefore⟩
      rw [hc h] at hbefore
      cases hbefore
    rw [List.cons_append, familyParts, if_neg hno, ih hs, List.modifyHead_modifyHead]
    rfl

theorem familyParts_comma {before : Bool} {s : List Char} (hs : Covered before s)
    (hclosed : isOpen before s = false) (t : List Char) :
    familyParts before (s ++ ',' :: t) = s :: familyParts false t := by
  rw [familyParts_append hs, hclosed, familyParts, if_pos ⟨rfl, rfl⟩, List.modifyHead_cons,
    List.append_nil]

theorem familyParts_of_covered {before : Bool} {s : List Char} (hs : Covered before s) :
    familyParts before s = [s] := by
  have happend := familyParts_append hs []
  rwa [List.append_nil, familyParts, List.modifyHead_cons, List.append_nil] at happend

/-! ## What is dropped from parts -/

theorem count_comma_dropWhile (s : List Char) : (s.dropWhile isSpace).count ',' = s.count ',' := by
  induction s with
  | nil => rfl
  | cons c s ih =>
    rw [List.dropWhile_cons]
    split
    · rename_i hc
      rw [ih, List.count_cons_of_ne (ne_of_class hc (by decide))]
    · rfl

theorem count_comma_unquoted (s : List Char) : (unquoted s).count ',' = s.count ',' := by
  rw [unquoted]
  split
  · rename_i h
    obtain ⟨hlength, hhead, hlast⟩ := h
    obtain ⟨u, rfl⟩ := List.head?_eq_some_iff.mp hhead
    have hu : u ≠ [] := by
      rintro rfl
      simp at hlength
    rw [List.getLast?_cons_of_ne_nil hu] at hlast
    obtain ⟨v, rfl⟩ := List.getLast?_eq_some_iff.mp hlast
    simp
  · rfl

/-- What is dropped from a part has no commas. -/
theorem count_comma_readFamily (s : List Char) : (readFamily s).toList.count ',' = s.count ',' := by
  rw [readFamily, String.toList_ofList, count_comma_unquoted, trimmed, List.rdropWhile,
    List.count_reverse, count_comma_dropWhile, List.count_reverse, count_comma_dropWhile]

theorem readFamily_cons_space (s : List Char) : readFamily (' ' :: s) = readFamily s := by
  rw [readFamily, trimmed, List.dropWhile_cons_of_pos (by decide)]
  rfl

theorem trimmed_sublist (s : List Char) : (trimmed s).Sublist s :=
  (List.rdropWhile_prefix isSpace _).sublist.trans (List.dropWhile_sublist _)

theorem unquoted_sublist (s : List Char) : (unquoted s).Sublist s := by
  rw [unquoted]
  split
  · exact (List.dropLast_sublist _).trans (List.tail_sublist _)
  · exact List.Sublist.refl s

/-- A text is kept as it is exactly when nothing is dropped from it. -/
theorem readFamily_eq_self_iff {name : String} :
    readFamily name.toList = name ↔
      trimmed name.toList = name.toList ∧ unquoted name.toList = name.toList := by
  rw [readFamily, ← String.toList_inj, String.toList_ofList]
  constructor
  · intro h
    have htrimmed : trimmed name.toList = name.toList := by
      refine (trimmed_sublist _).eq_of_length_le ?_
      calc name.toList.length = (unquoted (trimmed name.toList)).length := by rw [h]
        _ ≤ (trimmed name.toList).length := (unquoted_sublist _).length_le
    exact ⟨htrimmed, by rwa [htrimmed] at h⟩
  · rintro ⟨htrimmed, hunquoted⟩
    rw [htrimmed, hunquoted]

/-- What stands in quotation marks is kept as it is. -/
theorem readFamily_quoted (s : List Char) : readFamily ('"' :: (s ++ ['"'])) = String.ofList s := by
  have htrimmed : trimmed ('"' :: (s ++ ['"'])) = '"' :: (s ++ ['"']) := by
    rw [trimmed, List.dropWhile_cons_of_neg (by decide), ← List.cons_append,
      List.rdropWhile_concat_neg _ _ _ (by decide)]
  have hlast : ('"' :: (s ++ ['"'])).getLast? = some '"' := by
    rw [← List.cons_append, List.getLast?_concat]
  rw [readFamily, htrimmed, unquoted, if_pos ⟨by simp, rfl, hlast⟩, List.tail_cons,
    List.dropLast_concat]

/-! ## Names as they are written -/

theorem toList_familyText (name : String) : (familyText name).toList =
    if ' ' ∈ name.toList then '"' :: (name.toList ++ ['"']) else name.toList := by
  rw [familyText_eq]
  by_cases h : ' ' ∈ name.toList
  · simp [h, String.toList_append]
  · simp [h]

theorem count_comma_familyText (name : String) :
    (familyText name).toList.count ',' = name.toList.count ',' := by
  rw [toList_familyText]
  split <;> simp

theorem isOpen_familyText (name : String) :
    isOpen false (familyText name).toList = false ↔ Even (name.toList.count '"') := by
  rw [toList_familyText, isOpen_eq]
  split
  · simp [Nat.even_add_one]
  · simp

theorem covered_concat_quote {before : Bool} {s : List Char} :
    Covered before (s ++ ['"']) ↔ Covered before s := by
  induction s generalizing before with
  | nil => simp [covered_cons, covered_nil]
  | cons c s ih => rw [List.cons_append, covered_cons, ih, covered_cons]

theorem covered_familyText (name : String) :
    Covered false (familyText name).toList ↔ Covered (name.toList.contains ' ') name.toList := by
  rw [toList_familyText]
  split
  · rename_i h
    simp [covered_cons, covered_concat_quote, h]
  · rename_i h
    simp [h]

/-- A name is intact when it is one part as it is written, which is read as the name. -/
theorem intact_iff {name : String} : Intact name ↔
    Covered false (familyText name).toList ∧ readFamily (familyText name).toList = name := by
  rw [covered_familyText, toList_familyText]
  by_cases h : ' ' ∈ name.toList
  · rw [if_pos h, readFamily_quoted, String.ofList_toList]
    exact ⟨fun hi => ⟨hi.covered, rfl⟩, fun hc => ⟨hc.1, fun hno => absurd h hno⟩⟩
  · rw [if_neg h, readFamily_eq_self_iff]
    exact ⟨fun hi => ⟨hi.covered, hi.bare h⟩, fun hc => ⟨hc.1, fun _ => hc.2⟩⟩

/-! ## Lists of names -/

theorem familiesText_cons (name next : String) (rest : List String) :
    (familiesText (name :: next :: rest)).toList =
      (familyText name).toList ++ ',' :: ' ' :: (familiesText (next :: rest)).toList := by
  rw [familiesText, String.toList_intercalate, List.map_map, List.map_cons, List.map_cons,
    List.intercalate_cons_cons, familiesText, String.toList_intercalate, List.map_map,
    List.map_cons]
  simp

section

variable {s u : List Char} {name : String} {names : List String}
  (hcount : s.count ',' = name.toList.count ',')

include hcount

/-- A part that is read as the name ends where the text of the name does, and not before. -/
theorem covered_of_head (h : (familyParts false (s ++ u)).map readFamily = name :: names) :
    Covered false s := by
  rcases covered_or false s with hs | ⟨v, w, rfl, hv, hclosed⟩
  · exact hs
  · -- the part that ends before has fewer commas than the name
    rw [List.append_assoc, List.cons_append, familyParts_comma hv hclosed, List.map_cons] at h
    have hv := count_comma_readFamily v
    rw [(List.cons.inj h).1, ← hcount, List.count_append, List.count_cons_self] at hv
    omega

/-- And not behind it. -/
theorem closed_of_head (hs : Covered false s)
    (h : (familyParts false (s ++ ',' :: u)).map readFamily = name :: names) :
    isOpen false s = false := by
  by_contra hopen
  rw [Bool.not_eq_false] at hopen
  rw [familyParts_append hs, hopen, familyParts, if_neg (by simp)] at h
  generalize familyParts (true ^^ decide (',' = '"')) u = parts at h
  cases parts with
  | nil => simp at h
  | cons p ps =>
    rw [List.modifyHead_cons, List.modifyHead_cons, List.map_cons] at h
    have hp := count_comma_readFamily (s ++ ',' :: p)
    rw [(List.cons.inj h).1, ← hcount, List.count_append, List.count_cons_self] at hp
    omega

end

theorem map_readFamily_space (t : List Char) :
    (familyParts false (' ' :: t)).map readFamily = (familyParts false t).map readFamily := by
  rw [familyParts, if_neg (by decide)]
  cases h : familyParts (false ^^ decide (' ' = '"')) t with
  | nil => simpa using h
  | cons p ps =>
    have hp : familyParts false t = p :: ps := h
    rw [hp, List.modifyHead_cons, List.map_cons, readFamily_cons_space, List.map_cons]

theorem readFamilies_single {name : String} :
    readFamilies (familiesText [name]) = [name] ↔ Intact name := by
  have htext : (familiesText [name]).toList = (familyText name).toList := by
    simp [familiesText]
  rw [intact_iff, readFamilies, htext]
  constructor
  · intro h
    have hcovered : Covered false (familyText name).toList :=
      covered_of_head (u := []) (count_comma_familyText name) (by rwa [List.append_nil])
    rw [familyParts_of_covered hcovered] at h
    exact ⟨hcovered, by simpa using h⟩
  · rintro ⟨hcovered, hread⟩
    rw [familyParts_of_covered hcovered, List.map_singleton, hread]

theorem readFamilies_cons {name next : String} {rest : List String} :
    readFamilies (familiesText (name :: next :: rest)) = name :: next :: rest ↔
      (Intact name ∧ Even (name.toList.count '"')) ∧
        readFamilies (familiesText (next :: rest)) = next :: rest := by
  rw [intact_iff, ← isOpen_familyText, readFamilies, readFamilies, familiesText_cons]
  constructor
  · intro h
    have hcovered := covered_of_head (count_comma_familyText name) h
    have hclosed := closed_of_head (count_comma_familyText name) hcovered h
    rw [familyParts_comma hcovered hclosed, List.map_cons, map_readFamily_space] at h
    exact ⟨⟨⟨hcovered, (List.cons.inj h).1⟩, hclosed⟩, (List.cons.inj h).2⟩
  · rintro ⟨⟨⟨hcovered, hread⟩, hclosed⟩, hrest⟩
    rw [familyParts_comma hcovered hclosed, List.map_cons, map_readFamily_space, hread, hrest]

/-- A list of names is read back exactly when each of them is, and none but the last leaves a
quotation mark open. -/
theorem readFamilies_eq_iff {names : List String} (hne : names ≠ []) :
    readFamilies (familiesText names) = names ↔ Legible names := by
  obtain ⟨name, rest, rfl⟩ := List.exists_cons_of_ne_nil hne
  clear hne
  induction rest generalizing name with
  | nil =>
    rw [readFamilies_single]
    exact ⟨fun h => ⟨by simpa using h, by simp⟩, fun h => h.intact _ List.mem_cons_self⟩
  | cons next rest ih =>
    rw [readFamilies_cons, ih]
    constructor
    · rintro ⟨⟨hname, hclosed⟩, hrest⟩
      exact ⟨List.forall_mem_cons.mpr ⟨hname, hrest.intact⟩,
        List.forall_mem_cons.mpr ⟨hclosed, hrest.closed⟩⟩
    · intro h
      obtain ⟨hname, hintact⟩ := List.forall_mem_cons.mp h.intact
      obtain ⟨hclosed, hrest⟩ := List.forall_mem_cons.mp h.closed
      exact ⟨⟨hname, hclosed⟩, hintact, hrest⟩

/-- Names are read back from their text exactly when they are legible, and no other legible names
have the same text. -/
theorem families_read {names : List String} (hne : names ≠ []) :
    (readFamilies (familiesText names) = names ↔ Legible names) ∧
      (Legible names → ∀ others : List String, others ≠ [] → Legible others →
        familiesText others = familiesText names → others = names) := by
  refine ⟨readFamilies_eq_iff hne, fun hnames others hne' hothers htext => ?_⟩
  calc others = readFamilies (familiesText others) := ((readFamilies_eq_iff hne').mpr hothers).symm
    _ = readFamilies (familiesText names) := by rw [htext]
    _ = names := (readFamilies_eq_iff hne).mpr hnames

/-- Names with a comma and with quotation marks are read back when a blank puts them in quotation
marks that leave the comma inside. -/
theorem families_read_quoted :
    let names := ["Inter", "The \"B\" Face, Bold", "serif"]
    names ≠ [] ∧ readFamilies (familiesText names) = names ∧ Legible names ∧
      ∀ others : List String, others ≠ [] → Legible others →
        familiesText others = familiesText names → others = names := by
  intro names
  have hne : names ≠ [] := List.cons_ne_nil _ _
  have hread : readFamilies (familiesText names) = names := by decide +kernel
  have hlegible : Legible names := (families_read hne).1.mp hread
  exact ⟨hne, hread, hlegible, (families_read hne).2 hlegible⟩

/-- A name with a comma and without a blank is read as two names, and two names can have the text of
one. -/
theorem families_not_read :
    Grammar.value .fontFamily (.scalar (.text "a,b") .origin) = .ok (.list [.text "a,b"]) ∧
      readFamilies (familiesText ["a,b"]) = ["a", "b"] ∧
      familiesText ["\"a", "b\""] = familiesText ["a, b"] := by
  refine ⟨rfl, by decide +kernel, by decide +kernel⟩

end DesignTokens.Css
