import DesignTokens.Proofs.Draft.Positions
import DesignTokens.Proofs.Reference

/-!
# How references are spelled

A reference is spelled as the segments of its path with points between them, and the mode behind a
`#` if there is one, in braces.  What is spelled so is read, and nothing else is but the same texts
with a line break behind them.  The names that discovery takes are segments, so every token that is
found can be referred to.
-/

namespace DesignTokens

namespace Reference

/-! ## Paths of segments -/

/-- A segment of a path is not empty, and it has no character with a meaning in references. -/
def IsSegment (s : String) : Prop := s ≠ "" ∧ ∀ c ∈ s.toList, c ∉ ['\x7b', '\x7d', '#', '.']

/-- The name of a mode is not empty, and it has no character that ends it. -/
def IsModeName (s : String) : Prop := s ≠ "" ∧ ∀ c ∈ s.toList, c ∉ ['\x7b', '\x7d', '#']

theorem isMark_eq_false_iff {c : Char} : isMark c = false ↔ c ∉ ['\x7b', '\x7d', '#'] := by
  simp [isMark, not_or, and_assoc]

/-- The names that discovery takes are those that can be segments. -/
theorem isName_iff {s : String} : Discovery.isName s = true ↔ IsSegment s := by
  simp only [Discovery.isName, Discovery.isForbidden, IsSegment, isMark, Bool.and_eq_true,
    Bool.not_eq_true', List.any_eq_false, decide_eq_true_eq]
  simp [not_or, and_comm, and_assoc, and_left_comm]

/-- A path has names where all its parts are something. -/
theorem isPath_iff {s : List Char} :
    (isPath false s = true ↔ ∀ p ∈ Text.parts '.' s, p ≠ []) ∧
      (isPath true s = true ↔ ∀ p ∈ (Text.parts '.' s).tail, p ≠ []) := by
  -- both go together: a point leads to the start of a name, any other character into it
  induction s with
  | nil => simp [isPath, Text.parts]
  | cons c r ih =>
    obtain ⟨ihfalse, ihtrue⟩ := ih
    rw [isPath, isPath, Text.parts]
    split
    · simpa using ihfalse
    · cases hp : Text.parts '.' r with
      | nil => exact absurd hp (Text.parts_ne_nil '.' r)
      | cons p ps => simpa [hp] using ihtrue

/-- The target of a reference is a path where its names are segments. -/
theorem isPath_and_iff {target : String} :
    (isPath false target.toList = true ∧ ∀ c ∈ target.toList, isMark c = false) ↔
      ∀ n ∈ Path.names target, IsSegment n := by
  have hnames : (∀ n ∈ Path.names target, IsSegment n) ↔
      (∀ p ∈ Text.parts '.' target.toList, p ≠ []) ∧
        ∀ p ∈ Text.parts '.' target.toList, ∀ c ∈ p, isMark c = false ∧ c ≠ '.' := by
    rw [Path.names, List.forall_mem_map, ← forall₂_and]
    simp [IsSegment, isMark_eq_false_iff, and_assoc]
  rw [hnames, isPath_iff.1]
  refine and_congr_right fun _ => ⟨fun h p hp c hc => ?_, fun h c hc => ?_⟩
  · have hmem := Text.mem_parts.mp ⟨p, hp, hc⟩
    exact ⟨h c hmem.1, hmem.2⟩
  · by_cases hpoint : c = '.'
    · subst hpoint
      decide
    · obtain ⟨p, hp, hcp⟩ := Text.mem_parts.mpr ⟨hc, hpoint⟩
      exact (h p hp c hcp).1

/-! ## Spellings -/

/-- A text spells a reference: the segments of the path stand in it with points between them, then
the mode behind a `#` if there is one, all in braces, and nothing else. -/
structure Spells (s : String) (r : Reference) : Prop where
  target : ∃ segments, segments ≠ [] ∧ (∀ n ∈ segments, IsSegment n) ∧
    r.target = ".".intercalate segments
  mode : ∀ m, r.writtenMode = some m → IsModeName m
  text_eq : s = "\x7b" ++ r.target ++ (r.writtenMode.elim "" fun m => "#" ++ m) ++ "\x7d"

theorem exists_segments_iff {target : String} :
    (∃ segments, segments ≠ [] ∧ (∀ n ∈ segments, IsSegment n) ∧
      target = ".".intercalate segments) ↔ ∀ n ∈ Path.names target, IsSegment n := by
  constructor
  · rintro ⟨segments, hne, hsegments, rfl⟩
    rwa [Path.names_intercalate hne fun n hn => isName_iff.mpr (hsegments n hn)]
  · exact fun h => ⟨Path.names target, Path.names_ne_nil _, h, (Path.intercalate_names _).symm⟩

/-- The mode of a reference can be written where it is the name of a mode. -/
theorem mode_iff {m : String} :
    (m ≠ "" ∧ ∀ c ∈ m.toList, isMark c = false) ↔ IsModeName m := by
  simp only [IsModeName, isMark_eq_false_iff]

theorem wellFormed_iff {r : Reference} :
    r.WellFormed ↔ (∃ segments, segments ≠ [] ∧ (∀ n ∈ segments, IsSegment n) ∧
      r.target = ".".intercalate segments) ∧ ∀ m, r.writtenMode = some m → IsModeName m := by
  rw [exists_segments_iff, ← isPath_and_iff]
  simp only [← mode_iff]
  exact ⟨fun h => ⟨⟨h.path, h.target⟩, h.mode⟩, fun h => ⟨h.1.1, h.1.2, h.2⟩⟩

/-- A reference is spelled as it is written, where it can be read. -/
theorem spells_iff {s : String} {r : Reference} : Spells s r ↔ r.WellFormed ∧ s = r.text := by
  have htext : (∀ m, r.writtenMode = some m → IsModeName m) →
      "\x7b" ++ r.target ++ (r.writtenMode.elim "" fun m => "#" ++ m) ++ "\x7d" = r.text := by
    intro hmode
    obtain ⟨target, _ | m⟩ := r
    · simp [text]
    · simp [text, (hmode m rfl).1, String.append_assoc]
  rw [wellFormed_iff]
  constructor
  · rintro ⟨htarget, hmode, rfl⟩
    exact ⟨⟨htarget, hmode⟩, htext hmode⟩
  · rintro ⟨⟨htarget, hmode⟩, rfl⟩
    exact ⟨htarget, hmode, (htext hmode).symm⟩

/-- Nothing stands behind the closing brace of a spelling. -/
theorem Spells.getLast? {s : String} {r : Reference} (h : Spells s r) :
    s.toList.getLast? = some '\x7d' := by
  simp [h.text_eq, String.toList_append, List.getLast?_cons]

/-- What is read as a reference spells it, perhaps with a line break behind. -/
theorem parse?_eq_some_iff_spells {s : String} {r : Reference} :
    parse? s = some r ↔ ∃ t, Spells t r ∧ (s = t ∨ s = t ++ "\n") := by
  rw [parse?_eq_some_iff]
  simp only [spells_iff, and_assoc, exists_and_left, exists_eq_left]

theorem parse?_eq_some_iff_of_getLast? {s : String} (hs : s.toList.getLast? ≠ some '\n')
    {r : Reference} : parse? s = some r ↔ Spells s r := by
  rw [parse?_eq_some_iff_spells]
  constructor
  · rintro ⟨t, ht, rfl | rfl⟩
    · exact ht
    · exact absurd (by simp [String.toList_append]) hs
  · exact fun h => ⟨s, h, .inl rfl⟩

/-- A token that is found can be referred to, in every mode that has a name. -/
theorem parse?_text_of_mem {root : Tree} {found : Discovery.Found}
    (hfound : Discovery.inDocument root = .ok found) {d : Draft} (hd : d ∈ found.drafts)
    {mode : Option String} (hmode : ∀ m, mode = some m → IsModeName m) :
    parse? (text ⟨d.id, mode⟩) = some ⟨d.id, mode⟩ := by
  have hnames := (Discovery.located_of_mem hfound hd).named
  exact parse?_text (wellFormed_iff.mpr
    ⟨exists_segments_iff.mpr fun n hn => isName_iff.mp (hnames n hn), hmode⟩)

/-- A text without a line break at its end is read as a reference exactly where it spells it, and
the reference is written as the text again.  Conversely every token that is found can be referred
to, in every mode that has a name. -/
theorem parse?_exact (s : String) :
    (s.toList.getLast? ≠ some '\n' → ∀ r,
      (parse? s = some r ↔ Spells s r) ∧ (parse? s = some r → r.text = s)) ∧
    ∀ root found, Discovery.inDocument root = .ok found → ∀ d ∈ found.drafts,
      ∀ mode, (∀ m, mode = some m → IsModeName m) →
        parse? (text ⟨d.id, mode⟩) = some ⟨d.id, mode⟩ := by
  refine ⟨fun hs r => ⟨parse?_eq_some_iff_of_getLast? hs, fun h => ?_⟩,
    fun root found hfound d hd mode => parse?_text_of_mem hfound hd⟩
  have hspells := (parse?_eq_some_iff_of_getLast? hs).mp h
  exact (spells_iff.mp hspells).2.symm

/-- For instance, a mode of the token of a document can be referred to. -/
theorem parse?_exact_still :
    Spells "\x7btime.fast#still\x7d" ⟨"time.fast", some "still"⟩ ∧
      ∃ found, Discovery.inDocument Discovery.fastInside = .ok found ∧
        found.drafts.map Draft.id = ["time.fast"] ∧
        ∀ d ∈ found.drafts, parse? (text ⟨d.id, some "still"⟩) = some ⟨d.id, some "still"⟩ := by
  have hfound : Discovery.inDocument Discovery.fastInside =
      .ok ((Discovery.inDocument Discovery.fastInside).toOption.getD .empty) := rfl
  refine ⟨(((parse?_exact _).1 (by decide +kernel) _).1).mp (by decide +kernel), _, hfound,
    by decide +kernel, fun d hd => ?_⟩
  refine (parse?_exact "\x7btime.fast#still\x7d").2 _ _ hfound d hd _ ?_
  rintro m hm
  obtain rfl := Option.some.inj hm
  exact mode_iff.mp ⟨by decide, forall_mem_of_all (by decide +kernel)⟩

/-- A text with a line break at its end spells nothing, but the break is passed over. -/
theorem parse?_not_exact : parse? "\x7ba\x7d\n" = some ⟨"a", none⟩ ∧
    (∀ r, ¬ Spells "\x7ba\x7d\n" r) ∧ text ⟨"a", none⟩ ≠ "\x7ba\x7d\n" := by
  refine ⟨by decide +kernel, fun r h => ?_, by decide⟩
  exact absurd h.getLast? (by decide)

end Reference

end DesignTokens
