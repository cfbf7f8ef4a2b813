import DesignTokens.Proofs.Yaml.Blank

/-!
# Plain scalars on one line

A word of letters, digits, signs and points is a plain scalar of its own, up to white space or to
the end of a collection in brackets.
-/

namespace DesignTokens.Yaml

open Cursor Lexeme

/-! ## Bare words -/

/-- Characters of numbers and words. -/
def isBareChar (c : Char) : Bool := c.isAlphanum || c = '-' || c = '+' || c = '.'

/-- A word that starts with a letter or a digit, perhaps after a minus sign. -/
structure IsBare (raw : List Char) : Prop where
  chars : ∀ ch ∈ raw, isBareChar ch = true
  start : ∃ ch r, raw = ch :: r ∧
    (ch.isAlphanum = true ∨ ch = '-' ∧ ∃ d t, r = d :: t ∧ d.isAlphanum = true)

/-- What may follow a value and the white space after it: nothing, or between brackets the end of an
item. -/
def EndsItem (inFlow : Bool) (r : List Char) : Prop :=
  ∀ ch ∈ r.head?, inFlow = true ∧ (ch = ',' ∨ ch = ']' ∨ ch = '\x7d')

variable {setting : Setting} {c : Cursor} {raw s r : List Char}

theorem EndsItem.solid {inFlow : Bool} (hr : EndsItem inFlow r) : IsSolid r := by
  intro ch hch
  obtain ⟨-, rfl | rfl | rfl⟩ := hr ch hch <;> decide

theorem endsWord_of_bare {ch : Char} (hch : isBareChar ch = true) : endsWord (some ch) = false := by
  have hbreak : isBreak ch = false := isBreak_of_class (by decide) hch
  simp [endsWord, endsLine, hbreak, ne_of_class hch (d := ' ') (by decide),
    ne_of_class hch (d := '\t') (by decide)]

/-- A plain scalar goes on over the characters of a bare word. -/
theorem endsPlain_of_bare {ch : Char} (hch : isBareChar ch = true) (next : Option Char) :
    endsPlain setting ch next = false := by
  have hcolon : ch ≠ ':' := ne_of_class hch (by decide)
  have hmark : ch ≠ '?' := ne_of_class hch (by decide)
  simp only [endsPlain, hcolon, hmark, endsWord_of_bare hch]
  simp only [decide_false, Bool.false_and, Bool.and_false, Bool.false_eq_true, ↓reduceIte,
    Bool.or_self, Bool.false_or, Bool.and_eq_false_iff]
  refine .inr ?_
  have hnot : ∀ d ∈ ",:?[]\x7b\x7d".toList, isBareChar d = false :=
    forall_mem_of_all (by decide)
  rw [Bool.eq_false_iff, ne_eq, List.contains_iff_mem]
  exact fun hmem => ne_of_class hch (hnot ch hmem) rfl

/-- A plain scalar ends at white space. -/
theorem endsPlain_of_space {ch : Char} (hch : Json.isSpace ch = true) (next : Option Char) :
    endsPlain setting ch next = true := by
  rcases isSpace_cases hch with rfl | rfl | rfl | rfl <;> simp [endsPlain, endsWord, endsLine, isBreak]

theorem endsPlain_of_endsItem {ch : Char} (hr : EndsItem setting.inFlow (ch :: r)) :
    endsPlain setting ch r.head? = true := by
  obtain ⟨hflow, rfl | rfl | rfl⟩ := hr ch rfl <;>
    simp [endsPlain, hflow]

theorem plainRun_eq_nil (hs : IsBlank setting.inFlow s) (hr : EndsItem setting.inFlow r) :
    plainRun setting (s ++ r) = [] := by
  cases s with
  | cons ch s =>
    rw [List.cons_append, plainRun, if_pos (endsPlain_of_space (hs ch List.mem_cons_self).1 _)]
  | nil =>
    cases r with
    | nil => rfl
    | cons ch r => rw [List.nil_append, plainRun, if_pos (endsPlain_of_endsItem hr)]

theorem plainRun_eq (hraw : ∀ ch ∈ raw, isBareChar ch = true) (hs : IsBlank setting.inFlow s)
    (hr : EndsItem setting.inFlow r) : plainRun setting (raw ++ (s ++ r)) = raw := by
  induction raw with
  | nil =>
    rw [List.nil_append]
    exact plainRun_eq_nil hs hr
  | cons ch raw ih =>
    obtain ⟨hch, hraw⟩ := List.forall_mem_cons.mp hraw
    rw [List.cons_append, plainRun, if_neg (by simp [endsPlain_of_bare hch]), ih hraw]

/-! ## White space after a word -/

/-- A cursor gets over a part of the white space in front of it. -/
def Over (c : Cursor) (s : List Char) (d : Cursor) : Prop :=
  ∃ t u, s = t ++ u ∧ d = c.advance t.length

theorem Over.refl : Over c s c := ⟨[], s, rfl, rfl⟩

theorem Over.trans {t u : List Char} {d : Cursor} (hs : s = t ++ u)
    (h : Over (c.advance t.length) u d) : Over c s d := by
  obtain ⟨v, w, rfl, rfl⟩ := h
  exact ⟨t ++ v, w, by rw [hs, List.append_assoc], by rw [List.length_append, advance_add]⟩

/-- What a line break in front of a cursor can be when white space follows up to the end of an
item. -/
theorem over_of_lineBreak? {inFlow : Bool} (h : c.rest = s ++ r) (hs : IsBlank inFlow s)
    (hr : EndsItem inFlow r) {b : Char} {d : Cursor} (hline : c.lineBreak? = some (b, d)) :
    ∃ t u, s = t ++ u ∧ d = c.advance t.length := by
  have hsolid := hr.solid
  cases s with
  | nil =>
    rw [lineBreak?_of_not_isBreak (by rw [h]; exact fun ch hch => (hsolid ch hch).2.2)] at hline
    cases hline
  | cons ch s =>
    by_cases hbreak : ch = '\n' ∨ ch = '\r'
    · obtain ⟨b', t, u, htu, -, hline'⟩ := lineBreak?_of_space h hbreak
        (fun d hd => (hs d (List.mem_cons_of_mem _ hd)).1) fun d hd => (hsolid d hd).1
      rw [hline] at hline'
      obtain ⟨-, rfl⟩ := Prod.mk.inj (Option.some.inj hline')
      exact ⟨t, u, htu, rfl⟩
    · have hnot : isBreak ch = false := by
        rcases isSpace_cases (hs ch List.mem_cons_self).1 with rfl | rfl | rfl | rfl
        · rfl
        · rfl
        · exact absurd (.inl rfl) hbreak
        · exact absurd (.inr rfl) hbreak
      rw [lineBreak?_of_not_isBreak (by rw [h]; simpa using hnot)] at hline
      cases hline

theorem over_plainBreaks {inFlow : Bool} (fuel : Nat) (done : List Char) (h : c.rest = s ++ r)
    (hs : IsBlank inFlow s) (hr : EndsItem inFlow r) :
    Over c s (plainBreaks fuel done c).2.2 := by
  induction fuel generalizing c s done with
  | zero => exact .refl
  | succ fuel ih =>
    rw [plainBreaks]
    split
    · rename_i hsees
      -- the blank is part of the white space
      cases s with
      | nil =>
        cases r with
        | nil => simp [sees, peek, h] at hsees
        | cons ch r =>
          rw [sees_eq h, decide_eq_true_eq] at hsees
          obtain ⟨-, hch | hch | hch⟩ := hr ch rfl <;> simp [hsees] at hch
      | cons ch s =>
        exact .trans (t := [ch]) (u := s) rfl
          (ih _ (rest_step c ▸ by rw [h]; rfl) fun d hd => hs d (List.mem_cons_of_mem _ hd))
    · split
      · rename_i b d hline
        obtain ⟨t, u, rfl, rfl⟩ := over_of_lineBreak? h hs hr hline
        have hu : (c.advance t.length).rest = u ++ r :=
          rest_advance_append (by rw [h, List.append_assoc])
        split
        · exact ⟨t, u, rfl, rfl⟩
        · exact .trans rfl (ih _ hu fun d hd => hs d (List.mem_append_right _ hd))
      · exact .refl

theorem over_plainGap {inFlow : Bool} (h : c.rest = s ++ r) (hs : IsBlank inFlow s)
    (hr : EndsItem inFlow r) : Over c s (plainGap c).after := by
  -- the blanks come first
  obtain ⟨blanks, later, rfl, hblanks, hlater⟩ := exists_span (· = ' ') s
  have hrest : c.rest = blanks ++ (later ++ r) := by rw [h, List.append_assoc]
  have hskip : c.skipWhile (· = ' ') = c.advance blanks.length := by
    refine skipWhile_eq hrest hblanks ?_
    cases later with
    | nil =>
      intro ch hch
      obtain ⟨-, rfl | rfl | rfl⟩ := hr ch hch <;> rfl
    | cons ch later => exact hlater
  have hlaterRest := rest_advance_append hrest
  have hblank : IsBlank inFlow later := fun d hd => hs d (List.mem_append_right _ hd)
  refine .trans rfl ?_
  rw [plainGap, takeRun, hskip]
  dsimp only
  split
  · exact .refl
  · rename_i b d hline
    obtain ⟨t, u, rfl, rfl⟩ := over_of_lineBreak? hlaterRest hblank hr hline
    have hu : ((c.advance blanks.length).advance t.length).rest = u ++ r :=
      rest_advance_append (by rw [hlaterRest, List.append_assoc])
    have hbreaks := over_plainBreaks ((c.advance blanks.length).advance t.length).left [] hu
      (fun d hd => hblank d (List.mem_append_right _ hd)) hr
    split
    · exact ⟨t, u, rfl, rfl⟩
    · split
      · rename_i e heq
        rw [heq] at hbreaks
        exact .trans rfl hbreaks
      · rename_i more e heq
        rw [heq] at hbreaks
        exact .trans rfl hbreaks

/-! ## The scalar -/

/-- Where no run starts, a plain scalar ends. -/
theorem plainRuns_eq_self {fuel : Nat} {gap : List Char} {scalar : PlainScalar}
    (h : plainRun setting c.rest = []) : plainRuns setting fuel gap scalar c = (scalar, c) := by
  cases fuel with
  | zero => rfl
  | succ fuel => rw [plainRuns, h]; simp

/-- A bare word in front of white space and the end of an item is a plain scalar. -/
theorem plainScalar_eq (h : c.rest = raw ++ (s ++ r)) (hraw : IsBare raw)
    (hs : IsBlank setting.inFlow s) (hr : EndsItem setting.inFlow r) :
    ∃ scalar t u, plainScalar setting c = (scalar, c.advance (raw ++ t).length) ∧
      scalar.text = raw ∧ s = t ++ u := by
  obtain ⟨ch, tail, rfl, -⟩ := hraw.start
  have hne : ch ≠ '#' := ne_of_class (hraw.chars ch List.mem_cons_self) (by decide)
  have hrun : plainRun setting c.rest = ch :: tail := by rw [h, plainRun_eq hraw.chars hs hr]
  have hafter := rest_advance_append h
  obtain ⟨t, u, rfl, hgap⟩ := over_plainGap hafter hs hr
  have hd : (plainGap (c.advance (ch :: tail).length)).after =
      c.advance (ch :: tail ++ t).length := by
    rw [hgap, List.length_append, advance_add]
  have hu : (c.advance (ch :: tail ++ t).length).rest = u ++ r :=
    rest_advance_append (by rw [h]; simp)
  have hnil : plainRun setting (c.advance (ch :: tail ++ t).length).rest = [] := by
    rw [hu]
    exact plainRun_eq_nil (fun d hd => hs d (List.mem_append_right _ hd)) hr
  rw [plainScalar, plainRuns, hrun, sees_eq (r := tail ++ (t ++ u ++ r)) (by rw [h]; rfl),
    decide_eq_false hne]
  simp only [Bool.false_or, List.isEmpty_cons, Bool.false_eq_true, ↓reduceIte, List.nil_append,
    hd]
  split
  · exact ⟨_, t, u, rfl, rfl, rfl⟩
  · -- nothing of the scalar is left after the white space
    exact ⟨_, t, u, plainRuns_eq_self hnil, rfl, rfl⟩

end DesignTokens.Yaml
