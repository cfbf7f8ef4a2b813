import DesignTokens.Json.Reader
import DesignTokens.Proofs.Text
import DesignTokens.Proofs.Yaml.Property
import DesignTokens.Yaml.Scan

/-!
# Blanks between tokens

Where a cursor gets to over a given text, and how a scan passes over the white space of JSON:
blanks and line breaks everywhere, tabs between brackets only.
-/

namespace DesignTokens.Yaml

/-! ## Classes of characters -/

theorem eq_ofNat {c : Char} {n : Nat} (h : c.toNat = n) : c = Char.ofNat n := by
  rw [← h, Char.ofNat_toNat]

theorem isBreak_cases {c : Char} (h : isBreak c = true) :
    c = '\n' ∨ c = '\r' ∨ c = Char.ofNat 0x85 ∨ c = Char.ofNat 0x2028 ∨ c = Char.ofNat 0x2029 := by
  simp only [isBreak, Bool.or_eq_true, decide_eq_true_eq, or_assoc] at h
  exact h.imp_right (Or.imp_right (Or.imp eq_ofNat (Or.imp eq_ofNat eq_ofNat)))

/-- A class without line breaks. -/
theorem isBreak_of_class {p : Char → Bool} (hp : p '\n' = false ∧ p '\r' = false ∧
    p (Char.ofNat 0x85) = false ∧ p (Char.ofNat 0x2028) = false ∧ p (Char.ofNat 0x2029) = false)
    {c : Char} (hc : p c = true) : isBreak c = false := by
  cases hbreak : isBreak c with
  | false => rfl
  | true =>
    obtain ⟨h1, h2, h3, h4, h5⟩ := hp
    rcases isBreak_cases hbreak with h | h | h | h | h
    · exact absurd h (ne_of_class hc h1)
    · exact absurd h (ne_of_class hc h2)
    · exact absurd h (ne_of_class hc h3)
    · exact absurd h (ne_of_class hc h4)
    · exact absurd h (ne_of_class hc h5)

namespace Cursor

/-! ## Known texts -/

theorem rest_advance_append {c : Cursor} {s r : List Char} (h : c.rest = s ++ r) :
    (c.advance s.length).rest = r := by
  rw [rest_advance, h, List.drop_left]

theorem left_advance {c : Cursor} {s r : List Char} (h : c.rest = s ++ r) :
    (c.advance s.length).left = r.length := by
  rw [left_eq, rest_advance_append h]

theorem left_advance_lt {c : Cursor} {s r : List Char} (h : c.rest = s ++ r) (hs : s ≠ []) :
    (c.advance s.length).left < c.left := by
  have hlength := List.length_pos_iff.mpr hs
  rw [left_advance h, c.left_eq, h, List.length_append]
  omega

theorem left_advance_le (n : Nat) (c : Cursor) : (c.advance n).left ≤ c.left := by
  rw [left_eq, left_eq, rest_advance, List.length_drop]
  omega

/-- Over a character that ends no line the line stays, and the offset grows by one. -/
theorem place_step {c : Cursor} {ch : Char} {r : List Char} (h : c.rest = ch :: r)
    (hline : ch ≠ '\n' ∧ ch ≠ '\r') :
    c.step.line = c.line ∧ c.step.offset = c.offset + 1 := by
  obtain ⟨rest, left, line, column, offset, hleft⟩ := c
  subst h
  simp only [step, hline.1, hline.2, decide_false, Bool.false_and, Bool.or_self,
    Bool.false_eq_true, ↓reduceIte]
  split <;> exact ⟨rfl, rfl⟩

theorem place_advance {c : Cursor} {s r : List Char} (h : c.rest = s ++ r)
    (hline : ∀ ch ∈ s, ch ≠ '\n' ∧ ch ≠ '\r') :
    (c.advance s.length).line = c.line ∧ (c.advance s.length).offset = c.offset + s.length := by
  induction s generalizing c with
  | nil => exact ⟨rfl, rfl⟩
  | cons ch s ih =>
    obtain ⟨hch, hs⟩ := List.forall_mem_cons.mp hline
    obtain ⟨hstepLine, hstepOffset⟩ := place_step h hch
    obtain ⟨hrestLine, hrestOffset⟩ := ih (c := c.step) (by rw [rest_step, h]; rfl) hs
    rw [List.length_cons, advance]
    exact ⟨hrestLine.trans hstepLine, by omega⟩

theorem skipWhile_eq {p : Char → Bool} {c : Cursor} {s r : List Char} (h : c.rest = s ++ r)
    (hs : ∀ ch ∈ s, p ch = true) (hr : ∀ ch ∈ r.head?, p ch = false) :
    c.skipWhile p = c.advance s.length := by
  have hrest : r.takeWhile p = [] := by
    cases r with
    | nil => rfl
    | cons ch r => exact List.takeWhile_cons_of_neg (by simp [hr ch rfl])
  rw [skipWhile, h, List.takeWhile_append_of_pos hs, hrest, List.append_nil]

theorem sees_eq {c : Cursor} {ch : Char} {r : List Char} (h : c.rest = ch :: r) (d : Char) :
    c.sees d = decide (ch = d) := by
  simp [sees, peek, h]

theorem sees_of_rest {c : Cursor} {d : Char} (h : ∀ ch ∈ c.rest.head?, ch ≠ d) :
    c.sees d = false := by
  rw [sees, peek, decide_eq_false_iff_not]
  exact fun hd => h d hd rfl

theorem lineBreak?_of_not_isBreak {c : Cursor} (h : ∀ ch ∈ c.rest.head?, isBreak ch = false) :
    c.lineBreak? = none := by
  unfold lineBreak?
  split
  · rfl
  · rename_i ch r hrest
    have hch := h ch (by rw [hrest]; rfl)
    have hcases := hch
    simp only [isBreak, Bool.or_eq_false_iff, decide_eq_false_iff_not] at hcases
    obtain ⟨⟨⟨⟨hn, hr⟩, h85⟩, -⟩, -⟩ := hcases
    simp [hn, hr, h85, hch]

/-- A line feed or a carriage return is passed over, with a line feed after the latter. -/
theorem lineBreak?_of_space {c : Cursor} {ch : Char} {s r : List Char}
    (h : c.rest = ch :: s ++ r) (hch : ch = '\n' ∨ ch = '\r')
    (hs : ∀ d ∈ s, Json.isSpace d = true) (hr : ∀ d ∈ r.head?, Json.isSpace d = false) :
    ∃ b, ∃ t u, ch :: s = t ++ u ∧ t ≠ [] ∧ c.lineBreak? = some (b, c.advance t.length) := by
  unfold lineBreak?
  rw [h]
  dsimp only [List.cons_append]
  by_cases hpair : ch = '\r' ∧ (s ++ r).head? = some '\n'
  · obtain ⟨rfl, hnext⟩ := hpair
    cases s with
    | nil =>
      -- the line feed cannot stand behind the white space
      rw [List.nil_append] at hnext
      have := hr '\n' hnext
      simp [Json.isSpace] at this
    | cons d s =>
      obtain rfl : d = '\n' := by simpa using hnext
      exact ⟨'\n', ['\r', '\n'], s, rfl, by simp, by simp⟩
  · refine ⟨'\n', [ch], s, rfl, by simp, ?_⟩
    have hnot : ¬ (decide (ch = '\r') && decide ((s ++ r).head? = some '\n')) = true := by
      simpa using hpair
    rw [if_neg hnot]
    have hbreak : (decide (ch = '\n') || decide (ch = '\r') || decide (ch.toNat = 0x85)) = true := by
      rcases hch with rfl | rfl <;> rfl
    rw [if_pos hbreak]
    rfl

end Cursor

/-! ## White space of JSON -/

open Cursor

/-- What follows white space: nothing, or a character that is none, and that starts no comment. -/
def IsSolid (r : List Char) : Prop :=
  ∀ ch ∈ r.head?, Json.isSpace ch = false ∧ ch ≠ '#' ∧ isBreak ch = false

/-- White space that a scan passes over: tabs stand between brackets only. -/
def IsBlank (inFlow : Bool) (s : List Char) : Prop :=
  ∀ ch ∈ s, Json.isSpace ch = true ∧ (ch = '\t' → inFlow = true)

theorem isSpace_cases {ch : Char} (h : Json.isSpace ch = true) :
    ch = ' ' ∨ ch = '\t' ∨ ch = '\n' ∨ ch = '\r' := by
  simpa [Json.isSpace, or_assoc] using h

/-- A text falls into the characters at its start that satisfy `p` and the rest. -/
theorem exists_span (p : Char → Bool) (s : List Char) :
    ∃ a b, s = a ++ b ∧ (∀ ch ∈ a, p ch = true) ∧ ∀ ch ∈ b.head?, p ch = false := by
  induction s with
  | nil => exact ⟨[], [], rfl, by simp, by simp⟩
  | cons ch s ih =>
    by_cases hch : p ch = true
    · obtain ⟨a, b, rfl, ha, hb⟩ := ih
      exact ⟨ch :: a, b, rfl, List.forall_mem_cons.mpr ⟨hch, ha⟩, hb⟩
    · exact ⟨[], ch :: s, rfl, by simp, by simpa using hch⟩

/-- A scan passes over white space up to the next token. -/
theorem skipToToken_eq {inFlow : Bool} {fuel : Nat} {broke : Bool} {c : Cursor} {s r : List Char}
    (h : c.rest = s ++ r) (hs : IsBlank inFlow s) (hr : IsSolid r) (hfuel : s.length < fuel) :
    ∃ b, ScanM.skipToToken inFlow fuel broke c = (b, c.advance s.length) := by
  induction fuel generalizing broke c s with
  | zero => omega
  | succ fuel ih =>
    let p (ch : Char) : Bool := ch = ' ' || (inFlow && ch = '\t')
    have hp : ∀ ch, Json.isSpace ch = false → p ch = false := by
      intro ch hch
      simp only [Json.isSpace, Bool.or_eq_false_iff, decide_eq_false_iff_not] at hch
      simp [p, hch]
    -- the white space falls into what stands on the line and what follows it
    obtain ⟨blanks, later, rfl, hblanks, hlater⟩ := exists_span p s
    have hrest : c.rest = blanks ++ (later ++ r) := by rw [h, List.append_assoc]
    have hskip : c.skipWhile p = c.advance blanks.length := by
      refine skipWhile_eq hrest hblanks ?_
      cases later with
      | nil => exact fun ch hch => hp ch (hr ch hch).1
      | cons d later => exact hlater
    have hd := rest_advance_append hrest
    rw [ScanM.skipToToken, show (c.skipWhile fun ch => decide (ch = ' ') || (inFlow && decide (ch = '\t'))) =
      c.advance blanks.length from hskip]
    cases later with
    | nil =>
      rw [sees_of_rest (by rw [hd]; exact fun ch hch => (hr ch hch).2.1), if_neg (by simp),
        lineBreak?_of_not_isBreak (by rw [hd]; exact fun ch hch => (hr ch hch).2.2),
        List.append_nil]
      exact ⟨broke, rfl⟩
    | cons ch later =>
      obtain ⟨hspace, htab⟩ := hs ch (by simp)
      have hbreak : ch = '\n' ∨ ch = '\r' := by
        have hnot := hlater ch rfl
        simp only [p, Bool.or_eq_false_iff, decide_eq_false_iff_not, Bool.and_eq_false_iff] at hnot
        rcases isSpace_cases hspace with rfl | rfl | h | h
        · exact absurd rfl hnot.1
        · simp [htab rfl] at hnot
        · exact .inl h
        · exact .inr h
      obtain ⟨b, t, u, htu, ht, hline⟩ := lineBreak?_of_space hd hbreak
        (fun d hd => (hs d (by simp [hd])).1) fun d hd => (hr d hd).1
      have hne : ch ≠ '#' := by rcases hbreak with rfl | rfl <;> decide
      rw [sees_eq hd, decide_eq_false hne, if_neg (by simp), hline]
      -- over the line break the rest of the white space is shorter
      have hu : ((c.advance blanks.length).advance t.length).rest = u ++ r :=
        rest_advance_append (by rw [hd, htu, List.append_assoc])
      have hlength : 0 < t.length := List.length_pos_iff.mpr ht
      obtain ⟨b', hb'⟩ := @ih true _ _ hu
        (fun d hd => hs d (by rw [htu]; simp [hd])) (by
          rw [htu] at hfuel
          simp only [List.length_append] at hfuel
          omega)
      refine ⟨b', ?_⟩
      rw [htu]
      simp only [List.length_append, advance_add]
      exact hb'

end DesignTokens.Yaml
