import DesignTokens.Text.Classes
import DesignTokens.Text.Parts
import Mathlib.Data.List.TakeWhile

/-!
# Characters and texts

Classes of characters tell characters apart, and runs of characters of a class end where another one
follows.  The parts of a text have its characters but the mark.
-/

namespace DesignTokens

/-! ## Classes of characters -/

theorem ne_of_class {p : Char → Bool} {c d : Char} (hc : p c = true) (hd : p d = false) :
    c ≠ d := by
  rintro rfl
  rw [hc] at hd
  cases hd

/-- What a test says of each character of a text. -/
theorem forall_mem_of_all {p : Char → Prop} [DecidablePred p] {s : List Char}
    (h : s.all (fun c => decide (p c)) = true) : ∀ c ∈ s, p c :=
  fun c hc => of_decide_eq_true (List.all_eq_true.mp h c hc)

/-- What holds of the characters of a finite range can be tested one by one. -/
theorem of_toNat_lt (p : Char → Prop) {b : Nat} (hall : ∀ n < b, p (Char.ofNat n)) {c : Char}
    (hc : c.toNat < b) : p c := by
  have hp := hall c.toNat hc
  rwa [Char.ofNat_toNat] at hp

/-- Letters and digits are characters of ASCII. -/
theorem toNat_lt_of_isAlphanum {c : Char} (h : c.isAlphanum = true) : c.toNat < 128 := by
  have hupper : c.isUpper = decide (c.val ≥ 'A'.val ∧ c.val ≤ 'Z'.val) := rfl
  have hlower : c.isLower = (decide (c.val ≥ 'a'.val) && decide (c.val ≤ 'z'.val)) := rfl
  have hletter : c.isAlphanum = ((c.isUpper || c.isLower) || c.isDigit) := rfl
  simp only [hletter, hupper, hlower, Char.isDigit, Bool.or_eq_true, Bool.and_eq_true,
    decide_eq_true_eq, ge_iff_le, UInt32.le_iff_toNat_le, Char.toNat_val] at h
  rcases h with (h | h) | h <;> exact Nat.lt_of_le_of_lt h.2 (by decide)

/-! ## Runs of characters -/

theorem dropWhile_append_eq {p : Char → Bool} {s u : List Char} (hs : ∀ c ∈ s, p c = true)
    (hu : ∀ c ∈ u.head?, p c = false) : (s ++ u).dropWhile p = u := by
  rw [List.dropWhile_append_of_pos hs]
  cases u with
  | nil => rfl
  | cons c u => rw [List.dropWhile_cons_of_neg (by simp [hu c rfl])]

theorem takeWhile_append_drop (p : Char → Bool) (s : List Char) :
    s.takeWhile p ++ s.drop (s.takeWhile p).length = s := by
  have htake := List.prefix_iff_eq_take.mp (List.takeWhile_prefix p (l := s))
  exact (congrArg (· ++ _) htake).trans (List.take_append_drop _ _)

namespace Text

/-! ## Digits -/

/-- Among the characters of ASCII there are no other digits than its own. -/
theorem isDecimal_eq_isDigit {c : Char} (h : c.toNat < 128) : isDecimal c = c.isDigit := by
  have hall : ∀ n < 128, isDecimal (Char.ofNat n) = (Char.ofNat n).isDigit := by decide +kernel
  exact of_toNat_lt (fun c => isDecimal c = c.isDigit) hall h

theorem isDecimal_of_isDigit {c : Char} (h : c.isDigit = true) : isDecimal c = true := by
  have hlt : c.toNat < 128 := toNat_lt_of_isAlphanum (by simp [Char.isAlphanum, h])
  rwa [isDecimal_eq_isDigit hlt]

/-! ## Parts -/

/-- A text without a mark is one part. -/
theorem parts_of_not_mem {mark : Char} {s : List Char} (h : mark ∉ s) : parts mark s = [s] := by
  induction s with
  | nil => rfl
  | cons c r ih =>
    simp only [List.mem_cons, not_or] at h
    rw [parts, if_neg (Ne.symm h.1), ih h.2]

/-- The parts on both sides of a mark are the parts of the whole. -/
theorem parts_append (mark : Char) (s t : List Char) :
    parts mark (s ++ mark :: t) = parts mark s ++ parts mark t := by
  induction s with
  | nil => simp [parts]
  | cons c r ih =>
    rw [List.cons_append, parts, parts, ih]
    split
    · rfl
    · cases hp : parts mark r with
      | nil => exact absurd hp (parts_ne_nil mark r)
      | cons p ps => rfl

/-- The parts of a text have its characters but the mark. -/
theorem mem_parts {mark c : Char} {s : List Char} :
    (∃ p ∈ parts mark s, c ∈ p) ↔ c ∈ s ∧ c ≠ mark := by
  induction s with
  | nil => simp [parts]
  | cons d r ih =>
    rw [parts]
    split
    · rename_i hmark
      subst hmark
      simp only [List.mem_cons, exists_eq_or_imp, List.not_mem_nil, false_or, ih]
      grind
    · cases hp : parts mark r with
      | nil => exact absurd hp (parts_ne_nil mark r)
      | cons p ps =>
        simp only [hp, List.mem_cons, exists_eq_or_imp] at ih ⊢
        grind

end Text

end DesignTokens
