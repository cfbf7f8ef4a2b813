import DesignTokens.Number.Binary64
import Mathlib.Tactic.Linarith
import Mathlib.Tactic.Positivity
import Mathlib.Tactic.Ring

/-!
# Rounded quotients

A quotient is rounded to a magnitude that leaves the sign bit alone, so a number read with a sign
is the one read without it, turned to the other sign (`neg_ofDecimal`).
-/

namespace DesignTokens.Binary64

/-! ## Scaled quotients -/

variable {num den : Nat}

/-- The quotient of a scaled pair. -/
def scaledQuotient (num den : Nat) (e : Int) : Nat :=
  (scaleDown num den e).1 / (scaleDown num den e).2

/-- One more power of two halves the quotient. -/
theorem scaledQuotient_succ (num den : Nat) (e : Int) :
    scaledQuotient num den (e + 1) = scaledQuotient num den e / 2 := by
  have hpow (k : Nat) : Nat.pow 2 (k + 1) = Nat.pow 2 k * 2 := rfl
  unfold scaledQuotient
  rcases e with k | _ | k
  · show num / (den * Nat.pow 2 (k + 1)) = num / (den * Nat.pow 2 k) / 2
    rw [Nat.div_div_eq_div_mul, hpow, Nat.mul_assoc]
  · show num / (den * Nat.pow 2 0) = num * Nat.pow 2 1 / den / 2
    rw [Nat.div_div_eq_div_mul]
    exact (Nat.mul_div_mul_right num (den * 1) (by decide : 0 < 2)).symm.trans (by simp)
  · show num * Nat.pow 2 (k + 1) / den = num * Nat.pow 2 (k + 2) / den / 2
    rw [Nat.div_div_eq_div_mul, hpow (k + 1), ← Nat.mul_assoc, Nat.mul_div_mul_right _ _ (by decide)]

/-- A quotient scaled by the difference of the lengths has at most 54 bits. -/
theorem scaledQuotient_lt (hden : den ≠ 0) {e : Int}
    (he : (num.log2 : Int) - den.log2 - 53 ≤ e) : scaledQuotient num den e < 2 ^ 54 := by
  have hnum : num < 2 ^ (num.log2 + 1) := Nat.lt_log2_self
  have hlog : 2 ^ den.log2 ≤ den := Nat.log2_self_le hden
  unfold scaledQuotient
  cases e with
  | ofNat k =>
    show num / (den * 2 ^ k) < 2 ^ 54
    have hpos : 0 < den * 2 ^ k := Nat.mul_pos (by omega) (Nat.two_pow_pos k)
    refine (Nat.div_lt_iff_lt_mul hpos).mpr (Nat.lt_of_lt_of_le hnum ?_)
    calc 2 ^ (num.log2 + 1) ≤ 2 ^ (54 + (den.log2 + k)) :=
          Nat.pow_le_pow_right (by decide) (by simp only [Int.ofNat_eq_natCast] at he; omega)
      _ = 2 ^ 54 * (2 ^ den.log2 * 2 ^ k) := by rw [Nat.pow_add, Nat.pow_add]
      _ ≤ 2 ^ 54 * (den * 2 ^ k) := Nat.mul_le_mul_left _ (Nat.mul_le_mul_right _ hlog)
  | negSucc k =>
    show num * 2 ^ (k + 1) / den < 2 ^ 54
    refine (Nat.div_lt_iff_lt_mul (by omega)).mpr ?_
    calc num * 2 ^ (k + 1) < 2 ^ (num.log2 + 1) * 2 ^ (k + 1) :=
          Nat.mul_lt_mul_of_pos_right hnum (Nat.two_pow_pos _)
      _ = 2 ^ (num.log2 + 1 + (k + 1)) := (Nat.pow_add ..).symm
      _ ≤ 2 ^ (54 + den.log2) := Nat.pow_le_pow_right (by decide) (by omega)
      _ = 2 ^ 54 * 2 ^ den.log2 := Nat.pow_add ..
      _ ≤ 2 ^ 54 * den := Nat.mul_le_mul_left _ hlog

/-! ## Signs -/

theorem neg_ofMagnitude {m : Nat} (h : m < 2 ^ 63) : (ofMagnitude false m).neg = ofMagnitude true m := by
  have hbits : (ofMagnitude false m).bits.toNat = m := by
    show (UInt64.ofNat m).toNat = m
    rw [UInt64.toNat_ofNat']
    omega
  unfold neg isNegative
  rw [hbits, show m % Nat.pow 2 63 = m from Nat.mod_eq_of_lt h]
  have hnot : ¬ Nat.pow 2 63 ≤ m := Nat.not_le.mpr h
  simp [hnot]

theorem roundDiv_le (n d : Nat) : roundDiv n d ≤ n / d + 1 := by
  unfold roundDiv
  dsimp only
  split <;> omega

/-- The exponent of the last bit of a rounded quotient. -/
def lastBit (num den : Nat) : Int :=
  let low := max ((num.log2 : Int) - den.log2 - 53) minExponent
  if scaledQuotient num den low < Nat.pow 2 53 then low else low + 1

/-- A quotient as a multiple of its last bit, rounded. -/
def roundedUnits (num den : Nat) : Nat :=
  roundDiv (scaleDown num den (lastBit num den)).1 (scaleDown num den (lastBit num den)).2

theorem ofQuotient_eq (hnum : num ≠ 0) (hden : den ≠ 0) (negative : Bool) :
    ofQuotient negative num den =
      if roundedUnits num den < Nat.pow 2 52 then ofMagnitude negative (roundedUnits num den)
      else if (lastBit num den + 1075).toNat > 2046 ∨
          ((lastBit num den + 1075).toNat = 2046 ∧ roundedUnits num den = Nat.pow 2 53) then
        infinity negative
      else ofMagnitude negative ((lastBit num den + 1075).toNat * Nat.pow 2 52 +
        (roundedUnits num den - Nat.pow 2 52)) := by
  unfold ofQuotient
  rw [if_neg (by simp [hnum, hden])]
  rfl

/-- A rounded quotient has at most 53 bits, or is the power of two after them. -/
theorem roundedUnits_le (hden : den ≠ 0) : roundedUnits num den ≤ 2 ^ 53 := by
  have hlt : scaledQuotient num den (lastBit num den) < 2 ^ 53 := by
    unfold lastBit
    dsimp only
    split
    · assumption
    · rw [scaledQuotient_succ]
      have hlow : scaledQuotient num den _ < 2 ^ 54 :=
        scaledQuotient_lt hden (Int.le_max_left _ minExponent)
      omega
  have hle : roundedUnits num den ≤ scaledQuotient num den (lastBit num den) + 1 := roundDiv_le _ _
  omega

/-- The magnitude of a rounded quotient does not depend on its sign. -/
theorem exists_magnitude (num den : Nat) :
    ∃ m < 2 ^ 63, ∀ negative, ofQuotient negative num den = ofMagnitude negative m := by
  by_cases hzero : num = 0 ∨ den = 0
  · refine ⟨0, by decide, fun negative => ?_⟩
    rw [ofQuotient, if_pos hzero]
    rfl
  · obtain ⟨hnum, hden⟩ := not_or.mp hzero
    have hunits : roundedUnits num den ≤ 2 ^ 53 := roundedUnits_le hden
    simp only [ofQuotient_eq hnum hden]
    split
    · exact ⟨_, by omega, fun _ => rfl⟩
    · split
      · exact ⟨2047 * Nat.pow 2 52, by decide, fun _ => rfl⟩
      · rename_i hfinite
        have hbiased : (lastBit num den + 1075).toNat ≤ 2046 := by omega
        have hbound : (lastBit num den + 1075).toNat * Nat.pow 2 52 +
            (roundedUnits num den - Nat.pow 2 52) < 2046 * 2 ^ 52 + 2 ^ 53 :=
          Nat.add_lt_add_of_le_of_lt (Nat.mul_le_mul_right _ hbiased)
            (Nat.lt_of_le_of_lt (Nat.sub_le_sub_right hunits _) (by decide))
        exact ⟨_, Nat.lt_of_lt_of_le hbound (by decide), fun _ => rfl⟩

theorem neg_ofDecimal (digits : Nat) (e : Int) :
    (ofDecimal false digits e).neg = ofDecimal true digits e := by
  have hquotient (num den : Nat) : (ofQuotient false num den).neg = ofQuotient true num den := by
    obtain ⟨m, hm, h⟩ := exists_magnitude num den
    rw [h, h, neg_ofMagnitude hm]
  have hzero : (zero false).neg = zero true := neg_ofMagnitude (by decide)
  have hinfinity : (infinity false).neg = infinity true := neg_ofMagnitude (by decide)
  unfold ofDecimal
  dsimp only
  split
  · exact hzero
  · split
    · exact hinfinity
    · split
      · exact hzero
      · split
        · exact hquotient _ _
        · exact hquotient _ _

end DesignTokens.Binary64
