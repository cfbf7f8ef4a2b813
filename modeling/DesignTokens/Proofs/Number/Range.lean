import DesignTokens.Proofs.Number.Rounding

/-!
# Where double precision ends

The greatest number has 53 bits before the exponent 971.  From half a last bit above it, which is
the tie that goes to the next power of two, quotients are rounded to an infinity.
-/

namespace DesignTokens.Binary64

/-! ## Finite and infinite numbers -/

/-- A number that is no infinity and not the not-a-number. -/
def IsFinite (x : Binary64) : Prop := ∃ negative m e, x.shape = .finite negative m e

theorem isFinite_ofMagnitude {magnitude : Nat} (h : magnitude < 2047 * 2 ^ 52) (negative : Bool) :
    (ofMagnitude negative magnitude).IsFinite := by
  have hbits : (ofMagnitude negative magnitude).bits.toNat =
      (if negative then 2 ^ 63 else 0) + magnitude := by
    show (UInt64.ofNat _).toNat = _
    rw [UInt64.toNat_ofNat', Nat.pow_eq]
    cases negative <;> simp <;> omega
  have hbiased : (ofMagnitude negative magnitude).bits.toNat / 2 ^ 52 % 2048 ≠ 2047 := by
    rw [hbits]
    cases negative <;> simp <;> omega
  unfold IsFinite shape
  simp only [Nat.pow_eq, if_neg hbiased]
  split
  · exact ⟨_, _, _, rfl⟩
  · exact ⟨_, _, _, rfl⟩

theorem not_isFinite_infinity (negative : Bool) : ¬ (infinity negative).IsFinite := by
  rintro ⟨s, m, e, h⟩
  have hshape : (infinity negative).shape = .infinite negative := by
    cases negative <;> decide +kernel
  rw [hshape] at h
  cases h

/-! ## The greatest numbers -/

variable {num den : Nat}

/-- A quotient below an even number is rounded to it from half a unit below. -/
theorem roundDiv_eq_iff {n d k : Nat} (hd : 0 < d) (heven : k % 2 = 0) (hlt : n / d < k) :
    roundDiv n d = k ↔ (2 * k - 1) * d ≤ 2 * n := by
  have hsplit : d * (n / d) + n % d = n := Nat.div_add_mod n d
  have hmod : n % d < d := Nat.mod_lt n hd
  have hle : roundDiv n d ≤ n / d + 1 := roundDiv_le n d
  by_cases hnext : n / d + 1 = k
  · subst hnext
    have hhalf : (2 * (n / d + 1) - 1) * d = 2 * (d * (n / d)) + d := by
      rw [show 2 * (n / d + 1) - 1 = 2 * (n / d) + 1 by omega]
      ring
    have hodd : n / d % 2 = 1 := by omega
    rw [hhalf, roundDiv]
    split <;> omega
  · -- the quotient is more than a unit below
    have hfar : (n / d + 1) * d ≤ (k - 1) * d := Nat.mul_le_mul_right d (by omega)
    have hhalf : (2 * k - 1) * d = 2 * ((k - 1) * d) + d := by
      obtain ⟨k, rfl⟩ : ∃ l, k = l + 1 := ⟨k - 1, by omega⟩
      rw [show 2 * (k + 1) - 1 = 2 * k + 1 by omega, Nat.add_sub_cancel]
      ring
    rw [Nat.add_mul, Nat.one_mul, Nat.mul_comm (n / d) d] at hfar
    rw [hhalf]
    omega

theorem le_roundDiv (n d : Nat) : n / d ≤ roundDiv n d := by
  rw [roundDiv]
  split <;> omega

/-- A quotient above the least exponent has all bits, also after it was rounded. -/
theorem le_roundedUnits (hnum : num ≠ 0) (hden : den ≠ 0)
    (hnormal : minExponent < lastBit num den) : 2 ^ 52 ≤ roundedUnits num den := by
  have hfull := (isLastBit_lastBit hnum hden).full.resolve_left hnormal.ne'
  have hscaled : 2 ^ 52 ≤ scaledQuotient num den (lastBit num den) :=
    (le_scaledQuotient_iff hden _).mpr (by exact_mod_cast hfull)
  exact hscaled.trans (le_roundDiv _ _)

/-- With the greatest exponent, a quotient is rounded up to the next power of two from the tie
on. -/
theorem roundedUnits_eq_iff (hnum : num ≠ 0) (hden : den ≠ 0) (hbit : lastBit num den = 971) :
    roundedUnits num den = 2 ^ 53 ↔ (2 ^ 54 - 1) * 2 ^ (970 : Int) ≤ (num / den : ℚ) := by
  have hlast := isLastBit_lastBit hnum hden
  rw [hbit] at hlast
  have hpos : 0 < (scaleDown num den 971).2 := scaleDown_pos hden _
  have hlt : scaledQuotient num den 971 < 2 ^ 53 :=
    (scaledQuotient_lt_iff hden _).mpr (by exact_mod_cast hlast.lt)
  have hscale := scaleDown_div num den 971
  have htwice : (2 : ℚ) ^ (970 : Int) * 2 = 2 ^ (971 : Int) := by
    rw [← zpow_add_one₀ (by norm_num)]
    norm_num
  rw [roundedUnits, hbit, roundDiv_eq_iff hpos (by decide) hlt]
  generalize (scaleDown num den 971).1 = n at hscale
  generalize (scaleDown num den 971).2 = d at hscale hpos
  have hd : (0 : ℚ) < d := by exact_mod_cast hpos
  have hq : (num / den : ℚ) = n / d * 2 * 2 ^ (970 : Int) := by
    rw [mul_assoc, mul_comm 2, htwice, hscale, div_mul_cancel₀ _ (two_zpow_pos 971).ne']
  rw [hq, mul_le_mul_iff_of_pos_right (two_zpow_pos 970), div_mul_eq_mul_div, le_div_iff₀ hd]
  -- now both sides say the same of whole numbers
  rw [mul_comm (n : ℚ) 2]
  norm_num
  exact_mod_cast Iff.rfl

/-- With an exponent below the greatest one, a quotient lies below the tie. -/
theorem quotient_lt (hnum : num ≠ 0) (hden : den ≠ 0) (hlow : lastBit num den < 971) :
    (num / den : ℚ) < (2 ^ 54 - 1) * 2 ^ (970 : Int) := by
  have hlt := (isLastBit_lastBit hnum hden).lt
  have hpow : (0 : ℚ) < 2 ^ (970 : Int) := two_zpow_pos 970
  have hle : (2 : ℚ) ^ lastBit num den ≤ 2 ^ (970 : Int) :=
    zpow_le_zpow_right₀ (by norm_num) (by omega)
  generalize (2 : ℚ) ^ (970 : Int) = p at hpow hle ⊢
  linarith

/-- With an exponent above the greatest one, a quotient lies above the tie. -/
theorem le_quotient (hnum : num ≠ 0) (hden : den ≠ 0) (hhigh : 971 < lastBit num den) :
    (2 ^ 54 - 1) * 2 ^ (970 : Int) ≤ (num / den : ℚ) := by
  have hne : lastBit num den ≠ minExponent := by
    rw [minExponent]
    omega
  have hfull := (isLastBit_lastBit hnum hden).full.resolve_left hne
  have hpow : (0 : ℚ) < 2 ^ (970 : Int) := two_zpow_pos 970
  have hle : (2 : ℚ) ^ (972 : Int) ≤ 2 ^ lastBit num den :=
    zpow_le_zpow_right₀ (by norm_num) (by omega)
  have hfour : (2 : ℚ) ^ (972 : Int) = 2 ^ (970 : Int) * 4 := by
    rw [show (972 : Int) = 970 + 2 by norm_num, zpow_add₀ (by norm_num)]
    norm_num
  rw [hfour] at hle
  generalize (2 : ℚ) ^ (970 : Int) = p at hpow hle ⊢
  linarith

/-- Quotients are rounded to finite numbers below the tie at the end of double precision. -/
theorem isFinite_ofQuotient_iff (hnum : num ≠ 0) (hden : den ≠ 0) (negative : Bool) :
    (ofQuotient negative num den).IsFinite ↔ (num / den : ℚ) < (2 ^ 54 - 1) * 2 ^ (970 : Int) := by
  have hunits : roundedUnits num den ≤ 2 ^ 53 := roundedUnits_le hden
  have hleast : minExponent < 971 := by decide
  rw [ofQuotient_eq hnum hden]
  simp only [Nat.pow_eq]
  obtain hlow | hbit | hhigh := lt_trichotomy (lastBit num den) 971
  · refine iff_of_true ?_ (quotient_lt hnum hden hlow)
    split
    · exact isFinite_ofMagnitude (by omega) _
    · rw [if_neg (by omega)]
      exact isFinite_ofMagnitude (by omega) _
  · -- with the greatest exponent it depends on whether the bits are carried over
    have hfull := le_roundedUnits hnum hden (hbit ▸ hleast)
    have hbiased : (971 + 1075 : Int).toNat = 2046 := by decide
    rw [if_neg (by omega), hbit, hbiased, ← not_le, ← roundedUnits_eq_iff hnum hden hbit]
    by_cases htop : roundedUnits num den = 2 ^ 53
    · rw [if_pos (.inr ⟨rfl, htop⟩)]
      exact iff_of_false (not_isFinite_infinity _) (not_not.mpr htop)
    · rw [if_neg (by omega)]
      exact iff_of_true (isFinite_ofMagnitude (by omega) _) htop
  · have hfull := le_roundedUnits hnum hden (hleast.trans hhigh)
    rw [if_neg (by omega), if_pos (.inl (by omega))]
    exact iff_of_false (not_isFinite_infinity _) (not_lt.mpr (le_quotient hnum hden hhigh))

/-- An integer has no number near it from the tie at the end of double precision on. -/
theorem ofInt?_eq_none_iff {i : Int} :
    ofInt? i = none ↔ (2 ^ 54 - 1) * 2 ^ 970 ≤ i.natAbs := by
  have hshape : ofInt? i = none ↔ ¬ (ofQuotient (i < 0) i.natAbs 1).IsFinite := by
    unfold ofInt? IsFinite
    dsimp only
    split <;> simp_all
  rw [hshape]
  by_cases hzero : i.natAbs = 0
  · have hfinite : (ofQuotient (i < 0) i.natAbs 1).IsFinite := by
      rw [hzero, ofQuotient, if_pos (.inl rfl)]
      exact isFinite_ofMagnitude (by decide) _
    have hpos : 0 < (2 ^ 54 - 1) * 2 ^ 970 := by positivity
    generalize (2 ^ 54 - 1) * 2 ^ 970 = bound at hpos ⊢
    exact iff_of_false (not_not.mpr hfinite) (by omega)
  · have hpow : (2 : ℚ) ^ (970 : Int) = ((2 ^ 970 : Nat) : ℚ) := by
      rw [Nat.cast_pow]
      exact zpow_natCast 2 970
    have htop : ((2 ^ 54 - 1 : Nat) : ℚ) = 2 ^ 54 - 1 := by norm_num
    rw [isFinite_ofQuotient_iff hzero one_ne_zero, not_lt, Nat.cast_one, div_one, hpow, ← htop,
      ← Nat.cast_mul, Nat.cast_le]

end DesignTokens.Binary64
