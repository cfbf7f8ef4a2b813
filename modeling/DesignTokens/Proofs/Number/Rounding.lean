import DesignTokens.Proofs.Number.Binary64
import Mathlib.Algebra.Order.Field.Power
import Mathlib.Data.Rat.Cast.Order
import Mathlib.Tactic.FieldSimp
import Mathlib.Tactic.NormNum

/-!
# What is rounded to a number

Every finite number has an interval around it, and the quotients in the interval are rounded to the
number (`ofQuotient_of_roundsTo`).  The interval reaches half of the way to the neighbours; below a
power of two the neighbour is only half as far away.  The ends belong to even numbers.
-/

namespace DesignTokens.Binary64

/-! ## Finite numbers by mantissa and exponent -/

/-- A mantissa and an exponent as the bits of a finite number give them. -/
structure Canonical (m : Nat) (e : Int) : Prop where
  lt : m < 2 ^ 53
  least_le : minExponent ≤ e
  le_greatest : e ≤ 971
  /-- Only the numbers with the least exponent have fewer than 53 bits. -/
  full : e = minExponent ∨ 2 ^ 52 ≤ m

/-- The magnitude of `m * 2 ^ e` as bits. -/
def magnitude (m : Nat) (e : Int) : Nat :=
  if m < 2 ^ 52 then m else (e + 1075).toNat * 2 ^ 52 + (m - 2 ^ 52)

/-- A finite number is given by its mantissa and its exponent. -/
theorem canonical_of_shape {x : Binary64} {negative : Bool} {m : Nat} {e : Int}
    (h : x.shape = .finite negative m e) :
    Canonical m e ∧ x = ofMagnitude negative (magnitude m e) := by
  obtain ⟨bits⟩ := x
  have hbits : bits.toNat < 2 ^ 64 := bits.toNat_lt
  simp only [shape, isNegative, Nat.pow_eq] at h
  generalize hn : bits.toNat = n at h hbits
  -- the bits from the sign, the exponent and the fraction
  have hsplit : n = (if 2 ^ 63 ≤ n then 2 ^ 63 else 0) + (n / 2 ^ 52 % 2048 * 2 ^ 52 + n % 2 ^ 52) := by
    split <;> omega
  have hfraction : n % 2 ^ 52 < 2 ^ 52 := Nat.mod_lt _ (by decide)
  have hbiased : n / 2 ^ 52 % 2048 < 2048 := Nat.mod_lt _ (by decide)
  generalize n % 2 ^ 52 = fraction at h hsplit hfraction
  generalize n / 2 ^ 52 % 2048 = biased at h hsplit hbiased
  have hof : (⟨bits⟩ : Binary64) = ofMagnitude (2 ^ 63 ≤ n) (biased * 2 ^ 52 + fraction) := by
    have hbits : (if 2 ^ 63 ≤ n then 2 ^ 63 + (biased * 2 ^ 52 + fraction)
        else biased * 2 ^ 52 + fraction) = bits.toNat := by
      rw [hn]
      split at hsplit <;> simp_all
    simp only [ofMagnitude, Nat.pow_eq, decide_eq_true_eq, hbits, UInt64.ofNat_toNat]
  split at h
  · split at h <;> cases h
  rename_i hfinite
  split at h
  · rename_i hzero
    injection h with hs hm he
    subst hs hm he
    refine ⟨⟨by omega, le_rfl, by decide, .inl rfl⟩, ?_⟩
    rw [hof, magnitude, if_pos hfraction, hzero, Nat.zero_mul, Nat.zero_add]
  · rename_i hzero
    injection h with hs hm he
    subst hs hm he
    refine ⟨⟨by omega, by simp only [minExponent]; omega, by omega, .inr (by omega)⟩, ?_⟩
    rw [hof, magnitude, if_neg (by omega), Nat.add_sub_cancel_left,
      show ((biased : Int) - 1075 + 1075).toNat = biased by omega]

/-! ## Quotients as rational numbers -/

variable {num den : Nat} {e : Int}

theorem two_zpow_pos (e : Int) : (0 : ℚ) < 2 ^ e := zpow_pos (by norm_num) e

theorem two_zpow_sub_one (e : Int) : (2 : ℚ) ^ (e - 1) * 2 = 2 ^ e := by
  rw [← zpow_add_one₀ (by norm_num), sub_add_cancel]

/-- Scaling divides by a power of two. -/
theorem scaleDown_div (num den : Nat) (e : Int) :
    ((scaleDown num den e).1 : ℚ) / (scaleDown num den e).2 = num / den / 2 ^ e := by
  cases e with
  | ofNat k => simp [scaleDown, div_div]
  | negSucc k =>
    simp only [scaleDown, Nat.pow_eq, Nat.cast_mul, Nat.cast_pow, Nat.cast_ofNat, zpow_negSucc,
      div_inv_eq_mul]
    ring

theorem scaleDown_pos (hden : den ≠ 0) (e : Int) : 0 < (scaleDown num den e).2 := by
  cases e with
  | ofNat k => exact Nat.mul_pos (Nat.pos_of_ne_zero hden) (Nat.two_pow_pos k)
  | negSucc k => exact Nat.pos_of_ne_zero hden

theorem scaledQuotient_lt_iff (hden : den ≠ 0) (k : Nat) :
    scaledQuotient num den e < k ↔ (num / den : ℚ) < k * 2 ^ e := by
  have hpos : 0 < (scaleDown num den e).2 := scaleDown_pos hden e
  rw [scaledQuotient, Nat.div_lt_iff_lt_mul hpos, ← div_lt_iff₀ (two_zpow_pos e),
    ← scaleDown_div, div_lt_iff₀ (by exact_mod_cast hpos)]
  exact_mod_cast Iff.rfl

theorem le_scaledQuotient_iff (hden : den ≠ 0) (k : Nat) :
    k ≤ scaledQuotient num den e ↔ k * 2 ^ e ≤ (num / den : ℚ) := by
  rw [← not_lt, scaledQuotient_lt_iff hden, not_lt]

/-- A quotient by the lengths of its two numbers. -/
theorem zpow_log2_le (hnum : num ≠ 0) (hden : den ≠ 0) :
    (2 : ℚ) ^ ((num.log2 : Int) - den.log2 - 1) ≤ num / den := by
  have hlow : (2 : ℚ) ^ num.log2 ≤ num := by exact_mod_cast Nat.log2_self_le hnum
  have hhigh : (den : ℚ) ≤ 2 ^ (den.log2 + 1) := by exact_mod_cast (Nat.lt_log2_self).le
  have hpos : (0 : ℚ) < den := by exact_mod_cast Nat.pos_of_ne_zero hden
  calc (2 : ℚ) ^ ((num.log2 : Int) - den.log2 - 1)
      = 2 ^ num.log2 / 2 ^ (den.log2 + 1) := by
        rw [sub_sub, zpow_sub₀ (by norm_num)]
        norm_cast
    _ ≤ num / den := by gcongr

/-! ## The last bit -/

/-- What determines the exponent of the last bit. -/
structure IsLastBit (q : ℚ) (e : Int) : Prop where
  least_le : minExponent ≤ e
  lt : q < 2 ^ 53 * 2 ^ e
  full : e = minExponent ∨ 2 ^ 52 * 2 ^ e ≤ q

theorem isLastBit_lastBit (hnum : num ≠ 0) (hden : den ≠ 0) :
    IsLastBit (num / den) (lastBit num den) := by
  unfold lastBit
  dsimp only
  -- the guess from the lengths of the numbers is right or one too low
  generalize hlow : max ((num.log2 : Int) - den.log2 - 53) minExponent = low
  have hleast : minExponent ≤ low := by omega
  split
  · rename_i hlt
    refine ⟨hleast, by exact_mod_cast (scaledQuotient_lt_iff hden _).mp hlt, ?_⟩
    by_cases h : low = minExponent
    · exact .inl h
    · right
      calc (2 : ℚ) ^ 52 * 2 ^ low = 2 ^ ((num.log2 : Int) - den.log2 - 1) := by
            rw [← zpow_natCast, ← zpow_add₀ (by norm_num)]
            congr 1
            omega
        _ ≤ num / den := zpow_log2_le hnum hden
  · rename_i hge
    have hsucc : scaledQuotient num den (low + 1) = scaledQuotient num den low / 2 :=
      scaledQuotient_succ ..
    have hlt : scaledQuotient num den low < 2 ^ 54 := scaledQuotient_lt hden (by omega)
    rw [Nat.pow_eq] at hge
    refine ⟨by omega, ?_, .inr ?_⟩
    · exact_mod_cast (scaledQuotient_lt_iff (e := low + 1) hden (2 ^ 53)).mp (by omega)
    · exact_mod_cast (le_scaledQuotient_iff (e := low + 1) hden (2 ^ 52)).mp (by omega)

/-- There is one last bit only. -/
theorem IsLastBit.unique {q : ℚ} {e f : Int} (he : IsLastBit q e) (hf : IsLastBit q f) : e = f := by
  have key {e f : Int} (he : IsLastBit q e) (hf : IsLastBit q f) : ¬ e < f := by
    intro hlt
    have hfull : 2 ^ 52 * 2 ^ f ≤ q := hf.full.resolve_left (by have := he.least_le; omega)
    have hpow : (2 : ℚ) ^ e ≤ 2 ^ (f - 1) := zpow_le_zpow_right₀ (by norm_num) (by omega)
    have htwice : (2 : ℚ) ^ (f - 1) * 2 = 2 ^ f := two_zpow_sub_one f
    linarith [he.lt]
  have := key he hf
  have := key hf he
  omega

/-! ## Rounding to whole numbers -/

theorem roundDiv_eq {n d m : Nat} (hd : 0 < d) (hlow : 2 * (m * d) ≤ 2 * n + d)
    (hhigh : 2 * n ≤ 2 * (m * d) + d)
    (hstrict : m % 2 = 1 → 2 * (m * d) < 2 * n + d ∧ 2 * n < 2 * (m * d) + d) :
    roundDiv n d = m := by
  have hsplit : d * (n / d) + n % d = n := Nat.div_add_mod n d
  have hmod : n % d < d := Nat.mod_lt n hd
  unfold roundDiv
  generalize n / d = q at hsplit ⊢
  generalize n % d = r at hsplit hmod ⊢
  -- the quotient is rounded down to the result or to the number before it
  have hq : q = m ∨ q + 1 = m := by
    have hle : q ≤ m := by
      by_contra hlt
      have : d * (m + 1) ≤ d * q := Nat.mul_le_mul_left d (by omega)
      rw [Nat.mul_succ, Nat.mul_comm d m] at this
      omega
    have hge : m ≤ q + 1 := by
      by_contra hlt
      have : d * (q + 2) ≤ d * m := Nat.mul_le_mul_left d (by omega)
      rw [Nat.mul_add, Nat.mul_comm d m] at this
      omega
    omega
  rcases hq with rfl | rfl
  · rw [Nat.mul_comm q d] at *
    dsimp only
    rw [if_neg (by omega)]
  · rw [Nat.add_mul, Nat.mul_comm q d] at *
    dsimp only
    rw [if_pos (by omega)]

/-- A quotient within one half of a whole number is rounded to it. -/
theorem roundDiv_of_near {n d m : Nat} {t : ℚ} (hd : 0 < d) (ht : (n : ℚ) / d = t)
    (hlow : m - 1 / 2 ≤ t) (hhigh : t ≤ m + 1 / 2)
    (hstrict : m % 2 = 1 → m - 1 / 2 < t ∧ t < m + 1 / 2) : roundDiv n d = m := by
  have hpos : (0 : ℚ) < d := by exact_mod_cast hd
  have hn : (n : ℚ) = t * d := by rw [← ht, div_mul_cancel₀ _ hpos.ne']
  refine roundDiv_eq hd ?_ ?_ fun hodd => ?_
  · have : (2 : ℚ) * (m * d) ≤ 2 * n + d := by rw [hn]; nlinarith
    exact_mod_cast this
  · have : (2 : ℚ) * n ≤ 2 * (m * d) + d := by rw [hn]; nlinarith
    exact_mod_cast this
  · obtain ⟨hlow, hhigh⟩ := hstrict hodd
    constructor
    · have : (2 : ℚ) * (m * d) < 2 * n + d := by rw [hn]; nlinarith
      exact_mod_cast this
    · have : (2 : ℚ) * n < 2 * (m * d) + d := by rw [hn]; nlinarith
      exact_mod_cast this

/-! ## The interval of a number -/

/-- How far the interval of a number reaches down, in quarters of its last bit. -/
def reachBelow (m : Nat) (e : Int) : Nat :=
  if m = 2 ^ 52 ∧ minExponent < e then 1 else 2

/-- A quotient that is rounded to `m * 2 ^ e`. -/
structure RoundsTo (q : ℚ) (m : Nat) (e : Int) : Prop where
  low : (m - reachBelow m e / 4) * 2 ^ e ≤ q
  high : q ≤ (m + 1 / 2) * 2 ^ e
  strict : m % 2 = 1 → (m - reachBelow m e / 4) * 2 ^ e < q ∧ q < (m + 1 / 2) * 2 ^ e

variable {m : Nat} {q : ℚ}

theorem reachBelow_le (m : Nat) (e : Int) : reachBelow m e ≤ 2 := by
  unfold reachBelow
  split <;> simp

/-- What is rounded to a number is half a last bit away at most. -/
theorem RoundsTo.low_half (h : RoundsTo q m e) : (m - 1 / 2) * 2 ^ e ≤ q := by
  have hreach : (reachBelow m e : ℚ) ≤ 2 := by exact_mod_cast reachBelow_le m e
  nlinarith [h.low, two_zpow_pos e]

/-- Where the interval reaches below a power of two, the last bit is half as large. -/
theorem RoundsTo.eq_of_lt (hm : Canonical m e) (h : RoundsTo q m e) (hlt : q < 2 ^ 52 * 2 ^ e)
    (hleast : minExponent < e) : m = 2 ^ 52 ∧ (2 ^ 53 - 1 / 2) * 2 ^ (e - 1) ≤ q := by
  have hpow : (0 : ℚ) < 2 ^ e := two_zpow_pos e
  have hfull : 2 ^ 52 ≤ m := hm.full.resolve_left (by omega)
  have hm : m = 2 ^ 52 := by
    have hlow : (m - 1 / 2 : ℚ) * 2 ^ e < 2 ^ 52 * 2 ^ e := lt_of_le_of_lt h.low_half hlt
    have : (m : ℚ) < 2 ^ 52 + 1 := by linarith [lt_of_mul_lt_mul_right hlow hpow.le]
    have : m < 2 ^ 52 + 1 := by exact_mod_cast this
    omega
  subst hm
  refine ⟨rfl, ?_⟩
  have hlow := h.low
  rw [reachBelow, if_pos ⟨rfl, hleast⟩, ← two_zpow_sub_one] at hlow
  push_cast at hlow
  linarith

theorem magnitude_of_le (h : 2 ^ 52 ≤ m) :
    magnitude m e = (e + 1075).toNat * 2 ^ 52 + (m - 2 ^ 52) := by
  rw [magnitude, if_neg (by omega)]

/-- A quotient in the interval of a number is rounded to the number. -/
theorem ofQuotient_of_roundsTo (hm : Canonical m e) (hnum : num ≠ 0) (hden : den ≠ 0)
    (h : RoundsTo (num / den) m e) (negative : Bool) :
    ofQuotient negative num den = ofMagnitude negative (magnitude m e) := by
  have hpow : (0 : ℚ) < 2 ^ e := two_zpow_pos e
  have hmlt : (m : ℚ) + 1 ≤ 2 ^ 53 := by exact_mod_cast hm.lt
  have hlast : IsLastBit (num / den) (lastBit num den) := isLastBit_lastBit hnum hden
  have hgreatest := hm.le_greatest
  have hleast := hm.least_le
  rw [ofQuotient_eq hnum hden]
  by_cases hfull : e = minExponent ∨ (2 : ℚ) ^ 52 * 2 ^ e ≤ num / den
  · -- the last bit is that of the number
    have hbit : lastBit num den = e :=
      hlast.unique ⟨hm.least_le, by nlinarith [h.high], hfull⟩
    have hunits : roundedUnits num den = m := by
      unfold roundedUnits
      rw [hbit]
      refine roundDiv_of_near (scaleDown_pos hden e) (scaleDown_div num den e) ?_ ?_ fun hodd => ?_
      · rw [le_div_iff₀ hpow]
        exact h.low_half
      · rw [div_le_iff₀ hpow]
        exact h.high
      · obtain ⟨hlow, hhigh⟩ := h.strict hodd
        rw [lt_div_iff₀ hpow, div_lt_iff₀ hpow]
        -- an odd mantissa is no power of two
        have hreach : reachBelow m e = 2 := if_neg fun hnarrow => by
          rw [hnarrow.1] at hodd
          exact absurd hodd (by decide)
        rw [hreach] at hlow
        exact ⟨by linarith, hhigh⟩
    have hlt := hm.lt
    rw [hunits, hbit]
    simp only [Nat.pow_eq]
    by_cases hsmall : m < 2 ^ 52
    · rw [if_pos hsmall, magnitude, if_pos hsmall]
    · rw [if_neg hsmall, if_neg (by omega), magnitude_of_le (by omega)]
  · -- below a power of two the last bit is half as large, and all bits are carried over
    obtain ⟨hne, hlt⟩ := not_or.mp hfull
    obtain ⟨rfl, hlow⟩ := h.eq_of_lt hm (not_le.mp hlt) (by omega)
    have htwice : (2 : ℚ) ^ (e - 1) * 2 = 2 ^ e := two_zpow_sub_one e
    have hpow' : (0 : ℚ) < 2 ^ (e - 1) := two_zpow_pos (e - 1)
    have hbit : lastBit num den = e - 1 :=
      hlast.unique ⟨by omega, by linarith, .inr (by linarith)⟩
    have hunits : roundedUnits num den = 2 ^ 53 := by
      unfold roundedUnits
      rw [hbit]
      refine roundDiv_of_near (scaleDown_pos hden _) (scaleDown_div num den _) ?_ ?_ (by simp)
      · rw [le_div_iff₀ hpow']
        exact_mod_cast hlow
      · rw [div_le_iff₀ hpow']
        push_cast
        linarith
    rw [hunits, hbit, magnitude_of_le le_rfl]
    simp only [Nat.pow_eq]
    have hnormal : -1074 ≤ e := hm.least_le
    rw [if_neg (by decide), if_neg (by omega)]
    exact congrArg (ofMagnitude negative) (by omega)

end DesignTokens.Binary64
