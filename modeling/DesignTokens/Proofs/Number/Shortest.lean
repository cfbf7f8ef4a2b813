import DesignTokens.Number.Decimal
import DesignTokens.Proofs.Number.Rounding

/-!
# Shortest decimals

The digits that are searched for a number are a decimal in the interval of the number, so they are
rounded back to it (`roundsTo_shortest`, `ofDecimal_of_roundsTo`).  The search tries grids from
coarse to fine.  On a grid whose steps are smaller than the upper half of the interval it cannot
fail, and the last grid is as fine as that (`exists_onGrid?_of_fine`).
-/

namespace DesignTokens.Decimal

open Binary64

/-! ## Decimals as rational numbers -/

/-- The number that a decimal is. -/
def value (d : Decimal) : ℚ := d.digits * 10 ^ d.exponent

theorem ten_zpow_pos (s : Int) : (0 : ℚ) < 10 ^ s := zpow_pos (by norm_num) s

/-- Zeros at the end of the digits do not count. -/
theorem stripZeros_value (fuel : Nat) (d : Decimal) :
    (stripZeros fuel d).value = d.value ∧ ((stripZeros fuel d).digits = 0 ↔ d.digits = 0) := by
  induction fuel generalizing d with
  | zero => exact ⟨rfl, .rfl⟩
  | succ fuel ih =>
    rw [stripZeros]
    split
    · rename_i h
      obtain ⟨hzero, hmod⟩ := h
      obtain ⟨n, hn⟩ := Nat.dvd_of_mod_eq_zero hmod
      obtain ⟨hvalue, hiff⟩ := ih ⟨d.digits / 10, d.exponent + 1⟩
      have hdiv : d.digits / 10 = n := by omega
      refine ⟨hvalue.trans ?_, hiff.trans ?_⟩
      · rw [value, value, hdiv, hn, zpow_add_one₀ (by norm_num)]
        push_cast
        ring
      · dsimp only
        omega
    · exact ⟨rfl, .rfl⟩

/-! ## Grids -/

/-- A power by its exponent when that is positive, and by its opposite otherwise. -/
theorem zpow_eq_div (b : ℚ) (hb : b ≠ 0) (s : Int) : b ^ s = b ^ s.toNat / b ^ (-s).toNat := by
  rw [← zpow_natCast, ← zpow_natCast, ← zpow_sub₀ hb]
  congr 1
  omega

theorem gridFactors_pos (s e : Int) : 0 < (gridFactors s e).1 ∧ 0 < (gridFactors s e).2 := by
  constructor <;> simp only [gridFactors, Nat.pow_eq] <;> positivity

/-- The factors of a grid are the two powers, both multiplied by the same number. -/
theorem gridFactors_eq (s e : Int) : ∃ k : ℚ, 0 < k ∧
    ((gridFactors s e).1 : ℚ) = k * 10 ^ s ∧ ((gridFactors s e).2 : ℚ) = k * 2 ^ e := by
  refine ⟨10 ^ (-s).toNat * 2 ^ (-e).toNat, by positivity, ?_, ?_⟩ <;>
    rw [zpow_eq_div _ (by norm_num)] <;> field_simp <;> simp [gridFactors, mul_comm]

/-- The factors of a grid compare multiples of the two powers. -/
theorem gridFactors_le_iff {s e : Int} {c u : Nat} :
    (c * (gridFactors s e).1 ≤ u * (gridFactors s e).2 ↔ (c * 10 ^ s : ℚ) ≤ u * 2 ^ e) ∧
      (u * (gridFactors s e).2 ≤ c * (gridFactors s e).1 ↔ (u * 2 ^ e : ℚ) ≤ c * 10 ^ s) := by
  obtain ⟨k, hk, ha, hb⟩ := gridFactors_eq s e
  simp only [← Nat.cast_le (α := ℚ), Nat.cast_mul, ha, hb, mul_left_comm _ k,
    mul_le_mul_iff_right₀ hk, and_self]

/-! ## Neighbours on a grid -/

variable {m c : Nat} {e s : Int}

/-- Whether a multiple of `10 ^ s` is in the interval of `m * 2 ^ e`. -/
def isInside (m : Nat) (e s : Int) (c : Nat) : Bool :=
  if m % 2 = 0 then
    (4 * m - reachBelow m e) * (gridFactors s (e - 2)).2 ≤ c * (gridFactors s (e - 2)).1 &&
      c * (gridFactors s (e - 2)).1 ≤ (4 * m + 2) * (gridFactors s (e - 2)).2
  else
    (4 * m - reachBelow m e) * (gridFactors s (e - 2)).2 < c * (gridFactors s (e - 2)).1 &&
      c * (gridFactors s (e - 2)).1 < (4 * m + 2) * (gridFactors s (e - 2)).2

theorem isInside_iff (hm : m ≠ 0) : isInside m e s c = true ↔ RoundsTo (c * 10 ^ s) m e := by
  have hreach : reachBelow m e ≤ 4 * m := by
    have := reachBelow_le m e
    omega
  have hpow : (2 : ℚ) ^ (e - 2) * 4 = 2 ^ e := by
    rw [← two_zpow_sub_one e, ← two_zpow_sub_one (e - 1), sub_sub, one_add_one_eq_two]
    ring
  -- the ends of the interval in quarters of the last bit
  have hlow : ((4 * m - reachBelow m e : Nat) : ℚ) * 2 ^ (e - 2) =
      (m - reachBelow m e / 4) * 2 ^ e := by
    rw [← hpow]
    push_cast [hreach]
    ring
  have hhigh : ((4 * m + 2 : Nat) : ℚ) * 2 ^ (e - 2) = (m + 1 / 2) * 2 ^ e := by
    rw [← hpow]
    push_cast
    ring
  rw [isInside]
  split
  · rename_i heven
    simp only [Bool.and_eq_true, decide_eq_true_eq, gridFactors_le_iff, hlow, hhigh]
    exact ⟨fun h => ⟨h.1, h.2, fun hodd => by omega⟩, fun h => ⟨h.low, h.high⟩⟩
  · rename_i hodd
    simp only [Bool.and_eq_true, decide_eq_true_eq, ← not_le, gridFactors_le_iff, hlow, hhigh]
    simp only [not_le]
    exact ⟨fun h => ⟨h.1.le, h.2.le, fun _ => h⟩, fun h => h.strict (by omega)⟩

/-- The multiple of `10 ^ s` just below `m * 2 ^ e`. -/
def below (m : Nat) (e s : Int) : Nat :=
  4 * m * (gridFactors s (e - 2)).2 / (gridFactors s (e - 2)).1

theorem onGrid?_eq_some {narrow : Bool} (hnarrow : (if narrow then 1 else 2) = reachBelow m e)
    (h : onGrid? m e narrow s = some c) : isInside m e s c = true := by
  unfold onGrid? at h
  rw [hnarrow] at h
  dsimp only at h
  -- one of the two neighbours is taken, and only when it is inside
  split at h
  · rename_i hbelow habove
    split at h <;> cases h
    · exact hbelow
    · exact habove
  · rename_i hbelow _
    cases h
    exact hbelow
  · rename_i _ habove
    cases h
    exact habove
  · cases h

/-- A grid has a neighbour in the interval when the one just above the number is in it. -/
theorem exists_onGrid? {narrow : Bool} (hnarrow : (if narrow then 1 else 2) = reachBelow m e)
    (h : isInside m e s (below m e s + 1) = true) : ∃ c, onGrid? m e narrow s = some c := by
  unfold onGrid?
  rw [hnarrow]
  dsimp only
  split
  · split <;> exact ⟨_, rfl⟩
  · exact ⟨_, rfl⟩
  · exact ⟨_, rfl⟩
  · rename_i _ habove
    exact absurd (h.symm.trans habove) (by decide)

/-- On a grid with fine steps the neighbour just above the number is in its interval. -/
theorem exists_onGrid?_of_fine {narrow : Bool} (hm : m ≠ 0)
    (hnarrow : (if narrow then 1 else 2) = reachBelow m e) (hfine : (2 * 10 ^ s : ℚ) < 2 ^ e) :
    ∃ c, onGrid? m e narrow s = some c := by
  have hpos : 0 < (gridFactors s (e - 2)).1 := (gridFactors_pos s (e - 2)).1
  have hquarters : ((4 * m : Nat) : ℚ) * 2 ^ (e - 2) = m * 2 ^ e := by
    rw [← two_zpow_sub_one e, ← two_zpow_sub_one (e - 1), sub_sub, one_add_one_eq_two]
    push_cast
    ring
  have hbelow : (below m e s * 10 ^ s : ℚ) ≤ m * 2 ^ e := by
    rw [← hquarters, ← gridFactors_le_iff.1]
    exact Nat.div_mul_le_self _ _
  have habove : (m * 2 ^ e : ℚ) < (below m e s + 1 : Nat) * 10 ^ s := by
    rw [← hquarters, ← not_le, ← gridFactors_le_iff.1, not_le]
    exact Nat.lt_mul_of_div_lt (Nat.lt_succ_self _) hpos
  have hreach : (0 : ℚ) ≤ reachBelow m e * 2 ^ e :=
    mul_nonneg (Nat.cast_nonneg _) (two_zpow_pos e).le
  refine exists_onGrid? hnarrow ((isInside_iff hm).mpr ?_)
  have hlow : (m - reachBelow m e / 4) * 2 ^ e < ((below m e s + 1 : Nat) : ℚ) * 10 ^ s := by
    linarith
  have hhigh : ((below m e s + 1 : Nat) : ℚ) * 10 ^ s < (m + 1 / 2) * 2 ^ e := by
    push_cast
    linarith
  exact ⟨hlow.le, hhigh.le, fun _ => ⟨hlow, hhigh⟩⟩

/-- What is found on grids is in the interval when the last grid cannot fail. -/
theorem roundsTo_searchGrid {narrow : Bool} (hm : m ≠ 0)
    (hnarrow : (if narrow then 1 else 2) = reachBelow m e) (count : Nat) (s : Int)
    (hlast : ∃ c, onGrid? m e narrow (s - count) = some c) :
    RoundsTo (searchGrid m e narrow count s).value m e := by
  induction count generalizing s with
  | zero =>
    obtain ⟨c, hc⟩ := hlast
    rw [Nat.cast_zero, sub_zero] at hc
    rw [searchGrid, hc]
    exact (isInside_iff hm).mp (onGrid?_eq_some hnarrow hc)
  | succ count ih =>
    rw [searchGrid]
    split
    · rename_i c hc
      exact (isInside_iff hm).mp (onGrid?_eq_some hnarrow hc)
    · refine ih (s - 1) ?_
      rwa [Nat.cast_succ, add_comm, ← sub_sub] at hlast

/-! ## The first digit -/

/-- Powers of ten and of two with exponents in a ratio `p / r` that is close to the logarithm of
two. -/
theorem ten_zpow_le_of_ratio {p r : Nat} (hr : r ≠ 0) (hlow : 2 ^ r ≤ 10 ^ p)
    (hhigh : 10 ^ p ≤ 2 ^ (r + 1)) {k l : Int} (hkl : k * r ≤ l * p) (hl : l ≤ r) :
    (10 : ℚ) ^ k ≤ 2 ^ (l + 1) := by
  have hlow : ((2 : ℚ) ^ r) ≤ 10 ^ p := by exact_mod_cast hlow
  have hhigh : ((10 : ℚ) ^ p) ≤ 2 ^ (r + 1) := by exact_mod_cast hhigh
  have hpowers : ((10 : ℚ) ^ p) ^ l ≤ 2 ^ ((l + 1) * r) := by
    obtain ⟨n, rfl | rfl⟩ := l.eq_nat_or_neg
    · calc ((10 : ℚ) ^ p) ^ (n : Int) ≤ (2 ^ (r + 1)) ^ n := by
            rw [zpow_natCast]
            gcongr
        _ = 2 ^ (((r + 1) * n : Nat) : Int) := by rw [← pow_mul, zpow_natCast]
        _ ≤ 2 ^ (((n : Int) + 1) * r) := by
            refine zpow_le_zpow_right₀ (by norm_num) ?_
            push_cast
            linarith
    · calc ((10 : ℚ) ^ p) ^ (-n : Int) ≤ ((2 ^ r) ^ n)⁻¹ := by
            rw [zpow_neg, zpow_natCast]
            gcongr
        _ = 2 ^ (-(r * n : Nat) : Int) := by rw [← pow_mul, zpow_neg, zpow_natCast]
        _ ≤ 2 ^ ((-n + 1 : Int) * r) := by
            refine zpow_le_zpow_right₀ (by norm_num) ?_
            push_cast
            linarith
  -- it is enough to compare the powers with exponent `r`
  refine le_of_pow_le_pow_left₀ hr (two_zpow_pos _).le ?_
  calc ((10 : ℚ) ^ k) ^ r = 10 ^ (k * r) := by rw [← zpow_natCast, ← zpow_mul]
    _ ≤ 10 ^ (l * p) := zpow_le_zpow_right₀ (by norm_num) hkl
    _ = (10 ^ p) ^ l := by rw [mul_comm, zpow_mul, zpow_natCast]
    _ ≤ 2 ^ ((l + 1) * r) := hpowers
    _ = (2 ^ (l + 1)) ^ r := by rw [zpow_mul, zpow_natCast]

theorem ten_zpow_le_two_zpow {k l : Int} (hkl : k * 100000 ≤ l * 30103) (hl : l ≤ 100000) :
    (10 : ℚ) ^ k ≤ 2 ^ (l + 1) :=
  @ten_zpow_le_of_ratio 30103 100000 (by decide) (by decide +kernel) (by decide +kernel) k l hkl hl

/-- The first digit of a quotient does not stand above the quotient. -/
theorem ten_zpow_leadingPower_le {num den : Nat} (hnum : num ≠ 0) (hden : den ≠ 0)
    (hl : (num.log2 : Int) - den.log2 ≤ 100000) :
    (10 : ℚ) ^ leadingPower num den ≤ num / den := by
  unfold leadingPower
  extract_lets estimate reached
  have hreached (k : Int) (h : reached k = true) : (10 : ℚ) ^ k ≤ num / den := by
    have hle : Nat.pow 10 k.toNat * den ≤ num * Nat.pow 10 (-k).toNat := by
      simpa [reached] using h
    have hpos : (0 : ℚ) < den := by exact_mod_cast Nat.pos_of_ne_zero hden
    rw [zpow_eq_div 10 (by norm_num), div_le_div_iff₀ (by positivity) hpos]
    exact_mod_cast hle
  split
  · exact hreached _ ‹_›
  split
  · exact hreached _ ‹_›
  split
  · exact hreached _ ‹_›
  split
  · exact hreached _ ‹_›
  · -- the estimate is off by one power of ten at most
    have hestimate : (10 : ℚ) ^ estimate ≤ 2 ^ ((num.log2 : Int) - den.log2 + 1) :=
      ten_zpow_le_two_zpow (Int.ediv_mul_le _ (by decide)) hl
    have hquotient := zpow_log2_le hnum hden
    calc (10 : ℚ) ^ (estimate - 2) = 10 ^ estimate / 100 := by
          rw [zpow_sub₀ (by norm_num)]
          norm_num
      _ ≤ 2 ^ ((num.log2 : Int) - den.log2 + 1) / 100 := by gcongr
      _ = 2 ^ ((num.log2 : Int) - den.log2 - 1) * (4 / 100) := by
          rw [← two_zpow_sub_one, ← two_zpow_sub_one (_ + 1 - 1), add_sub_cancel_right]
          ring
      _ ≤ 2 ^ ((num.log2 : Int) - den.log2 - 1) * 1 := by
          have := two_zpow_pos ((num.log2 : Int) - den.log2 - 1)
          gcongr
          norm_num
      _ ≤ num / den := by rwa [mul_one]

/-! ## Shortest decimals -/

theorem fraction_div (m : Nat) (e : Int) :
    ((fraction m e).1 / (fraction m e).2 : ℚ) = m * 2 ^ e := by
  cases e with
  | ofNat k => simp [fraction]
  | negSucc k => simp [fraction, zpow_negSucc, div_eq_mul_inv]

theorem fraction_ne_zero (hm : m ≠ 0) (e : Int) :
    (fraction m e).1 ≠ 0 ∧ (fraction m e).2 ≠ 0 := by
  cases e <;> simp [fraction, hm]

/-- The numerator of a finite number has not too many bits. -/
theorem log2_fraction_le (hcanonical : Canonical m e) (hm : m ≠ 0) :
    ((fraction m e).1.log2 : Int) - (fraction m e).2.log2 ≤ 1024 := by
  have hgreatest := hcanonical.le_greatest
  have hnum : (fraction m e).1 < 2 ^ (53 + e.toNat) := by
    cases e with
    | ofNat k =>
      rw [Nat.pow_add]
      exact Nat.mul_lt_mul_of_pos_right hcanonical.lt (Nat.two_pow_pos k)
    | negSucc k => exact hcanonical.lt
  have := (Nat.log2_lt (fraction_ne_zero hm e).1).mpr hnum
  omega

/-- The shortest decimal of a number is in its interval. -/
theorem roundsTo_shortest (hcanonical : Canonical m e) (hm : m ≠ 0) :
    RoundsTo (shortest m e).value m e := by
  obtain ⟨hnum, hden⟩ := fraction_ne_zero hm e
  have hleading := ten_zpow_leadingPower_le hnum hden
    ((log2_fraction_le hcanonical hm).trans (by decide))
  rw [fraction_div] at hleading
  -- seventeen digits after the first one are fine enough
  have hlast : (2 * 10 ^ (leadingPower (fraction m e).1 (fraction m e).2 - (17 : Nat)) : ℚ) <
      2 ^ e := by
    have hlt : (m : ℚ) < 2 ^ 53 := by exact_mod_cast hcanonical.lt
    have hpow := two_zpow_pos e
    rw [zpow_sub₀ (by norm_num), zpow_natCast, mul_div_assoc', div_lt_iff₀ (by norm_num)]
    calc (2 * 10 ^ leadingPower (fraction m e).1 (fraction m e).2 : ℚ) ≤ 2 * (m * 2 ^ e) := by gcongr
      _ < 2 * (2 ^ 53 * 2 ^ e) := by gcongr
      _ ≤ 2 ^ e * 10 ^ 17 := by linarith
  unfold shortest
  rw [if_neg hm, (stripZeros_value _ _).1]
  have hnarrow : (if decide (m = Nat.pow 2 52 ∧ minExponent < e) = true then 1 else 2) =
      reachBelow m e := by
    rw [reachBelow]
    simp only [decide_eq_true_eq, Nat.pow_eq]
  exact roundsTo_searchGrid hm hnarrow 17 _ (exists_onGrid?_of_fine hm hnarrow hlast)

end DesignTokens.Decimal

namespace DesignTokens.Binary64

open Decimal

variable {m n : Nat} {e k : Int}

/-- Nothing but zero is rounded to zero. -/
theorem RoundsTo.pos {q : ℚ} (h : RoundsTo q m e) (hm : m ≠ 0) : 0 < q := by
  have hone : (1 : ℚ) ≤ m := by exact_mod_cast Nat.one_le_iff_ne_zero.mpr hm
  nlinarith [h.low_half, two_zpow_pos e]

theorem lt_ten_pow_decimalLength (n : Nat) : n < 10 ^ decimalLength n :=
  (Nat.length_toDigits_le_iff (by decide) Nat.length_toDigits_pos).mp le_rfl

theorem ten_pow_le_of_decimalLength (hn : n ≠ 0) : 10 ^ (decimalLength n - 1) ≤ n := by
  by_contra hlt
  have hlt := not_le.mp hlt
  rcases Nat.eq_zero_or_pos (decimalLength n - 1) with hzero | hpos
  · rw [hzero] at hlt
    omega
  · have := (Nat.length_toDigits_le_iff (by decide) hpos).mpr hlt
    rw [← decimalLength] at this
    omega

theorem two_pow_le_ten_pow {p r : Nat} (h : 2 ^ r ≤ 10 ^ p) : (2 : ℚ) ^ r ≤ 10 ^ p := by
  exact_mod_cast h

/-- The first digit of a decimal in the interval of a number is not too high. -/
theorem RoundsTo.decimalLength_le (hcanonical : Canonical m e) (h : RoundsTo (n * 10 ^ k) m e)
    (hn : n ≠ 0) : (decimalLength n : Int) + k ≤ 310 := by
  have hlt : (m : ℚ) + 1 ≤ 2 ^ 53 := by exact_mod_cast hcanonical.lt
  have hle : (10 ^ (decimalLength n - 1) : ℚ) ≤ n := by
    exact_mod_cast ten_pow_le_of_decimalLength hn
  have hpowers : (10 : ℚ) ^ (((decimalLength n - 1 : Nat) : Int) + k) < 10 ^ (309 : Int) := by
    calc (10 : ℚ) ^ (((decimalLength n - 1 : Nat) : Int) + k)
        = 10 ^ (decimalLength n - 1) * 10 ^ k := by
          rw [zpow_add₀ (by norm_num), zpow_natCast]
      _ ≤ n * 10 ^ k := by gcongr
      _ ≤ (m + 1 / 2) * 2 ^ e := h.high
      _ < 2 ^ 53 * 2 ^ e := by
          have := two_zpow_pos e
          gcongr
          linarith
      _ = 2 ^ (53 + e) := by rw [zpow_add₀ (by norm_num), zpow_ofNat]
      _ ≤ 2 ^ ((1024 : Nat) : Int) := by
          have := hcanonical.le_greatest
          exact zpow_le_zpow_right₀ (by norm_num) (by omega)
      _ ≤ 10 ^ ((309 : Nat) : Int) := by
          rw [zpow_natCast, zpow_natCast]
          exact two_pow_le_ten_pow (by decide +kernel)
  have := (zpow_lt_zpow_iff_right₀ (by norm_num)).mp hpowers
  omega

/-- Nor is it too low, unless the number is zero. -/
theorem RoundsTo.le_decimalLength (hcanonical : Canonical m e) (h : RoundsTo (n * 10 ^ k) m e)
    (hm : m ≠ 0) : -330 ≤ (decimalLength n : Int) + k := by
  have hone : (1 : ℚ) ≤ m := by exact_mod_cast Nat.one_le_iff_ne_zero.mpr hm
  have hlt : (n : ℚ) < 10 ^ decimalLength n := by exact_mod_cast lt_ten_pow_decimalLength n
  have hpowers : (10 : ℚ) ^ (-324 : Int) < 10 ^ ((decimalLength n : Int) + k) := by
    calc (10 : ℚ) ^ (-(324 : Nat) : Int) ≤ 2 ^ (-(1075 : Nat) : Int) := by
          rw [zpow_neg, zpow_neg, zpow_natCast, zpow_natCast]
          exact inv_anti₀ (by positivity) (two_pow_le_ten_pow (by decide +kernel))
      _ ≤ 2 ^ (e - 1) := by
          have hleast : -1074 ≤ e := hcanonical.least_le
          exact zpow_le_zpow_right₀ (by norm_num) (by omega)
      _ ≤ (m - 1 / 2) * 2 ^ e := by
          rw [← two_zpow_sub_one e]
          have := two_zpow_pos (e - 1)
          nlinarith
      _ ≤ n * 10 ^ k := h.low_half
      _ < 10 ^ decimalLength n * 10 ^ k := by
          have := ten_zpow_pos k
          gcongr
      _ = 10 ^ ((decimalLength n : Int) + k) := by rw [zpow_add₀ (by norm_num), zpow_natCast]
  have := (zpow_lt_zpow_iff_right₀ (by norm_num)).mp hpowers
  omega

/-- A decimal in the interval of a number is read as the number, however it is written. -/
theorem ofDecimal_of_roundsTo (hcanonical : Canonical m e) (hm : m ≠ 0)
    (h : RoundsTo (n * 10 ^ k) m e) (negative : Bool) :
    ofDecimal negative n k = ofMagnitude negative (magnitude m e) := by
  have hn : n ≠ 0 := by
    rintro rfl
    simpa using h.pos hm
  have htop := h.decimalLength_le hcanonical hn
  have hbottom := h.le_decimalLength hcanonical hm
  unfold ofDecimal
  rw [if_neg hn]
  dsimp only
  rw [if_neg (by omega), if_neg (by omega)]
  cases k with
  | ofNat j =>
    refine ofQuotient_of_roundsTo hcanonical (by simp [hn]) (by decide) ?_ negative
    simpa using h
  | negSucc j =>
    refine ofQuotient_of_roundsTo hcanonical hn (by simp) ?_ negative
    simpa [zpow_negSucc, div_eq_mul_inv] using h

end DesignTokens.Binary64
