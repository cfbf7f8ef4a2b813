import DesignTokens.Color.Value
import DesignTokens.Proofs.Outcome
import Mathlib

/-!
# Renditions of colours

A rendition of a colour is kept as an object of its own.  It is written like the colour itself on
the same screens (`cssText_rendition`), as long as nothing in it is a not-a-number: these are not
kept.
-/

namespace DesignTokens

/-- A hardware number is the same after it has been kept as bits. -/
theorem Binary64.toFloat_ofFloat (v : Float) : (ofFloat v).toFloat = v := by
  rw [ofFloat]
  split
  · rename_i hnan
    rw [Float.isNaN_eq_decide_eq_nan, decide_eq_true_eq] at hnan
    rw [hnan]
    decide +kernel
  · exact Float.ofBits_toBits v

namespace Color

open Outcome

/-! ## Colours and their objects -/

/-- A colour whose channels and opacity are numbers. -/
structure IsNumeric (c : Color) : Prop where
  x : c.channels.x.isNaN = false
  y : c.channels.y.isNaN = false
  z : c.channels.z.isNaN = false
  alpha : c.alpha.isNaN = false

theorem clampAlpha_clampAlpha (v : Float) : clampAlpha (clampAlpha v) = clampAlpha v := by
  have hzero : clampAlpha 0.0 = 0.0 := by decide +kernel
  have hone : clampAlpha 1.0 = 1.0 := by decide +kernel
  by_cases hlow : v < 0.0
  · rw [show clampAlpha v = 0.0 from if_pos hlow, hzero]
  · by_cases hhigh : 1.0 < v
    · rw [show clampAlpha v = 1.0 by rw [clampAlpha, if_neg hlow, if_pos hhigh], hone]
    · have hsame : clampAlpha v = v := by rw [clampAlpha, if_neg hlow, if_neg hhigh]
      rw [hsame, hsame]

/-- Colours that are read have an opacity from zero to one. -/
theorem clampAlpha_of_ofValue {d : Data} {c : Color} (h : ofValue d = .ok c) :
    clampAlpha c.alpha = c.alpha := by
  unfold ofValue at h
  split at h
  · split at h
    · unfold ofParts at h
      split at h
      · cases h
      · simp only [bind_eq_ok, pure_eq_ok] at h
        obtain ⟨_, -, a, -, rfl⟩ := h
        exact clampAlpha_clampAlpha a
    · cases h
  · cases h

/-- A colour is read back from its object. -/
theorem ofValue_value {c : Color} (hc : c.IsNumeric) (halpha : clampAlpha c.alpha = c.alpha) :
    ofValue c.value = .ok c := by
  obtain ⟨space, ⟨x, y, z⟩, alpha⟩ := c
  obtain ⟨hx, hy, hz, ha⟩ := hc
  dsimp only at hx hy hz ha halpha
  have hnumber (v : Float) : number (.float (.ofFloat v)) = .ok v :=
    congrArg Except.ok (Binary64.toFloat_ofFloat v)
  have hread (x y z a : Float) : ofParts space.name [.float (.ofFloat x), .float (.ofFloat y),
      .float (.ofFloat z)] (.float (.ofFloat a)) =
        .ok ⟨space, ⟨if x.isNaN then 0.0 else x, if y.isNaN then 0.0 else y,
          if z.isNaN then 0.0 else z⟩, clampAlpha a⟩ := by
    rw [ofParts, Space.ofName?_name]
    simp only [List.take, List.mapM_cons, List.mapM_nil, hnumber]
    rfl
  have hparts : ofValue (value ⟨space, ⟨x, y, z⟩, alpha⟩) = ofParts space.name
      [.float (.ofFloat (if x.isNaN then 0.0 else x)), .float (.ofFloat (if y.isNaN then 0.0 else y)),
        .float (.ofFloat (if z.isNaN then 0.0 else z))]
      (.float (.ofFloat (if alpha.isNaN then 1.0 else alpha))) := rfl
  rw [hparts, hread]
  simp only [hx, hy, hz, ha, Bool.false_eq_true, if_false, halpha]

/-! ## Renditions -/

theorem cssText_rendition {g : Gamut} {d : Data} {c c' : Color} (hc : ofValue d = .ok c)
    (hc' : onScreen g c = .ok c') (hnumeric : c'.IsNumeric) :
    cssText g c'.value = cssText g d := by
  obtain ⟨channels, hchannels, rfl⟩ := exceptMap_eq_ok.mp hc'
  have halpha := clampAlpha_of_ofValue hc
  -- a colour of the space of the screens stays as it is
  have hsame : onScreen g ⟨g.space, channels, c.alpha⟩ = .ok ⟨g.space, channels, c.alpha⟩ := by
    rw [onScreen, Gamut.convert, if_pos rfl]
    rfl
  rw [cssText, cssText, hc, ofValue_value hnumeric halpha]
  show (onScreen g _ >>= _) = (onScreen g c >>= _)
  rw [hsame, hc']

end Color

end DesignTokens
