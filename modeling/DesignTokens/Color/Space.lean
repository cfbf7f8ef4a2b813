import DesignTokens.Color.Matrix
import DesignTokens.Fault

/-!
# Colour spaces

Every space has a way to the tristimulus values of the standard observer under daylight (`toXyz`).
Two spaces, those that screens show, also have a way back (`Gamut.ofXyz`).
-/

namespace DesignTokens.Color

/-! ## Arithmetic of channels

Steps between the spaces may not have an answer: powers can be too large, and there are numbers that
cannot be compared. -/

/-- The smaller of two numbers; the first one where they cannot be compared. -/
def smaller (a b : Float) : Float := if b < a then b else a

/-- The larger of two numbers; the first one where they cannot be compared. -/
def larger (a b : Float) : Float := if b > a then b else a

/-- The size of one number with the sign of another. -/
def withSign (v size : Float) : Float := if v < 0.0 then -size else size

/-- The remainder of a division, which has the sign of the divisor. -/
def remainder (v divisor : Float) : Float :=
  v - divisor * (v / divisor).floor

/-- A result that is infinite although the number it comes from is not is too large. -/
def bounded (v result : Float) : Except Fault Float :=
  if result.isInf && v.isFinite then .error .tooLarge else .ok result

def power (v exponent : Float) : Except Fault Float := bounded v (v.pow exponent)

/-- The power of the size of a number, with the sign of the number. -/
def signedPower (v exponent : Float) : Except Fault Float :=
  (power v.abs exponent).map (withSign v)

/-- The exponential of a number. -/
def exponential (v : Float) : Except Fault Float := bounded v v.exp

/-! ## The spaces -/

/-- The colour spaces. -/
inductive Space where
  /-- Tristimulus values under daylight. -/
  | xyzD65
  /-- Tristimulus values under the light of print. -/
  | xyzD50
  /-- The common space of screens. -/
  | srgb
  /-- The common space of screens, in proportion to light. -/
  | srgbLinear
  /-- The space of wide screens. -/
  | displayP3
  /-- The space of wide screens, in proportion to light. -/
  | displayP3Linear
  /-- Perceived lightness with two opponent axes. -/
  | oklab
  /-- Perceived lightness, chroma and hue. -/
  | oklch
  /-- Lightness with two opponent axes under the light of print. -/
  | lab
  /-- Lightness, chroma and hue under the light of print. -/
  | lch
  /-- Lightness with two opponent axes under daylight. -/
  | labD65
  /-- Lightness, chroma and hue under daylight. -/
  | lchD65
  /-- Perceived lightness with two axes for great brightness. -/
  | jzazbz
  /-- Perceived lightness, chroma and hue for great brightness. -/
  | jzczhz
  /-- Intensity with two axes for video of great brightness. -/
  | ictcp
  /-- Hue, saturation and value. -/
  | hsv
  /-- Hue, saturation and lightness. -/
  | hsl
  /-- Hue, whiteness and blackness. -/
  | hwb
  /-- The space of video in ultra high definition. -/
  | rec2020
  /-- The same space in proportion to light. -/
  | rec2020Linear
  /-- Video of great brightness, coded by perception. -/
  | rec2100Pq
  /-- Video of great brightness, coded by camera light. -/
  | rec2100Hlg
  /-- Video of great brightness in proportion to light. -/
  | rec2100Linear
  /-- A wide space of photography. -/
  | a98
  /-- The same space in proportion to light. -/
  | a98Linear
  /-- The widest space of photography. -/
  | prophoto
  /-- The same space in proportion to light. -/
  | prophotoLinear
deriving DecidableEq, Repr

namespace Space

def all : List Space :=
  [.xyzD65, .xyzD50, .srgb, .srgbLinear, .displayP3, .displayP3Linear, .oklab, .oklch, .lab, .lch,
   .labD65, .lchD65, .jzazbz, .jzczhz, .ictcp, .hsv, .hsl, .hwb, .rec2020, .rec2020Linear,
   .rec2100Pq, .rec2100Hlg, .rec2100Linear, .a98, .a98Linear, .prophoto, .prophotoLinear]

def name : Space → String
  | .xyzD65 => "xyz-d65"
  | .xyzD50 => "xyz-d50"
  | .srgb => "srgb"
  | .srgbLinear => "srgb-linear"
  | .displayP3 => "display-p3"
  | .displayP3Linear => "display-p3-linear"
  | .oklab => "oklab"
  | .oklch => "oklch"
  | .lab => "lab"
  | .lch => "lch"
  | .labD65 => "lab-d65"
  | .lchD65 => "lch-d65"
  | .jzazbz => "jzazbz"
  | .jzczhz => "jzczhz"
  | .ictcp => "ictcp"
  | .hsv => "hsv"
  | .hsl => "hsl"
  | .hwb => "hwb"
  | .rec2020 => "rec2020"
  | .rec2020Linear => "rec2020-linear"
  | .rec2100Pq => "rec2100-pq"
  | .rec2100Hlg => "rec2100-hlg"
  | .rec2100Linear => "rec2100-linear"
  | .a98 => "a98-rgb"
  | .a98Linear => "a98-rgb-linear"
  | .prophoto => "prophoto-rgb"
  | .prophotoLinear => "prophoto-rgb-linear"

def ofName? (s : String) : Option Space :=
  all.find? (·.name = s)

/-- Every space is listed. -/
theorem mem_all (s : Space) : s ∈ all := by
  cases s <;> simp [all]

/-- The name of a space is read back as the space. -/
theorem ofName?_name (s : Space) : ofName? s.name = some s := by
  cases s <;> decide +kernel

end Space

/-! ## White points and primaries -/

/-- A place in the chromaticity diagram. -/
structure Chromaticity where
  /-- The first coordinate. -/
  x : Float
  /-- The second coordinate. -/
  y : Float

/-- The tristimulus values of a chromaticity at luminance one. -/
def Chromaticity.xyz (c : Chromaticity) : Triple :=
  ⟨c.x / c.y, 1.0, (1.0 - c.x - c.y) / c.y⟩

/-- Daylight. -/
def d65 : Chromaticity := ⟨0.31270, 0.32900⟩

/-- The light of print. -/
def d50 : Chromaticity := ⟨0.34570, 0.35850⟩

/-- The matrix from linear red, green and blue to tristimulus values: the primaries give its
columns, and white is all three together. -/
def ofPrimaries (red green blue white : Chromaticity) : Matrix :=
  let columns := (Matrix.mk red.xyz green.xyz blue.xyz).transpose
  columns.mul (.diagonal (columns.inverse.apply white.xyz))

/-- The response of the cones that chromatic adaptation works on. -/
def coneResponse : Matrix :=
  .ofRows 0.8951 0.2664 (-0.1614) (-0.7502) 1.7135 0.0367 0.0389 (-0.0685) 1.0296

/-- The matrix of the adaptation from one white to another. -/
def adaptation (source target : Chromaticity) : Matrix :=
  let s := coneResponse.apply source.xyz
  let t := coneResponse.apply target.xyz
  coneResponse.inverse.mul ((Matrix.diagonal ⟨t.x / s.x, t.y / s.y, t.z / s.z⟩).mul coneResponse)

/-- From the light of print to daylight. -/
def toDaylight : Matrix := adaptation d50 d65

/-- From linear light of common screens. -/
def srgbMatrix : Matrix := ofPrimaries ⟨0.64, 0.33⟩ ⟨0.30, 0.60⟩ ⟨0.15, 0.06⟩ d65

/-- From linear light of wide screens. -/
def displayP3Matrix : Matrix := ofPrimaries ⟨0.68, 0.32⟩ ⟨0.265, 0.69⟩ ⟨0.15, 0.06⟩ d65

/-- From linear light of video in ultra high definition. -/
def rec2020Matrix : Matrix := ofPrimaries ⟨0.708, 0.292⟩ ⟨0.170, 0.797⟩ ⟨0.131, 0.046⟩ d65

/-- From linear light of wide photography. -/
def a98Matrix : Matrix := ofPrimaries ⟨0.64, 0.33⟩ ⟨0.21, 0.71⟩ ⟨0.15, 0.06⟩ d65

/-- From linear light of the widest photography, under the light of print. -/
def prophotoMatrix : Matrix :=
  ofPrimaries ⟨0.7347, 0.2653⟩ ⟨0.1596, 0.8404⟩ ⟨0.0366, 0.0001⟩ d50

/-! ## Transfer functions -/

/-- From the code of screens to light. -/
def linearOfScreen (v : Float) : Except Fault Float :=
  if v.abs ≤ 0.04045 then .ok (v / 12.92)
  else (power ((v.abs + 0.055) / 1.055) 2.4).map (withSign v)

/-- From light to the code of screens. -/
def screenOfLinear (v : Float) : Float :=
  if v.abs > 0.0031308 then withSign v (1.055 * v.abs.pow (1.0 / 2.4) - 0.055) else 12.92 * v

/-- From the code of the widest photography to light. -/
def linearOfProphoto (v : Float) : Except Fault Float :=
  if v.abs < 16.0 / 512.0 then .ok (v / 16.0) else signedPower v 1.8

/-- The luminance of white in units of absolute brightness. -/
def whiteLuminance : Float := 203.0

/-- From the perceptual code of brightness, with a given exponent, to absolute brightness. -/
def brightnessOfCode (exponent v : Float) : Except Fault Float := do
  let c1 := 3424.0 / 4096.0
  let c2 := 2413.0 / 128.0
  let c3 := 2392.0 / 128.0
  let root ← signedPower v (1.0 / exponent)
  let size ← signedPower (larger (root - c1) 0.0 / (c2 - c3 * root)) (16384.0 / 2610.0)
  return 10000.0 * size

/-- The exponent of the perceptual code of video. -/
def videoExponent : Float := 2523.0 / 32.0

/-- From the camera code of video to light.  Negative codes stand for light as well. -/
def linearOfCamera (v : Float) : Except Fault Float := do
  let a := 0.17883277
  let b := 1.0 - 4.0 * a
  let c := 0.5 - a * (4.0 * a).log
  let light ←
    if v ≤ 0.5 then (power v 2.0).map (· / 3.0)
    else (exponential ((v - c) / a)).map fun e => (e + b) / 12.0
  return light / 0.26496256042100724

/-! ## Hues -/

/-- An angle in degrees as an angle in radians. -/
def radians (degrees : Float) : Float := degrees * 3.141592653589793 / 180.0

/-- An angle in radians as an angle in degrees, at least zero and below a full turn. -/
def degrees (radians : Float) : Float :=
  let d := radians * 180.0 / 3.141592653589793
  if d < 0.0 then d + 360.0 else d

/-- From chroma and hue to two axes.  No direction belongs to an infinite hue. -/
def ofPolar (t : Triple) : Except Fault Triple :=
  let hue := radians t.z
  if hue.isInf then .error .unreadable else .ok ⟨t.x, t.y * hue.cos, t.y * hue.sin⟩

/-- From two axes to chroma and hue. -/
def toPolar (t : Triple) : Triple :=
  ⟨t.x, (t.y * t.y + t.z * t.z).sqrt, degrees (t.z.atan2 t.y)⟩

/-- From hue, saturation and lightness to the common space of screens. -/
def ofHsl (t : Triple) : Triple :=
  let hue := remainder t.x 360.0
  let amount := t.y * smaller t.z (1.0 - t.z)
  let channel (n : Float) : Float :=
    let k := remainder (n + hue / 30.0) 12.0
    t.z - amount * larger (-1.0) (smaller (smaller (k - 3.0) (9.0 - k)) 1.0)
  ⟨channel 0.0, channel 8.0, channel 4.0⟩

/-- From hue, saturation and value to the common space of screens. -/
def ofHsv (t : Triple) : Triple :=
  let channel (n : Float) : Float :=
    let k := remainder (n + t.x / 60.0) 6.0
    t.z - t.z * t.y * larger 0.0 (smaller (smaller k (4.0 - k)) 1.0)
  ⟨channel 5.0, channel 3.0, channel 1.0⟩

/-- From hue, whiteness and blackness to hue, saturation and value. -/
def hsvOfHwb (t : Triple) : Triple :=
  let sum := t.y + t.z
  if sum ≥ 1.0 then ⟨t.x, 0.0, t.y / sum⟩
  else
    let value := 1.0 - t.z
    ⟨t.x, if value == 0.0 then 0.0 else 1.0 - t.y / value, value⟩

/-! ## Spaces of perception -/

/-- From tristimulus values to the cones of the perceptual space. -/
def okCones : Matrix :=
  .ofRows 0.8190224379967030 0.3619062600528904 (-0.1288737815209879)
    0.0329836539323885 0.9292868615863434 0.0361446663506424
    0.0481771893596242 0.2642395317527308 0.6335478284694309

/-- From the roots of the cones to lightness and two axes. -/
def okAxes : Matrix :=
  .ofRows 0.2104542683093140 0.7936177747023054 (-0.0040720430116193)
    1.9779985324311684 (-2.4285922420485799) 0.4505937096174110
    0.0259040424655478 0.7827717124575296 (-0.8086757549230774)

def okConesInverse : Matrix := okCones.inverse

def okAxesInverse : Matrix := okAxes.inverse

/-- From perceived lightness and two axes to tristimulus values. -/
def ofOklab (t : Triple) : Except Fault Triple :=
  ((okAxesInverse.apply t).mapM (power · 3.0)).map okConesInverse.apply

/-- From tristimulus values to perceived lightness and two axes. -/
def toOklab (t : Triple) : Triple :=
  okAxes.apply ((okCones.apply t).map fun v => withSign v (v.abs.pow (1.0 / 3.0)))

/-- From lightness and two axes to tristimulus values under a white. -/
def ofLab (white : Chromaticity) (t : Triple) : Except Fault Triple := do
  let kappa := 24389.0 / 27.0
  let fy := (t.x + 16.0) / 116.0
  -- close to black the roots give way to straight lines
  let inverse (f : Float) : Except Fault Float :=
    if f > 6.0 / 29.0 then power f 3.0 else .ok ((116.0 * f - 16.0) / kappa)
  let w := white.xyz
  let x ← inverse (fy + t.y / 500.0)
  let y ← if t.x > 8.0 then power fy 3.0 else .ok (t.x / kappa)
  let z ← inverse (fy - t.z / 200.0)
  return ⟨x * w.x, y * w.y, z * w.z⟩

/-- From lightness and two axes for great brightness to tristimulus values. -/
def ofJzazbz (t : Triple) : Except Fault Triple := do
  let d := -0.56
  let lightness := t.x + 1.6295499532821566e-11
  let intensity := lightness / (1.0 + d - d * lightness)
  let cones := (Matrix.ofRows 0.5 0.5 0.0 3.524000 (-4.066708) 0.542708
    0.199076 1.096799 (-1.295875)).inverse.apply ⟨intensity, t.y, t.z⟩
  let light ← cones.mapM (brightnessOfCode (1.7 * videoExponent))
  let m := (Matrix.ofRows 0.41478972 0.579999 0.0146480 (-0.2015100) 1.120649 0.0531008
    (-0.0166008) 0.264800 0.6684799).inverse.apply light
  let x := (m.x + (1.15 - 1.0) * m.z) / 1.15
  let y := (m.y + (0.66 - 1.0) * x) / 0.66
  return (Triple.mk x y m.z).scale (1.0 / whiteLuminance)

/-- From intensity and two axes to tristimulus values. -/
def ofIctcp (t : Triple) : Except Fault Triple := do
  let axes := (Matrix.ofRows 2048.0 2048.0 0.0 6610.0 (-13613.0) 7003.0
    17933.0 (-17390.0) (-543.0))
  let cones := axes.inverse.apply (t.scale 4096.0)
  let light ← cones.mapM (brightnessOfCode videoExponent)
  let rgb := (Matrix.ofRows 1688.0 2146.0 262.0 683.0 2951.0 462.0
    99.0 309.0 3688.0).inverse.apply (light.scale 4096.0)
  return rec2020Matrix.apply (rgb.scale (1.0 / whiteLuminance))

/-! ## To tristimulus values -/

/-- The channels of a space that is built on the common space of screens, in that space. -/
def Space.onScreen? (space : Space) (t : Triple) : Option Triple :=
  match space with
  | .hsl => some (ofHsl t)
  | .hsv => some (ofHsv t)
  | .hwb => some (ofHsv (hsvOfHwb t))
  | _ => none

/-- From the code of common screens to tristimulus values. -/
def ofScreen (t : Triple) : Except Fault Triple :=
  (t.mapM linearOfScreen).map srgbMatrix.apply

/-- From the channels of a space to tristimulus values under daylight. -/
def Space.toXyz (space : Space) (t : Triple) : Except Fault Triple := do
  match space with
  | .xyzD65 => return t
  | .xyzD50 => return toDaylight.apply t
  | .srgb => ofScreen t
  | .srgbLinear => return srgbMatrix.apply t
  | .displayP3 => return displayP3Matrix.apply (← t.mapM linearOfScreen)
  | .displayP3Linear => return displayP3Matrix.apply t
  | .oklab => ofOklab t
  | .oklch => ofOklab (← ofPolar t)
  | .lab => return toDaylight.apply (← ofLab d50 t)
  | .lch => return toDaylight.apply (← ofLab d50 (← ofPolar t))
  | .labD65 => ofLab d65 t
  | .lchD65 => ofLab d65 (← ofPolar t)
  | .jzazbz => ofJzazbz t
  | .jzczhz => ofJzazbz (← ofPolar t)
  | .ictcp => ofIctcp t
  | .hsv => ofScreen (ofHsv t)
  | .hsl => ofScreen (ofHsl t)
  | .hwb => ofScreen (ofHsv (hsvOfHwb t))
  | .rec2020 => return rec2020Matrix.apply (← t.mapM (signedPower · 2.4))
  | .rec2020Linear => return rec2020Matrix.apply t
  | .rec2100Pq =>
    let light ← t.mapM (brightnessOfCode videoExponent)
    return rec2020Matrix.apply (light.scale (1.0 / whiteLuminance))
  | .rec2100Hlg => return rec2020Matrix.apply (← t.mapM linearOfCamera)
  | .rec2100Linear => return rec2020Matrix.apply t
  | .a98 => return a98Matrix.apply (← t.mapM (signedPower · (563.0 / 256.0)))
  | .a98Linear => return a98Matrix.apply t
  | .prophoto => return toDaylight.apply (prophotoMatrix.apply (← t.mapM linearOfProphoto))
  | .prophotoLinear => return toDaylight.apply (prophotoMatrix.apply t)

end DesignTokens.Color
