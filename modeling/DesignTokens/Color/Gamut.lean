import DesignTokens.Color.Space

/-!
# The colours of screens

A screen shows the colours of a cube.  A colour outside of it is moved along a ray towards the grey
of the same lightness until it meets the cube; lightness and hue are then set back to what they
were, and the ray is cast again.
-/

namespace DesignTokens.Color

/-- The cubes of colours that screens show. -/
inductive Gamut where
  /-- The cube of common screens. -/
  | srgb
  /-- The cube of wide screens. -/
  | p3
deriving DecidableEq

namespace Gamut

/-! ## The cubes -/

/-- The space of a cube. -/
def space : Gamut → Space
  | .srgb => .srgb
  | .p3 => .displayP3

/-- The space of a cube in proportion to light. -/
def linearSpace : Gamut → Space
  | .srgb => .srgbLinear
  | .p3 => .displayP3Linear

/-- From tristimulus values to common screens. -/
def srgbInverse : Matrix := srgbMatrix.inverse

/-- From tristimulus values to wide screens. -/
def p3Inverse : Matrix := displayP3Matrix.inverse

/-- From light to tristimulus values. -/
def toXyz (g : Gamut) (light : Triple) : Triple :=
  match g with
  | .srgb => srgbMatrix.apply light
  | .p3 => displayP3Matrix.apply light

/-- From tristimulus values to light. -/
def ofXyz (g : Gamut) (t : Triple) : Triple :=
  match g with
  | .srgb => srgbInverse.apply t
  | .p3 => p3Inverse.apply t

/-- From light to perceived lightness, chroma and hue. -/
def perceive (g : Gamut) (light : Triple) : Triple :=
  toPolar (toOklab (g.toXyz light))

/-- From perceived lightness, chroma and hue to light. -/
def realize (g : Gamut) (perceived : Triple) : Except Fault Triple := do
  return g.ofXyz (← ofOklab (← ofPolar perceived))

/-- Whether a triple is in the cube; what is no number does not lead out of it. -/
def contains (t : Triple) : Bool := t.all fun v => !(v < 0.0 || 1.0 < v)

/-! ## Rays -/

/-- Narrows a part of a ray, given by positions along the ray from its start (zero) to its target
(one), to what lies between two parallel sides of the cube.  A ray beside the sides has no such
part. -/
def narrow (start target : Float) (part : Float × Float) : Option (Float × Float) :=
  let d := target - start
  if d.abs > 0.0 then
    let s := (0.0 - start) / d
    let t := (1.0 - start) / d
    some (larger (smaller s t) part.1, smaller (larger s t) part.2)
  else if start < 0.0 || 1.0 < start then none
  else some part

/-- Where a ray meets the cube: where it enters it, or where it leaves it when it starts inside. -/
def hit? (start target : Triple) : Option Triple := do
  let part ← narrow start.x target.x (-1.0 / 0.0, 1.0 / 0.0)
  let part ← narrow start.y target.y part
  let (near, far) ← narrow start.z target.z part
  if near > far || far < 0.0 then none
  else
    -- a ray that starts inside the cube meets it where it leaves
    let t := if near < 0.0 then far else near
    if t.isInf then none
    else
      let along (s e : Float) : Float := s + (e - s) * t
      some ⟨along start.x target.x, along start.y target.y, along start.z target.z⟩

/-! ## Moving a colour into the cube -/

/-- Whether a triple is in the cube but on none of its sides. -/
def isInner (t : Triple) : Bool := t.all fun v => 0.0 < v && v < 1.0

/-- Casts rays from an anchor inside the cube, at most `rounds` of them; between two rays lightness
and hue are set back to those of the colour.  The answer is the last place where a ray met the
cube. -/
def trace (g : Gamut) (lightness hue : Float) : (rounds : Nat) → (first : Bool) →
    (anchor current : Triple) → Except Fault Triple
  | 0, _, _, current => return current
  | rounds + 1, first, anchor, current => do
    let corrected ←
      if first then pure current
      else
        let p := g.perceive current
        g.realize ⟨lightness, p.y, hue⟩
    match hit? anchor corrected with
    | none => return current
    | some met =>
      -- the next ray starts closer to the colour when that place is inside
      let anchor := if !first && isInner corrected then corrected else anchor
      trace g lightness hue rounds false anchor met

/-- The number between zero and one that is nearest; what is no number becomes one. -/
def clamp (v : Float) : Float := larger 0.0 (smaller 1.0 v)

/-- The channels of a colour of the cube's space, moved into the cube.  Colours as light as white
become white, colours as dark as black become black. -/
def fit (g : Gamut) (t : Triple) : Except Fault Triple := do
  let p := g.perceive (← t.mapM linearOfScreen)
  let anchor ← g.realize ⟨p.x, 0.0, 0.0⟩
  if anchor.toList.any (1.0 ≤ ·) then return ⟨1.0, 1.0, 1.0⟩
  else if anchor.toList.any (· ≤ 0.0) then return ⟨0.0, 0.0, 0.0⟩
  else
    let light ← trace g p.x p.z 4 true anchor (← g.realize p)
    return (light.map clamp).map screenOfLinear

/-! ## Conversion -/

/-- The channels of a colour of some space in the space of a cube.  Spaces built on the cube's own
space have a short way. -/
def channels (g : Gamut) (space : Space) (t : Triple) : Except Fault Triple := do
  match g, space.onScreen? t with
  | .srgb, some rgb => return rgb
  | _, _ =>
    if space = g.space then return t
    else if space = g.linearSpace then return t.map screenOfLinear
    else return (g.ofXyz (← space.toXyz t)).map screenOfLinear

/-- The channels of a colour of the cube's space, inside the cube. -/
def inside (g : Gamut) (t : Triple) : Except Fault Triple :=
  if contains t then .ok t else g.fit t

/-- The channels of a colour in the space of a cube, inside the cube.  A colour that already is of
that space stays as it is. -/
def convert (g : Gamut) (space : Space) (t : Triple) : Except Fault Triple :=
  if space = g.space then .ok t else g.channels space t >>= g.inside

end Gamut

end DesignTokens.Color
