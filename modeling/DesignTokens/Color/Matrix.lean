/-!
# Triples and matrices

Colours are triples of numbers, and most steps between colour spaces are matrices.
-/

namespace DesignTokens.Color

/-- Three numbers. -/
structure Triple where
  /-- The first number. -/
  x : Float
  /-- The second number. -/
  y : Float
  /-- The third number. -/
  z : Float

namespace Triple

/-- Applies a function to each number. -/
def map (f : Float → Float) (t : Triple) : Triple := ⟨f t.x, f t.y, f t.z⟩

/-- Applies a function that may fail to each number. -/
def mapM {ε : Type} (f : Float → Except ε Float) (t : Triple) : Except ε Triple := do
  return ⟨← f t.x, ← f t.y, ← f t.z⟩

/-- The three numbers in order. -/
def toList (t : Triple) : List Float := [t.x, t.y, t.z]

/-- The triple times a number. -/
def scale (k : Float) (t : Triple) : Triple := t.map (· * k)

/-- Whether all numbers satisfy `p`. -/
def all (p : Float → Bool) (t : Triple) : Bool := p t.x && p t.y && p t.z

end Triple

/-- A matrix of three rows. -/
structure Matrix where
  /-- The first row. -/
  first : Triple
  /-- The second row. -/
  second : Triple
  /-- The third row. -/
  third : Triple

namespace Matrix

/-- The matrix of nine numbers, row by row. -/
def ofRows (a b c d e f g h i : Float) : Matrix := ⟨⟨a, b, c⟩, ⟨d, e, f⟩, ⟨g, h, i⟩⟩

/-- The inner product of two triples. -/
def dot (s t : Triple) : Float := s.x * t.x + s.y * t.y + s.z * t.z

/-- The image of a triple. -/
def apply (m : Matrix) (t : Triple) : Triple := ⟨dot m.first t, dot m.second t, dot m.third t⟩

/-- The matrix with rows and columns exchanged. -/
def transpose (m : Matrix) : Matrix :=
  ⟨⟨m.first.x, m.second.x, m.third.x⟩, ⟨m.first.y, m.second.y, m.third.y⟩,
   ⟨m.first.z, m.second.z, m.third.z⟩⟩

/-- The product of two matrices. -/
def mul (m n : Matrix) : Matrix :=
  let t := n.transpose
  let row (r : Triple) : Triple := t.apply r
  ⟨row m.first, row m.second, row m.third⟩

/-- The matrix with three numbers on its diagonal. -/
def diagonal (t : Triple) : Matrix := ofRows t.x 0.0 0.0 0.0 t.y 0.0 0.0 0.0 t.z

/-- The inverse of a matrix, by its minors. -/
def inverse (m : Matrix) : Matrix :=
  let ⟨⟨a, b, c⟩, ⟨d, e, f⟩, ⟨g, h, i⟩⟩ := m
  let det := a * (e * i - f * h) - b * (d * i - f * g) + c * (d * h - e * g)
  ofRows
    ((e * i - f * h) / det) ((c * h - b * i) / det) ((b * f - c * e) / det)
    ((f * g - d * i) / det) ((a * i - c * g) / det) ((c * d - a * f) / det)
    ((d * h - e * g) / det) ((b * g - a * h) / det) ((a * e - b * d) / det)

end Matrix

end DesignTokens.Color
