import DesignTokens.Proofs.Members
import DesignTokens.Proofs.Reference
import DesignTokens.Proofs.Tree.OfData
import DesignTokens.Proofs.Value.Writing
import DesignTokens.Value.Grammar

/-!
# Normal forms of values

Which templates the grammar of each type can give: `Literal` says what a value that is no reference
as a whole is made of, and `Normal` adds the reference.  Every template that is read is normal
(`normal_of_value`).
-/

namespace DesignTokens.Grammar

open Outcome

/-! ## Texts and references -/

/-- A text that does not open like a reference. -/
def Closed (s : String) : Prop := Reference.isOpenedBy s = false

/-- A hole for tokens of given types. -/
inductive IsHole (accepted : Option (List TokenType)) (spliced : Bool) : Template → Prop where
  /-- A hole with a reference that can be written. -/
  | intro (r : Reference) (span : Span) : r.WellFormed →
      IsHole accepted spliced (.hole ⟨r, span, accepted, spliced⟩)

/-- A hole, or else what a predicate says. -/
def OrHole (accepted : Option (List TokenType)) (P : Template → Prop) (t : Template) : Prop :=
  IsHole accepted false t ∨ P t

/-! ## Simple values -/

/-- The text of a length. -/
structure IsLength (s : String) : Prop where
  closed : Closed s
  filled : s ≠ ""
  unit : ∃ unit, Magnitude.unit? s.toList = some unit ∧ unit ≠ [] ∧ Magnitude.isUnit unit = true

/-- The text of a time. -/
structure IsTime (s : String) : Prop where
  closed : Closed s
  filled : s ≠ ""
  unit : ∃ unit, Magnitude.unit? s.toList = some unit ∧ unit ≠ [] ∧
    Magnitude.timeUnits.contains (String.ofList unit) = true

/-- A truth value. -/
def IsBoolean (t : Template) : Prop := ∃ b, t = .scalar (.bool b)

def IsNumber (t : Template) : Prop := ∃ n : Scalar, t = .scalar n ∧ n.isNumber = true

def IsString (t : Template) : Prop := ∃ s, t = .text s ∧ Closed s

/-- An address. -/
def IsLink (t : Template) : Prop := ∃ s, t = .text s ∧ Closed s ∧ s ≠ ""

/-- Zero, or a length. -/
def IsDimension (t : Template) : Prop := t = .int 0 ∨ ∃ s, t = .text s ∧ IsLength s

/-- Zero, or a time. -/
def IsDuration (t : Template) : Prop := t = .int 0 ∨ ∃ s, t = .text s ∧ IsTime s

/-- An integer up to the greatest weight. -/
def IsWeight (t : Template) : Prop := ∃ i : Int, t = .int i ∧ 0 ≤ i ∧ i ≤ maxWeight

/-- The object of a colour that exists. -/
def IsColor (t : Template) : Prop :=
  ∃ space channels alpha, t = .object [(Color.spaceField, .text space),
      (Color.channelsField, ofScalars channels), (Color.alphaField, .scalar alpha)] ∧
    (∀ n ∈ channels, n.isNumber = true) ∧ alpha.isNumber = true ∧
    ∃ c, Color.ofParts space channels alpha = .ok c

/-! ## Lists -/

/-- A font family inside a list. -/
def IsFamily (t : Template) : Prop :=
  IsHole (some [.fontFamily]) true t ∨ ∃ s, t = .text s ∧ Closed s ∧ s ≠ ""

/-- A list of font families. -/
def IsFamilies (t : Template) : Prop :=
  ∃ items, t = .list items ∧ items ≠ [] ∧ ∀ i ∈ items, IsFamily i

/-- A curve of four points. -/
def IsCurve (t : Template) : Prop :=
  ∃ items, t = .list items ∧ items.length = 4 ∧ ∀ i ∈ items, OrHole (some [.number]) IsNumber i

/-- A dash of a line, which is never a bare zero. -/
def IsDash (t : Template) : Prop :=
  OrHole (some [.dimension]) (fun t => ∃ s, t = .text s ∧ IsLength s) t

/-- The name of a style of lines, or dashes with the ends of the line. -/
def IsStroke (t : Template) : Prop :=
  (∃ s, t = .text s ∧ s ∈ strokeStyles) ∨
    ∃ cap dashes, t = .object [("lineCap", .text cap), ("dashArray", .list dashes)] ∧
      cap ∈ lineCaps ∧ ∀ d ∈ dashes, IsDash d

/-! ## Objects -/

/-- A line around a box. -/
def IsBorder (t : Template) : Prop :=
  ∃ c w s, t = .object [("color", c), ("width", w), ("style", s)] ∧
    OrHole (some [.color]) IsColor c ∧ OrHole (some [.dimension]) IsDimension w ∧
    OrHole (some [.strokeStyle]) IsStroke s

/-- A stop of a gradient. -/
def IsStop (t : Template) : Prop :=
  ∃ c p, t = .object [("color", c), ("position", p)] ∧ OrHole (some [.color]) IsColor c ∧
    OrHole (some [.number]) IsNumber p

def IsGradient (t : Template) : Prop := ∃ stops, t = .list stops ∧ ∀ s ∈ stops, IsStop s

/-- A layer of a shadow. -/
def IsLayer (t : Template) : Prop :=
  ∃ c x y b spread inset,
    t = .object ([("color", c), ("offsetX", x), ("offsetY", y), ("blur", b)] ++
      (Members.optional "spread" spread ++ Members.optional "inset" inset)) ∧
    OrHole (some [.color]) IsColor c ∧ OrHole (some [.dimension]) IsDimension x ∧
    OrHole (some [.dimension]) IsDimension y ∧ OrHole (some [.dimension]) IsDimension b ∧
    (∀ s, spread = some s → OrHole (some [.dimension]) IsDimension s) ∧
    ∀ i, inset = some i → OrHole (some [.boolean]) IsBoolean i

def IsShadow (t : Template) : Prop := ∃ layers, t = .list layers ∧ ∀ l ∈ layers, IsLayer l

/-- A movement in time. -/
def IsTransition (t : Template) : Prop :=
  ∃ d e c, t = .object [("duration", d), ("delay", e), ("timingFunction", c)] ∧
    OrHole (some [.duration]) IsDuration d ∧ OrHole (some [.duration]) IsDuration e ∧
    OrHole (some [.cubicBezier]) IsCurve c

/-- A property of a font that is no reference. -/
def IsProperty (name : String) (t : Template) : Prop :=
  match name with
  | "fontFamily" => IsFamilies t
  | "fontSize" => IsDimension t
  | "fontWeight" => IsWeight t
  | "letterSpacing" => IsDimension t
  | "lineHeight" => IsNumber t ∨ IsDimension t
  | _ => IsString t ∨ IsNumber t

/-- Properties of a font in short form, or single ones with distinct names. -/
def IsTypography (t : Template) : Prop :=
  (∃ s, t = .text s ∧ Closed s ∧ s ≠ "") ∨
    ∃ members, t = .object members ∧ (Members.names members).Nodup ∧
      ∀ m ∈ members, OrHole (Members.get? m.1 typographyTypes) (IsProperty m.1) m.2

/-! ## All types -/

/-- A value of a type that is no reference as a whole. -/
def Literal : TokenType → Template → Prop
  | .boolean => IsBoolean
  | .border => IsBorder
  | .color => IsColor
  | .cubicBezier => IsCurve
  | .dimension => IsDimension
  | .duration => IsDuration
  | .fontFamily => IsFamilies
  | .fontWeight => IsWeight
  | .gradient => IsGradient
  | .link => IsLink
  | .number => IsNumber
  | .shadow => IsShadow
  | .string => IsString
  | .strokeStyle => IsStroke
  | .transition => IsTransition
  | .typography => IsTypography

/-- A value of a type. -/
def Normal (type : TokenType) : Template → Prop := OrHole (some [type]) (Literal type)

/-! ## Reading references -/

/-- The hole that is found holds the reference that the text of the node spells. -/
theorem hole?_eq_some {accepted : Option (List TokenType)} {spliced : Bool} {node : Tree}
    {h : Hole} (hh : hole? accepted spliced node = .ok (some h)) :
    ∃ s r, node.text? = some s ∧ Reference.parse? s = some r ∧
      h = ⟨r, node.span, accepted, spliced⟩ := by
  unfold hole? at hh
  split at hh
  · simp at hh
  · rename_i s hs
    split at hh
    · simp at hh
    · split at hh
      · rename_i r hr
        simp only [Except.ok.injEq, Option.some.injEq] at hh
        exact ⟨s, r, hs, hr, hh.symm⟩
      · simp [fail] at hh

/-- A hole that is found is a hole. -/
theorem isHole_of_hole? {accepted : Option (List TokenType)} {spliced : Bool} {node : Tree}
    {h : Hole} (hh : hole? accepted spliced node = .ok (some h)) :
    IsHole accepted spliced (.hole h) := by
  obtain ⟨s, r, -, hr, rfl⟩ := hole?_eq_some hh
  exact .intro r _ (Reference.wellFormed_of_parse? hr)

/-- Where no hole is found a text does not open like one. -/
theorem closed_of_hole? {accepted : Option (List TokenType)} {spliced : Bool} {node : Tree}
    (hh : hole? accepted spliced node = .ok none) {s : String} (hs : node.text? = some s) :
    Closed s := by
  unfold hole? at hh
  rw [hs] at hh
  dsimp only at hh
  split at hh
  · rename_i hopen
    simpa [Closed] using hopen
  · split at hh <;> simp [fail] at hh

/-- Reading a reference or a value gives a hole or what the value is. -/
theorem orHole_spec {type : TokenType} {read : Reader} {P : Template → Prop} {node : Tree}
    {t : Template} (h : orHole type read node = .ok t)
    (hread : (∀ s, node.text? = some s → Closed s) → read node = .ok t → P t) :
    OrHole (some [type]) P t := by
  simp only [orHole, bind_eq_ok] at h
  obtain ⟨found, hfound, h⟩ := h
  cases found with
  | some hole =>
    simp only [pure_eq_ok] at h
    exact .inl (h ▸ isHole_of_hole? hfound)
  | none => exact .inr (hread (fun s hs => closed_of_hole? hfound hs) h)

end DesignTokens.Grammar
