import DesignTokens.Proofs.Value.Normal
import DesignTokens.Proofs.Value.Parts

/-!
# Where values can be spliced

Only a list of font families has items that are spliced.  So a value is steady unless it is such a
list, or has one as a property of a font.
-/

namespace DesignTokens.Grammar

open Template (Steady)

theorem steady_of_orHole {accepted : Option (List TokenType)} {P : Template → Prop}
    {t : Template} (h : OrHole accepted P t) (hP : P t → t.Steady) : t.Steady := by
  rcases h with hhole | hvalue
  · cases hhole
    exact .hole _
  · exact hP hvalue

/-- A hole for a whole value is not spliced. -/
theorem spliced_of_orHole {accepted : Option (List TokenType)} {P : Template → Prop} {h : Hole}
    (ht : OrHole accepted P (.hole h)) (hP : ¬ P (.hole h)) : h.spliced = false := by
  rcases ht with hhole | hvalue
  · cases hhole
    rfl
  · exact absurd hvalue hP

/-! ## Simple values -/

theorem scalar_of_isDimension {t : Template} (h : IsDimension t) : ∃ s, t = .scalar s := by
  rcases h with rfl | ⟨s, rfl, -⟩
  · exact ⟨_, rfl⟩
  · exact ⟨_, rfl⟩

theorem scalar_of_isDuration {t : Template} (h : IsDuration t) : ∃ s, t = .scalar s := by
  rcases h with rfl | ⟨s, rfl, -⟩
  · exact ⟨_, rfl⟩
  · exact ⟨_, rfl⟩

theorem scalar_of_isNumber {t : Template} (h : IsNumber t) : ∃ s, t = .scalar s := by
  obtain ⟨n, rfl, -⟩ := h
  exact ⟨n, rfl⟩

theorem scalar_of_isBoolean {t : Template} (h : IsBoolean t) : ∃ s, t = .scalar s := by
  obtain ⟨b, rfl⟩ := h
  exact ⟨_, rfl⟩

/-- A property of a font that is no list of families is a scalar. -/
theorem scalar_of_isProperty {name : String} {t : Template} (hname : name ≠ "fontFamily")
    (h : IsProperty name t) : ∃ s, t = .scalar s := by
  unfold IsProperty at h
  split at h
  · exact absurd rfl hname
  · exact scalar_of_isDimension h
  · obtain ⟨i, rfl, -⟩ := h
    exact ⟨_, rfl⟩
  · exact scalar_of_isDimension h
  · exact h.elim scalar_of_isNumber scalar_of_isDimension
  · refine h.elim ?_ scalar_of_isNumber
    rintro ⟨s, rfl, -⟩
    exact ⟨_, rfl⟩

theorem steady_of_scalar {t : Template} (h : ∃ s, t = .scalar s) : t.Steady := by
  obtain ⟨s, rfl⟩ := h
  exact .scalar s

theorem steady_of_scalarOrHole {accepted : Option (List TokenType)} {P : Template → Prop}
    {t : Template} (h : OrHole accepted P t) (hP : P t → ∃ s, t = .scalar s) : t.Steady :=
  steady_of_orHole h fun hvalue => steady_of_scalar (hP hvalue)

/-! ## Lists and objects -/

theorem solid_of_isColor {t : Template} (h : IsColor t) : t.Solid := by
  obtain ⟨space, channels, alpha, rfl, -⟩ := h
  simp [ofScalars]

theorem steady_of_isColor {t : Template} (h : IsColor t) : t.Steady := by
  obtain ⟨space, channels, alpha, rfl, -⟩ := h
  refine .object _ ?_ ?_
  · simp [Members.names, Color.spaceField, Color.channelsField, Color.alphaField]
  simp only [List.forall_mem_cons, List.not_mem_nil, false_imp_iff, implies_true, and_true]
  refine ⟨.scalar _, .list _ (by simp) ?_, .scalar _⟩
  intro t ht
  obtain ⟨n, -, rfl⟩ := List.mem_map.mp ht
  exact .scalar n

/-- Items that are references or scalars are not spliced. -/
theorem unspliced_of_orHole {accepted : Option (List TokenType)} {P : Template → Prop}
    {items : List Template} (h : ∀ t ∈ items, OrHole accepted P t)
    (hP : ∀ t, P t → ∃ s, t = .scalar s) : ∀ g, .hole g ∈ items → g.spliced = false := by
  refine fun g hg => spliced_of_orHole (h _ hg) fun hvalue => ?_
  obtain ⟨s, hs⟩ := hP _ hvalue
  cases hs

/-- A list whose items are references or scalars is steady. -/
theorem steady_list {accepted : Option (List TokenType)} {P : Template → Prop}
    {items : List Template} (h : ∀ t ∈ items, OrHole accepted P t)
    (hP : ∀ t, P t → ∃ s, t = .scalar s) : (Template.list items).Steady := by
  refine .list items (unspliced_of_orHole h hP) fun t ht => ?_
  exact steady_of_scalarOrHole (h t ht) (hP t)

theorem steady_of_isCurve {t : Template} (h : IsCurve t) : t.Steady := by
  obtain ⟨items, rfl, -, hall⟩ := h
  exact steady_list hall fun _ => scalar_of_isNumber

theorem steady_of_isStroke {t : Template} (h : IsStroke t) : t.Steady := by
  rcases h with ⟨s, rfl, -⟩ | ⟨cap, dashes, rfl, -, hall⟩
  · exact .scalar _
  · refine .object _ (by simp [Members.names]) ?_
    simp only [List.forall_mem_cons, List.not_mem_nil, false_imp_iff, implies_true, and_true]
    refine ⟨.scalar _, steady_list hall ?_⟩
    rintro t ⟨s, rfl, -⟩
    exact ⟨_, rfl⟩

theorem steady_of_isBorder {t : Template} (h : IsBorder t) : t.Steady := by
  obtain ⟨c, w, s, rfl, hc, hw, hs⟩ := h
  refine .object _ (by simp [Members.names]) ?_
  simp only [List.forall_mem_cons, List.not_mem_nil, false_imp_iff, implies_true, and_true]
  exact ⟨steady_of_orHole hc steady_of_isColor,
    steady_of_scalarOrHole hw scalar_of_isDimension,
    steady_of_orHole hs steady_of_isStroke⟩

theorem steady_of_isStop {t : Template} (h : IsStop t) : t.Steady := by
  obtain ⟨c, p, rfl, hc, hp⟩ := h
  refine .object _ (by simp [Members.names]) ?_
  simp only [List.forall_mem_cons, List.not_mem_nil, false_imp_iff, implies_true, and_true]
  exact ⟨steady_of_orHole hc steady_of_isColor,
    steady_of_scalarOrHole hp scalar_of_isNumber⟩

theorem steady_list_of_objects {P : Template → Prop} {items : List Template}
    (h : ∀ t ∈ items, P t) (hP : ∀ t, P t → t.Steady) (hhole : ∀ g, ¬ P (.hole g)) :
    (Template.list items).Steady :=
  .list items (fun g hg => absurd (h _ hg) (hhole g)) fun t ht => hP t (h t ht)

theorem not_isStop_hole (g : Hole) : ¬ IsStop (.hole g) := by
  rintro ⟨c, p, hne, -⟩
  cases hne

theorem steady_of_isGradient {t : Template} (h : IsGradient t) : t.Steady := by
  obtain ⟨stops, rfl, hall⟩ := h
  exact steady_list_of_objects hall (fun _ => steady_of_isStop) not_isStop_hole

theorem names_optional (name : String) (t : Option Template) :
    (Members.optional name t).map Prod.fst = if t.isSome then [name] else [] := by
  cases t <;> rfl

theorem steady_of_isLayer {t : Template} (h : IsLayer t) : t.Steady := by
  obtain ⟨c, x, y, b, spread, inset, rfl, hc, hx, hy, hb, hspread, hinset⟩ := h
  have hlength : ∀ {v : Template}, OrHole (some [.dimension]) IsDimension v → v.Steady :=
    fun hv => steady_of_scalarOrHole hv scalar_of_isDimension
  refine .object _ ?_ ?_
  · -- the parts that need not be there have names of their own
    rw [Members.names, List.map_append, List.map_append, names_optional, names_optional]
    cases spread <;> cases inset <;> simp
  · simp only [List.forall_mem_append, List.forall_mem_cons, List.not_mem_nil, false_imp_iff,
      implies_true, and_true]
    refine ⟨⟨steady_of_orHole hc steady_of_isColor, hlength hx, hlength hy, hlength hb⟩, ?_, ?_⟩
    · intro m hm
      obtain ⟨s, hs, rfl⟩ : ∃ s, spread = some s ∧ ("spread", s) = m := by
        simpa [Members.optional] using hm
      exact hlength (hspread s hs)
    · intro m hm
      obtain ⟨i, hi, rfl⟩ : ∃ i, inset = some i ∧ ("inset", i) = m := by
        simpa [Members.optional] using hm
      exact steady_of_scalarOrHole (hinset i hi) scalar_of_isBoolean

theorem not_isLayer_hole (g : Hole) : ¬ IsLayer (.hole g) := by
  rintro ⟨c, x, y, b, spread, inset, hne, -⟩
  cases hne

theorem steady_of_isShadow {t : Template} (h : IsShadow t) : t.Steady := by
  obtain ⟨layers, rfl, hall⟩ := h
  exact steady_list_of_objects hall (fun _ => steady_of_isLayer) not_isLayer_hole

theorem steady_of_isTransition {t : Template} (h : IsTransition t) : t.Steady := by
  obtain ⟨d, e, c, rfl, hd, he, hc⟩ := h
  refine .object _ (by simp [Members.names]) ?_
  simp only [List.forall_mem_cons, List.not_mem_nil, false_imp_iff, implies_true, and_true]
  exact ⟨steady_of_scalarOrHole hd scalar_of_isDuration,
    steady_of_scalarOrHole he scalar_of_isDuration,
    steady_of_orHole hc steady_of_isCurve⟩

/-! ## All types -/

/-- Values of types without font families are steady. -/
theorem steady_of_literal {type : TokenType} {t : Template} (hfamilies : type ≠ .fontFamily)
    (htypography : type ≠ .typography) (h : Literal type t) : t.Steady := by
  cases type with
  | boolean => exact steady_of_scalar (scalar_of_isBoolean h)
  | border => exact steady_of_isBorder h
  | color => exact steady_of_isColor h
  | cubicBezier => exact steady_of_isCurve h
  | dimension => exact steady_of_scalar (scalar_of_isDimension h)
  | duration => exact steady_of_scalar (scalar_of_isDuration h)
  | fontFamily => exact absurd rfl hfamilies
  | fontWeight =>
    obtain ⟨i, rfl, -⟩ := h
    exact .scalar _
  | gradient => exact steady_of_isGradient h
  | link =>
    obtain ⟨s, rfl, -⟩ := h
    exact .scalar _
  | number => exact steady_of_scalar (scalar_of_isNumber h)
  | shadow => exact steady_of_isShadow h
  | string =>
    obtain ⟨s, rfl, -⟩ := h
    exact .scalar _
  | strokeStyle => exact steady_of_isStroke h
  | transition => exact steady_of_isTransition h
  | typography => exact absurd rfl htypography

theorem not_literal_hole {type : TokenType} {h : Hole} : ¬ Literal type (.hole h) := by
  intro hliteral
  cases type <;>
    simp [Literal, IsBoolean, IsBorder, IsColor, IsCurve, IsDimension, IsDuration, IsFamilies,
      IsWeight, IsGradient, IsLink, IsNumber, IsShadow, IsString, IsStroke, IsTransition,
      IsTypography] at hliteral

/-- Every property of a font is steady but its list of families. -/
theorem steady_of_property {name : String} {t : Template}
    (h : OrHole (Members.get? name typographyTypes) (IsProperty name) t) :
    t.Steady ∨ (name = "fontFamily" ∧ IsFamilies t) := by
  rcases h with hhole | hproperty
  · cases hhole
    exact .inl (.hole _)
  · by_cases hname : name = "fontFamily"
    · subst hname
      exact .inr ⟨rfl, hproperty⟩
    · exact .inl (steady_of_scalar (scalar_of_isProperty hname hproperty))

end DesignTokens.Grammar
