import DesignTokens.Proofs.Draft.Rearranged
import DesignTokens.Proofs.Value.Reading
import DesignTokens.Proofs.Value.Rearranged

/-!
# Values in another order

Reading a value takes the members that it needs by name, so that it does not matter in which order
they stand.  Only the properties of a font are read as they come, and they are the same properties
in another order (`value_rearranged`).
-/

namespace DesignTokens.Grammar

open Outcome

/-- A reader that reads the same in every order of members, and fails in the same way. -/
def Unordered {α : Type} (read : Tree → Except Failure α) : Prop :=
  ∀ t u, t.Rearranged u → read t = read u

section

variable {t u : Tree}

/-! ## Parts -/

theorem unordered_text : Unordered text := by
  intro t u h
  simp only [text, h.text?_eq, failKind_rearranged h]

theorem unordered_filledText (what : EmptyText) : Unordered (filledText what) := by
  intro t u h
  simp only [filledText, unordered_text t u h, fail_rearranged h]

theorem unordered_orHole (type : TokenType) {read : Reader} (hread : Unordered read) :
    Unordered (orHole type read) := by
  intro t u h
  simp only [orHole, hole?_rearranged h, hread t u h]

theorem unordered_requireObject : Unordered requireObject := by
  intro t u h
  simp only [requireObject, h.isMapping_eq, failKind_rearranged h]

theorem require_rearranged (h : t.Rearranged u) (names : List String) :
    require t names = require u names := by
  induction names with
  | nil => rfl
  | cons name rest ih => rw [require, require, h.has_eq, ih, fail_rearranged h]

/-- Going on from a part does not depend on the order, when it does not for the part itself. -/
theorem part_bind_rearranged {α : Type} {f g : Tree → Except Failure α} (h : t.Rearranged u)
    (name : String) (hfg : ∀ v w, v.Rearranged w → f v = g w) :
    part t name >>= f = part u name >>= g := by
  unfold part
  obtain ⟨ht, hu⟩ | ⟨v, w, ht, hu, hvw⟩ := rel_iff.mp (h.get? name) <;> rw [ht, hu]
  · rfl
  · exact hfg v w hvw

theorem readPart_rearranged (h : t.Rearranged u) (name : String) {read : Reader}
    (hread : Unordered read) : readPart t name read = readPart u name read :=
  part_bind_rearranged h name fun v w hvw => by rw [hread v w hvw]

/-! ## Simple values -/

theorem unordered_boolean : Unordered boolean := by
  intro t u h
  simp only [boolean, h.bool?_eq, failKind_rearranged h]

theorem unordered_number : Unordered number := by
  intro t u h
  simp only [number, h.number?_eq, failKind_rearranged h]

theorem unordered_string : Unordered string := by
  intro t u h
  rw [string, string, unordered_text t u h]

theorem unordered_link : Unordered link := by
  intro t u h
  rw [link, link, unordered_filledText _ t u h]

theorem isZero_rearranged (h : t.Rearranged u) : isZero t = isZero u := by
  rw [isZero, isZero, h.number?_eq]

theorem unordered_measured (what : EmptyText) (noUnit : Problem) (invalid : String → Problem)
    (isUnit : List Char → Bool) : Unordered (measured what noUnit invalid isUnit) := by
  intro t u h
  simp only [measured, isZero_rearranged h, unordered_filledText _ t u h, fail_rearranged h]

theorem unordered_dimension : Unordered dimension := dimension_eq ▸ unordered_measured _ _ _ _

theorem unordered_duration : Unordered duration := duration_eq ▸ unordered_measured _ _ _ _

theorem unordered_fontWeight : Unordered fontWeight := by
  intro t u h
  simp only [fontWeight, h.number?_eq, h.text?_eq, fail_rearranged h, failKind_rearranged h]

/-! ## Colours -/

theorem unordered_numbers : Unordered numbers := by
  intro t u h
  have hitems : (t.items?.bind fun items => items.mapM Tree.number?) =
      u.items?.bind fun items => items.mapM Tree.number? := by
    obtain ⟨ht, hu⟩ | ⟨ts, us, ht, hu, hall⟩ := rel_iff.mp h.items? <;> rw [ht, hu]
    exact mapM_eq_of_forall₂ hall fun _ _ hvw => hvw.number?_eq
  simp only [numbers, hitems, fail_rearranged h]

theorem unordered_opacity : Unordered opacity := by
  intro t u h
  unfold opacity
  obtain ⟨ht, hu⟩ | ⟨v, w, ht, hu, hvw⟩ := rel_iff.mp (h.get? Color.alphaField) <;> rw [ht, hu]
  simp only [numberOf, hvw.number?_eq, failKind_rearranged hvw]

theorem unordered_colorObject : Unordered colorObject := by
  intro t u h
  rw [colorObject_eq, colorObject_eq, require_rearranged h]
  congr 1
  funext _
  refine part_bind_rearranged h _ fun v w hvw => ?_
  rw [unordered_text v w hvw]
  congr 1
  funext space
  refine part_bind_rearranged h _ fun v' w' hvw' => ?_
  rw [unordered_numbers v' w' hvw', unordered_opacity t u h]
  simp only [colorOfParts, fail_rearranged hvw]

theorem unordered_color : Unordered color := by
  intro t u h
  simp only [color, h.isMapping_eq, unordered_colorObject t u h, unordered_filledText _ t u h,
    fail_rearranged h]

/-! ## Lists -/

theorem family_rearranged (h : t.Rearranged u) {v w : Tree} (hvw : v.Rearranged w) :
    family t v = family u w := by
  simp only [family, hole?_rearranged hvw, hvw.text?_eq, fail_rearranged h]

theorem unordered_fontFamily : Unordered fontFamily := by
  intro t u h
  unfold fontFamily
  rw [h.text?_eq]
  cases u.text? with
  | some s => simp only [fail_rearranged h]
  | none =>
    obtain ⟨ht, hu⟩ | ⟨ts, us, ht, hu, hall⟩ := rel_iff.mp h.items? <;> rw [ht, hu]
    · exact failKind_rearranged h _
    · cases hall with
      | nil => exact fail_rearranged h _
      | cons hvw hall =>
        dsimp only
        rw [mapM_eq_of_forall₂ (.cons hvw hall) fun _ _ => family_rearranged h]

theorem point_rearranged (h : t.Rearranged u) {v w : Tree} (hvw : v.Rearranged w) :
    point t v = point u w := by
  simp only [point, hole?_rearranged hvw, hvw.number?_eq, fail_rearranged h]

theorem unordered_cubicBezier : Unordered cubicBezier := by
  intro t u h
  unfold cubicBezier
  obtain ⟨ht, hu⟩ | ⟨ts, us, ht, hu, hall⟩ := rel_iff.mp h.items? <;> rw [ht, hu]
  · simp only [failKind_rearranged h]
  · have hread := mapM_eq_of_forall₂ hall fun _ _ => point_rearranged h
    simp only [hall.length_eq, fail_rearranged h, hread]

theorem unordered_dash : Unordered dash := by
  intro t u h
  simp only [dash, hole?_rearranged h, h.text?_eq, unordered_dimension t u h, fail_rearranged h]

theorem unordered_strokeStyle : Unordered strokeStyle := by
  intro t u h
  unfold strokeStyle
  rw [h.text?_eq, h.isMapping_eq, require_rearranged h]
  cases u.text? with
  | some s => simp only [fail_rearranged h]
  | none =>
    dsimp only
    rw [failKind_rearranged h]
    split
    · rfl
    · congr 1
      funext _
      refine part_bind_rearranged h _ fun v w hvw => ?_
      rw [unordered_text v w hvw]
      congr 1
      funext cap
      rw [fail_rearranged hvw]
      split
      · rfl
      · refine part_bind_rearranged h _ fun v' w' hvw' => ?_
        obtain ⟨hv, hw⟩ | ⟨ts, us, hv, hw, hall⟩ := rel_iff.mp hvw'.items? <;> rw [hv, hw]
        · exact fail_rearranged hvw' _
        · -- dashes stand in a list, whose order is kept
          dsimp only
          rw [mapM_eq_of_forall₂ hall unordered_dash]

/-! ## Objects -/

theorem unordered_border : Unordered border := by
  intro t u h
  simp only [border, unordered_requireObject t u h, require_rearranged h,
    readPart_rearranged h _ (unordered_orHole _ unordered_color),
    readPart_rearranged h _ (unordered_orHole _ unordered_dimension),
    readPart_rearranged h _ (unordered_orHole _ unordered_strokeStyle)]

theorem unordered_stopPosition : Unordered stopPosition := by
  intro t u h
  simp only [stopPosition, unordered_requireObject t u h, require_rearranged h,
    readPart_rearranged h _ (unordered_orHole _ unordered_number)]

theorem unordered_gradient : Unordered gradient := by
  intro t u h
  rw [gradient_eq, gradient_eq]
  obtain ⟨ht, hu⟩ | ⟨ts, us, ht, hu, hall⟩ := rel_iff.mp h.items? <;> rw [ht, hu]
  · exact failKind_rearranged h _
  · have hcolors : (ts.mapM fun stop => readPart stop "color" (orHole .color color)) =
        us.mapM fun stop => readPart stop "color" (orHole .color color) :=
      mapM_eq_of_forall₂ hall fun _ _ hvw =>
        readPart_rearranged hvw _ (unordered_orHole _ unordered_color)
    dsimp only
    rw [mapM_eq_of_forall₂ hall unordered_stopPosition, hcolors]

theorem readPresent_rearranged (h : t.Rearranged u) {read : Reader} (hread : Unordered read)
    (names : List String) : readPresent t read names = readPresent u read names := by
  induction names with
  | nil => rfl
  | cons name rest ih =>
    rw [readPresent, readPresent, h.has_eq, ih, readPart_rearranged h name hread]

theorem unordered_layer : Unordered layer := by
  intro t u h
  simp only [layer, unordered_requireObject t u h, require_rearranged h,
    readPart_rearranged h _ (unordered_orHole _ unordered_color),
    readPresent_rearranged h (unordered_orHole _ unordered_dimension),
    readPresent_rearranged h (unordered_orHole _ unordered_boolean)]

theorem unordered_shadow : Unordered shadow := by
  intro t u h
  have hlayer := unordered_layer t u h
  have hkind : (failKind .layers t : Except Failure Template) = failKind .layers u :=
    failKind_rearranged h .layers
  cases h with
  | null span => rfl
  | scalar value span => rfl
  | sequence span hall =>
    simp only [shadow, mapM_eq_of_forall₂ hall unordered_layer]
  | mapping span hnodup hall hperm =>
    simp only [shadow, hlayer]

theorem unordered_transition : Unordered transition := by
  intro t u h
  unfold transition
  rw [unordered_requireObject t u h, require_rearranged h,
    readPart_rearranged h _ (unordered_orHole _ unordered_duration),
    readPart_rearranged h _ (unordered_orHole _ unordered_cubicBezier)]
  obtain ⟨ht, hu⟩ | ⟨v, w, ht, hu, hvw⟩ := rel_iff.mp (h.get? "delay") <;> rw [ht, hu]
  simp only [unordered_orHole _ unordered_duration v w hvw]

/-! ## Fonts -/

theorem unordered_property (name : String) : Unordered (property name) := by
  intro t u h
  unfold property
  split
  · exact unordered_fontFamily t u h
  · exact unordered_dimension t u h
  · exact unordered_fontWeight t u h
  · exact unordered_dimension t u h
  · rw [h.number?_eq, unordered_dimension t u h]
  · have hkind : (failKind .stringOrNumber t : Except Failure Template) =
        failKind .stringOrNumber u := failKind_rearranged h .stringOrNumber
    cases h with
    | sequence span hall => exact hkind
    | mapping span hnodup hall hperm => exact hkind
    | _ => rfl

theorem readProperty_rearranged {m n : Key × Tree} (h : Keyed Tree.Rearranged m n) :
    readProperty m = readProperty n := by
  obtain ⟨key, hvw⟩ := h
  simp only [readProperty, hole?_rearranged hvw, unordered_property _ _ _ hvw]

end

/-! ## All types -/

variable {t u : Tree}

theorem typography_rearranged (h : t.Rearranged u) :
    CarriesOver (Template.Rearranged .typography) (typography t) (typography u) := by
  unfold typography
  rw [h.text?_eq]
  cases u.text? with
  | some s =>
    dsimp only
    split
    · exact .error
    · exact .ok (.same _ _)
  | none =>
    obtain ⟨ht, hu⟩ | ⟨ms, ns, ht, hu, hall⟩ := rel_iff.mp h.members? <;> rw [ht, hu]
    · exact .error
    · intro a ha
      obtain ⟨as, has, rfl⟩ := exceptMap_eq_ok.mp ha
      rw [properties_eq] at has
      -- the same properties are read, each from its own node
      have hread : CarriesOver (Matched Eq) (ms.mapM readProperty) (ns.mapM readProperty) :=
        hall.mapM fun _ _ _ hmn p hp => ⟨p, readProperty_rearranged hmn ▸ hp, rfl⟩
      obtain ⟨bs, hbs, hmatched⟩ := hread as has
      refine ⟨.object bs, exceptMap_eq_ok.mpr ⟨bs, properties_eq ns ▸ hbs, rfl⟩, .properties ?_⟩
      simpa using hmatched.map_perm (f := id) (g := id) fun _ _ heq => heq

theorem unordered_literal {type : TokenType} (h : type ≠ .typography) :
    Unordered (literal type) := by
  cases type with
  | boolean => exact unordered_boolean
  | border => exact unordered_border
  | color => exact unordered_color
  | cubicBezier => exact unordered_cubicBezier
  | dimension => exact unordered_dimension
  | duration => exact unordered_duration
  | fontFamily => exact unordered_fontFamily
  | fontWeight => exact unordered_fontWeight
  | gradient => exact unordered_gradient
  | link => exact unordered_link
  | number => exact unordered_number
  | shadow => exact unordered_shadow
  | string => exact unordered_string
  | strokeStyle => exact unordered_strokeStyle
  | transition => exact unordered_transition
  | typography => exact absurd rfl h

/-- A value is read in every order of members, up to the order of the properties of a font. -/
theorem value_rearranged (type : TokenType) (h : t.Rearranged u) :
    CarriesOver (Template.Rearranged type) (value type t) (value type u) := by
  by_cases htype : type = .typography
  · subst htype
    rw [value, orHole, orHole, hole?_rearranged h]
    refine .same_bind fun found => ?_
    cases found with
    | some hole => exact .ok (.same _ _)
    | none => exact typography_rearranged h
  · intro a ha
    rw [value, unordered_orHole type (unordered_literal htype) t u h] at ha
    exact ⟨a, ha, .same type a⟩

end DesignTokens.Grammar
