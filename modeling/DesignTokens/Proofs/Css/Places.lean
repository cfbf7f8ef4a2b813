import DesignTokens.Proofs.Color.Renditions
import DesignTokens.Proofs.Css.Expansion
import DesignTokens.Proofs.Resolution.Links

/-!
# Texts of targets

A reference in a value leads to a token with custom properties of its own.  The one for its whole
value has the text that would be written in the place of the reference (`expands_target`).
-/

namespace DesignTokens.Css

open Outcome Grammar Resolution

/-- A colour without a not-a-number in it when it is shown on common screens. -/
def NumericColor (d : Data) : Prop :=
  ∀ c shown, Color.ofValue d = .ok c → Color.onScreen .srgb c = .ok shown → shown.IsNumeric

section

variable {scope : String → Option (List Word)} {naming : Naming} {own : String}

/-- The custom property of a value that is written as one text has this text. -/
theorem expands_text {type : TokenType} {e : Entry} {ps : List Property}
    (h : properties type e = .ok ps) {q : Property} (hq : q ∈ ps) {s : String}
    (hs : wholeText type e.value = .ok s) : Expands scope (q.value.map (Piece.word naming own)) s := by
  obtain rfl := Except.ok.inj (h.symm.trans (properties_eq_ok_iff.mpr (.text hs)))
  rw [List.mem_singleton.mp hq]
  exact .ofText s

theorem expands_separated (separator : String) (texts : List String) :
    Expands scope
      ((separated separator (texts.map fun s => [.text s])).map (Piece.word naming own))
      (separator.intercalate texts) := by
  rw [separated]
  induction texts with
  | nil => exact .nil
  | cons s texts ih =>
    cases texts with
    | nil => exact .ofText s
    | cons s' texts =>
      rw [List.map_cons, List.map_cons, List.intercalate_cons_cons, String.intercalate_cons_cons,
        List.map_append, List.map_append]
      exact ((Expands.ofText s).append (.ofText separator)).append ih

end

/-- The custom property of a colour has the text of the colour. -/
theorem expands_color {e : Entry} {ps : List Property} (h : properties .color e = .ok ps)
    (hvariants : variantsOf .color e.value = .ok e.variants) (hnumeric : NumericColor e.value)
    {q : Property} (hq : q ∈ ps) (hcommon : q.isCommon = true) {s : String}
    (hs : colorText e.value = .ok s) {scope : String → Option (List Word)} {naming : Naming}
    {own : String} : Expands scope (q.value.map (Piece.word naming own)) s := by
  obtain ⟨c, hc, hrenditions⟩ := bind_eq_ok.mp hvariants
  simp only [Color.renditions, List.mapM_cons, List.mapM_nil, bind_eq_ok, pure_eq_ok]
    at hrenditions
  obtain ⟨_, ⟨shown, hshown, rfl⟩, _, ⟨_, ⟨wide, -, rfl⟩, _, rfl, rfl⟩, heq⟩ := hrenditions
  obtain ⟨⟨variant, gamut⟩, hrendition, d, s', hd, hs', rfl⟩ := mem_colorProperties h hq
  simp only [Color.renditions, List.mem_cons, List.not_mem_nil, or_false, Prod.mk.injEq]
    at hrendition
  obtain ⟨rfl, rfl⟩ | ⟨rfl, rfl⟩ := hrendition
  · rw [← heq] at hd
    obtain rfl : shown.value = d := by simpa [Members.get?] using hd
    rw [Color.cssText_rendition hc hshown (hnumeric c shown hc hshown)] at hs'
    obtain rfl : s' = s := Except.ok.inj (hs'.symm.trans hs)
    exact .ofText s'
  · simp [Property.isCommon] at hcommon

/-- The custom property of a curve has the text of the curve. -/
theorem expands_curve {e : Entry} {ps : List Property} (h : properties .cubicBezier e = .ok ps)
    (hreferences : e.references = none) {texts : List String} (htexts : pointTexts e.value = .ok texts)
    {q : Property} (hq : q ∈ ps) {scope : String → Option (List Word)} {naming : Naming}
    {own : String} : Expands scope (q.value.map (Piece.word naming own)) (curveText texts) := by
  obtain rfl := Except.ok.inj (h.symm.trans (properties_eq_ok_iff.mpr (.curve htexts)))
  rw [List.mem_singleton.mp hq, hreferences]
  -- without references all points are texts
  have hpoints : texts.zipIdx.map (fun x => orUse none (.index x.2) x.1) = texts.map Piece.text := by
    conv_rhs => rw [← List.zipIdx_map_fst 0 texts, List.map_map]
    rfl
  rw [whole, curve, hpoints, List.map_map, List.cons_append, List.map_cons, List.map_append]
  exact .text _ ((expands_separated ", " texts).append (.ofText ")"))

/-! ## Scalars -/

theorem literal_of_writes {type : TokenType} {s : Scalar}
    (h : Writes (Literal type) (.scalar s)) : Literal type (.scalar s) := by
  obtain ⟨t, ht, hsolid, hwritten⟩ := h
  cases t with
  | hole h => exact absurd (Template.hasHole_hole.mpr rfl) (hsolid h)
  | scalar s' => rwa [Data.scalar.inj hwritten] at ht
  | list items => cases hwritten
  | object members => cases hwritten

/-- Only numbers can have decimals. -/
theorem numberText_of_literal {type : TokenType} (htype : type ≠ .number) {s : Scalar}
    (h : Literal type (.scalar s)) : numberText s = s.plain := by
  have hfloat : ∀ x, s ≠ .float x := by
    rintro x rfl
    cases type with
    | number => exact htype rfl
    | dimension | duration | fontWeight | string | strokeStyle | typography | boolean | link =>
      simp [Literal, IsDimension, IsDuration, IsWeight, IsString, IsStroke, IsTypography, IsBoolean,
        IsLink] at h
    | border | color | cubicBezier | fontFamily | gradient | shadow | transition =>
      simp [Literal, IsBorder, IsColor, IsCurve, IsFamilies, IsGradient, IsShadow, IsTransition]
        at h
  cases s with
  | float x => exact absurd rfl (hfloat x)
  | _ => rfl

/-- A scalar is written like a property of a font, unless it is a boolean or a link. -/
theorem wholeText_scalar {type : TokenType} (hboolean : type ≠ .boolean) (hlink : type ≠ .link)
    {n : Scalar} (hliteral : Literal type (.scalar n)) :
    wholeText type (.scalar n) = .ok (numberText n) := by
  cases type with
  | boolean => exact absurd rfl hboolean
  | link => exact absurd rfl hlink
  | number => rfl
  | dimension | duration | fontWeight | string | typography =>
    rw [numberText_of_literal (by simp) hliteral]
    rfl
  | strokeStyle =>
    obtain ⟨s, htext, -⟩ | ⟨_, _, hobject, -⟩ := hliteral
    · obtain rfl := Template.scalar.inj htext
      rfl
    · cases hobject
  | border | color | cubicBezier | fontFamily | gradient | shadow | transition =>
    simp [Literal, IsBorder, IsColor, IsCurve, IsFamilies, IsGradient, IsShadow, IsTransition]
      at hliteral

/-! ## Places -/

/-- Whether data of a type is written in the place of a value like by its own token: in a colour
nothing is a not-a-number, and a property of a font that is not known is a scalar with a text of its
own. -/
structure FitsPlace (type : TokenType) (steps : List Step) (found : TokenType) (d : Data) : Prop where
  color : found = .color → NumericColor d
  property : ∀ name, type = .typography → steps = [.field name] →
    Members.get? name typographyTypes = none →
      found ≠ .boolean ∧ found ≠ .link ∧ ∃ n, d = .scalar n

theorem fittingAt_length {name : String} (h : name ∈ layerLengths) (i : Nat) :
    fittingAt .shadow [.index i, .field name] = some [.dimension] := by
  simp only [layerLengths, List.mem_cons, List.not_mem_nil, or_false] at h
  rcases h with rfl | rfl | rfl | rfl <;> rfl

section

variable {type found : TokenType} {steps : List Step} {e : Entry}
  (hreferences : e.references = none)
  (hvariants : variantsOf found e.value = .ok e.variants)
  (hwritten : Plain found e.value → Writes (Literal found) e.value)
  (hplace : FitsPlace type steps found e.value)
  {ps : List Property} (hps : properties found e = .ok ps) {q : Property} (hq : q ∈ ps)
  (hcommon : q.isCommon = true)
  {scope : String → Option (List Word)} {naming : Naming} {own : String}

include hwritten hplace hps hq

/-- A property of a font. -/
theorem expands_property {name : String} (htype : type = .typography) (hsteps : steps = [.field name])
    (hfits : ∀ types, Members.get? name typographyTypes = some types → found ∈ types) {s : String}
    (hs : typographyText name e.value = .ok s) :
    Expands scope (q.value.map (Piece.word naming own)) s := by
  by_cases hfamily : name = "fontFamily"
  · subst hfamily
    obtain rfl := List.mem_singleton.mp (hfits _ rfl)
    simp only [typographyText, if_true] at hs
    exact expands_text hps hq hs
  -- what is no list of families is a scalar, or a text by its type
  have hkind : (found ≠ .boolean ∧ found ≠ .link) ∧
      ((∃ n, e.value = .scalar n) ∨ found ∈ [.dimension, .fontWeight, .number]) := by
    cases hname : Members.get? name typographyTypes with
    | none =>
      obtain ⟨hboolean, hlink, hscalar⟩ := hplace.property name htype hsteps hname
      exact ⟨⟨hboolean, hlink⟩, .inl hscalar⟩
    | some types =>
      have hfound := hfits types hname
      have hmem := Members.mem_of_get? hname
      simp only [typographyTypes, List.mem_cons, Prod.mk.injEq, List.not_mem_nil, or_false] at hmem
      obtain ⟨rfl, rfl⟩ | ⟨rfl, rfl⟩ | ⟨rfl, rfl⟩ | ⟨rfl, rfl⟩ | ⟨rfl, rfl⟩ := hmem
      · exact absurd rfl hfamily
      all_goals
        simp only [List.mem_cons, List.not_mem_nil, or_false] at hfound
        rcases hfound with rfl | rfl <;> simp
  obtain ⟨⟨hboolean, hlink⟩, hscalar⟩ := hkind
  unfold typographyText at hs
  rw [if_neg hfamily] at hs
  cases hvalue : e.value with
  | scalar n =>
    rw [hvalue] at hs hwritten
    obtain rfl : numberText n = s := Except.ok.inj hs
    have hliteral := literal_of_writes (hwritten (plain_of_scalar _ n))
    exact expands_text hps hq (hvalue ▸ wholeText_scalar hboolean hlink hliteral)
  | _ =>
    rw [hvalue] at hs
    obtain rfl := Except.ok.inj hs
    simp only [hvalue, reduceCtorEq, exists_false, false_or, List.mem_cons, List.not_mem_nil,
      or_false] at hscalar
    rcases hscalar with rfl | rfl | rfl
    · exact expands_text hps hq (hvalue ▸ rfl)
    · exact expands_text hps hq (hvalue ▸ rfl)
    · simp [properties, hvalue, scalar] at hps

include hreferences hvariants hcommon

/-- What a reference leads to has the text that is written in the place of the reference. -/
theorem expands_target (hfits : ∀ types, fittingAt type steps = some types → found ∈ types)
    {s : String} (hs : textAt type steps e.value = .ok s) :
    Expands scope (q.value.map (Piece.word naming own)) s := by
  -- at a place for one type its own text is written
  have hlength (hfound : found = .dimension ∨ found = .duration) : Expands scope
      (q.value.map (Piece.word naming own)) e.value.plain := by
    rcases hfound with rfl | rfl <;> exact expands_text hps hq rfl
  have hcolor (hfound : found = .color) (hs : colorText e.value = .ok s) : Expands scope
      (q.value.map (Piece.word naming own)) s := by
    subst hfound
    exact expands_color hps hvariants (hplace.color rfl) hq hcommon hs
  unfold textAt at hs
  split at hs
  · exact Except.ok.inj hs ▸ hlength (.inl (List.mem_singleton.mp (hfits _ rfl)))
  · exact hcolor (List.mem_singleton.mp (hfits _ rfl)) hs
  · obtain rfl := List.mem_singleton.mp (hfits _ rfl)
    exact expands_text hps hq hs
  · exact Except.ok.inj hs ▸ hlength (.inr (List.mem_singleton.mp (hfits _ rfl)))
  · exact Except.ok.inj hs ▸ hlength (.inr (List.mem_singleton.mp (hfits _ rfl)))
  · obtain rfl := List.mem_singleton.mp (hfits _ rfl)
    obtain ⟨texts, htexts, hs⟩ := bind_eq_ok.mp hs
    obtain rfl := Except.ok.inj hs
    exact expands_curve hps hreferences htexts hq
  · exact expands_property hwritten hplace hps hq rfl rfl hfits hs
  · obtain rfl := List.mem_singleton.mp (hfits _ rfl)
    exact expands_text hps hq hs
  · exact hcolor (List.mem_singleton.mp (hfits _ rfl)) hs
  · exact hcolor (List.mem_singleton.mp (hfits _ rfl)) hs
  · split at hs
    · rename_i hname
      have hfitting := fittingAt_length hname
      exact Except.ok.inj hs ▸ hlength (.inl (List.mem_singleton.mp (hfits _ (hfitting _))))
    · cases hs
  · cases hs

end

end DesignTokens.Css
