import DesignTokens.Proofs.Value.Shape

/-!
# The leaves of values

The leaves of filled data are those of its template and those that references bring in
(`leaf_of_fill`).  A text that a grammar takes as it is was looked at for a reference before, or is
one of a few words, so no literal has a text in it that opens like a reference
(`unopened_of_literal`).
-/

namespace DesignTokens

open Outcome

/-! ## Leaves -/

namespace Data

mutual

/-- The scalars at any depth, in order. -/
def leaves : Data → List Scalar
  | .null => []
  | .scalar s => [s]
  | .list items => leavesOfItems items
  | .object members => leavesOfMembers members

def leavesOfItems : List Data → List Scalar
  | [] => []
  | d :: ds => d.leaves ++ leavesOfItems ds

def leavesOfMembers : List (String × Data) → List Scalar
  | [] => []
  | (_, d) :: ms => d.leaves ++ leavesOfMembers ms

end

theorem leavesOfItems_eq (items : List Data) : leavesOfItems items = items.flatMap leaves := by
  induction items with
  | nil => rfl
  | cons d ds ih => rw [leavesOfItems, ih, List.flatMap_cons]

theorem leavesOfMembers_eq (members : Members Data) :
    leavesOfMembers members = members.flatMap fun m => m.2.leaves := by
  induction members with
  | nil => rfl
  | cons m ms ih => rw [leavesOfMembers, ih, List.flatMap_cons]

variable {s : Scalar}

@[simp] theorem mem_leaves_scalar {r : Scalar} : s ∈ (Data.scalar r).leaves ↔ s = r := by
  simp [leaves]

@[simp] theorem mem_leaves_list {items : List Data} :
    s ∈ (Data.list items).leaves ↔ ∃ d ∈ items, s ∈ d.leaves := by
  simp [leaves, leavesOfItems_eq]

@[simp] theorem mem_leaves_object {members : Members Data} :
    s ∈ (Data.object members).leaves ↔ ∃ m ∈ members, s ∈ m.2.leaves := by
  simp only [leaves, leavesOfMembers_eq, List.mem_flatMap]

end Data

namespace Template

mutual

/-- The scalars of a template at any depth, in order. -/
def scalars : Template → List Scalar
  | .hole _ => []
  | .scalar s => [s]
  | .list items => scalarsOfItems items
  | .object members => scalarsOfMembers members

def scalarsOfItems : List Template → List Scalar
  | [] => []
  | t :: ts => t.scalars ++ scalarsOfItems ts

def scalarsOfMembers : List (String × Template) → List Scalar
  | [] => []
  | (_, t) :: ms => t.scalars ++ scalarsOfMembers ms

end

theorem scalarsOfItems_eq (items : List Template) :
    scalarsOfItems items = items.flatMap scalars := by
  induction items with
  | nil => rfl
  | cons t ts ih => rw [scalarsOfItems, ih, List.flatMap_cons]

theorem scalarsOfMembers_eq (members : List (String × Template)) :
    scalarsOfMembers members = members.flatMap fun m => m.2.scalars := by
  induction members with
  | nil => rfl
  | cons m ms ih => rw [scalarsOfMembers, ih, List.flatMap_cons]

variable {s : Scalar}

@[simp] theorem scalars_hole (h : Hole) : (Template.hole h).scalars = [] := by
  rw [scalars]

@[simp] theorem scalars_scalar (r : Scalar) : (Template.scalar r).scalars = [r] := by
  rw [scalars]

@[simp] theorem mem_scalars_list {items : List Template} :
    s ∈ (Template.list items).scalars ↔ ∃ t ∈ items, s ∈ t.scalars := by
  simp [scalars, scalarsOfItems_eq]

@[simp] theorem mem_scalars_object {members : List (String × Template)} :
    s ∈ (Template.object members).scalars ↔ ∃ m ∈ members, s ∈ m.2.scalars := by
  simp only [scalars, scalarsOfMembers_eq, List.mem_flatMap]

/-! ## The scalars of filled data -/

variable {value : Reference → Except Fault Data}

/-- What an item adds to a list has the leaves of its data. -/
theorem leaf_of_contribution {t : Template} {c d : Data} (hd : d ∈ contribution t c)
    (hs : s ∈ d.leaves) : s ∈ c.leaves := by
  have hself : d = c → s ∈ c.leaves := by
    rintro rfl
    exact hs
  cases t with
  | hole h =>
    rw [contribution] at hd
    split at hd
    · -- of a list that is spliced, one of the items
      cases c with
      | list cs => exact Data.mem_leaves_list.mpr ⟨d, hd, hs⟩
      | _ => exact hself (by simpa [spliceOf] using hd)
    · exact hself (by simpa using hd)
  | _ => exact hself (by simpa [contribution] using hd)

/-- A leaf of filled data stands in the template, or a reference of the template brings it in. -/
theorem leaf_of_fill {t : Template} {d : Data} (hd : fill value t = .ok d) (hs : s ∈ d.leaves) :
    s ∈ t.scalars ∨ ∃ h, t.HasHole h ∧ ∃ c, value h.reference = .ok c ∧ s ∈ c.leaves := by
  induction t using Template.induction generalizing d with
  | hole h => exact .inr ⟨h, by simp, d, hd, hs⟩
  | scalar r =>
    obtain rfl := Except.ok.inj hd
    exact .inl (by simpa using hs)
  | list items ih =>
    simp only [fill, map_eq_ok, fillItems_eq_ok] at hd
    obtain ⟨_, ⟨parts, hparts, rfl⟩, rfl⟩ := hd
    -- the leaf is in what one of the items adds
    obtain ⟨c, hmem, hs⟩ := Data.mem_leaves_list.mp hs
    obtain ⟨piece, hpiece, hin⟩ := List.mem_flatten.mp hmem
    rw [← List.map_uncurry_zip_eq_zipWith, List.mem_map] at hpiece
    obtain ⟨⟨t, part⟩, hzip, rfl⟩ := hpiece
    have ht := (List.of_mem_zip hzip).1
    have hfill := (List.forall₂_iff_zip.mp hparts).2 hzip
    rcases ih t ht hfill (leaf_of_contribution hin hs) with hscalar | ⟨h, hh, hc⟩
    · exact .inl (mem_scalars_list.mpr ⟨t, ht, hscalar⟩)
    · exact .inr ⟨h, hasHole_list.mpr ⟨t, ht, hh⟩, hc⟩
  | object members ih =>
    simp only [fill, map_eq_ok, fillMembers_eq_ok] at hd
    obtain ⟨ds, hds, rfl⟩ := hd
    obtain ⟨member, hmem, hs⟩ := Data.mem_leaves_object.mp hs
    obtain ⟨m, hm, -, hfill⟩ := exists_left hds hmem
    rcases ih m hm hfill hs with hscalar | ⟨h, hh, hc⟩
    · exact .inl (mem_scalars_object.mpr ⟨m, hm, hscalar⟩)
    · exact .inr ⟨h, hasHole_object.mpr ⟨m, hm, hh⟩, hc⟩

end Template

namespace Grammar

open Template

/-! ## Texts in literals -/

/-- No text in a template opens like a reference. -/
def Unopened (t : Template) : Prop := ∀ s, .text s ∈ t.scalars → Closed s

theorem unopened_text {s : String} (h : Closed s) : Unopened (.text s) := by
  intro s' hs
  obtain rfl : s' = s := by simpa using hs
  exact h

theorem unopened_of_isNumber {t : Template} (h : IsNumber t) : Unopened t := by
  obtain ⟨n, rfl, hn⟩ := h
  intro s hs
  obtain rfl : .text s = n := by simpa using hs
  simp [Scalar.isNumber] at hn

theorem unopened_list {items : List Template} (h : ∀ t ∈ items, Unopened t) :
    Unopened (.list items) := by
  intro s hs
  obtain ⟨t, ht, hs⟩ := mem_scalars_list.mp hs
  exact h t ht s hs

theorem unopened_object {members : List (String × Template)} (h : ∀ m ∈ members, Unopened m.2) :
    Unopened (.object members) := by
  intro s hs
  obtain ⟨m, hm, hs⟩ := mem_scalars_object.mp hs
  exact h m hm s hs

theorem unopened_orHole {accepted : Option (List TokenType)} {P : Template → Prop} {t : Template}
    (h : OrHole accepted P t) (hP : ∀ t, P t → Unopened t) : Unopened t := by
  rcases h with hhole | hvalue
  · cases hhole
    intro s hs
    simp at hs
  · exact hP t hvalue

theorem unopened_of_isDimension {t : Template} (h : IsDimension t) : Unopened t := by
  rcases h with rfl | ⟨s, rfl, hs⟩
  · exact unopened_of_isNumber ⟨_, rfl, rfl⟩
  · exact unopened_text hs.closed

theorem unopened_of_isDuration {t : Template} (h : IsDuration t) : Unopened t := by
  rcases h with rfl | ⟨s, rfl, hs⟩
  · exact unopened_of_isNumber ⟨_, rfl, rfl⟩
  · exact unopened_text hs.closed

theorem unopened_of_isBoolean {t : Template} (h : IsBoolean t) : Unopened t := by
  obtain ⟨b, rfl⟩ := h
  intro s hs
  simp at hs

theorem unopened_of_isWeight {t : Template} (h : IsWeight t) : Unopened t := by
  obtain ⟨i, rfl, -⟩ := h
  exact unopened_of_isNumber ⟨_, rfl, rfl⟩

/-- No space of colours has a name that opens like a reference. -/
theorem closed_of_space (space : Color.Space) : Closed space.name := by
  unfold Closed
  cases space <;> decide +kernel

/-- A colour that exists has the name of one of the spaces. -/
theorem closed_of_ofParts {space : String} {channels : List Scalar} {alpha : Scalar} {c : Color}
    (h : Color.ofParts space channels alpha = .ok c) : Closed space := by
  unfold Color.ofParts at h
  split at h
  · simp at h
  · rename_i found hfound
    have hname : found.name = space := by simpa using List.find?_some hfound
    exact hname ▸ closed_of_space found

theorem unopened_of_isColor {t : Template} (h : IsColor t) : Unopened t := by
  obtain ⟨space, channels, alpha, rfl, hchannels, halpha, c, hc⟩ := h
  refine unopened_object ?_
  simp only [List.forall_mem_cons, List.not_mem_nil, false_imp_iff, implies_true, and_true]
  refine ⟨unopened_text (closed_of_ofParts hc), unopened_list fun t ht => ?_,
    unopened_of_isNumber ⟨_, rfl, halpha⟩⟩
  obtain ⟨n, hn, rfl⟩ := List.mem_map.mp ht
  exact unopened_of_isNumber ⟨n, rfl, hchannels n hn⟩

theorem unopened_of_isFamilies {t : Template} (h : IsFamilies t) : Unopened t := by
  obtain ⟨items, rfl, -, hitems⟩ := h
  refine unopened_list fun i hi => ?_
  rcases hitems i hi with hhole | ⟨s, rfl, hs, -⟩
  · cases hhole
    intro s hs
    simp at hs
  · exact unopened_text hs

theorem unopened_of_isCurve {t : Template} (h : IsCurve t) : Unopened t := by
  obtain ⟨items, rfl, -, hitems⟩ := h
  exact unopened_list fun i hi => unopened_orHole (hitems i hi) fun _ => unopened_of_isNumber

/-- The words for styles and ends of lines do not open like a reference. -/
theorem closed_of_word {s : String} (h : s ∈ strokeStyles ++ lineCaps) : Closed s := by
  have hall : ∀ s ∈ strokeStyles ++ lineCaps, Reference.isOpenedBy s = false := by decide +kernel
  exact hall s h

theorem unopened_of_isStroke {t : Template} (h : IsStroke t) : Unopened t := by
  rcases h with ⟨s, rfl, hs⟩ | ⟨cap, dashes, rfl, hcap, hdashes⟩
  · exact unopened_text (closed_of_word (List.mem_append_left _ hs))
  · refine unopened_object ?_
    simp only [List.forall_mem_cons, List.not_mem_nil, false_imp_iff, implies_true, and_true]
    refine ⟨unopened_text (closed_of_word (List.mem_append_right _ hcap)), ?_⟩
    refine unopened_list fun d hd => unopened_orHole (hdashes d hd) ?_
    rintro _ ⟨s, rfl, hs⟩
    exact unopened_text hs.closed

theorem unopened_of_isBorder {t : Template} (h : IsBorder t) : Unopened t := by
  obtain ⟨c, w, s, rfl, hc, hw, hs⟩ := h
  refine unopened_object ?_
  simp only [List.forall_mem_cons, List.not_mem_nil, false_imp_iff, implies_true, and_true]
  exact ⟨unopened_orHole hc fun _ => unopened_of_isColor,
    unopened_orHole hw fun _ => unopened_of_isDimension,
    unopened_orHole hs fun _ => unopened_of_isStroke⟩

theorem unopened_of_isGradient {t : Template} (h : IsGradient t) : Unopened t := by
  obtain ⟨stops, rfl, hstops⟩ := h
  refine unopened_list fun stop hstop => ?_
  obtain ⟨c, p, rfl, hc, hp⟩ := hstops stop hstop
  refine unopened_object ?_
  simp only [List.forall_mem_cons, List.not_mem_nil, false_imp_iff, implies_true, and_true]
  exact ⟨unopened_orHole hc fun _ => unopened_of_isColor,
    unopened_orHole hp fun _ => unopened_of_isNumber⟩

theorem unopened_optional {name : String} {o : Option Template}
    (h : ∀ t, o = some t → Unopened t) : ∀ m ∈ Members.optional name o, Unopened m.2 := by
  intro m hm
  obtain ⟨t, ht, rfl⟩ : ∃ t, o = some t ∧ (name, t) = m := by
    simpa [Members.optional] using hm
  exact h t ht

theorem unopened_of_isLayer {t : Template} (h : IsLayer t) : Unopened t := by
  obtain ⟨c, x, y, b, spread, inset, rfl, hc, hx, hy, hb, hspread, hinset⟩ := h
  have hlength : ∀ {v : Template}, OrHole (some [.dimension]) IsDimension v → Unopened v :=
    fun hv => unopened_orHole hv fun _ => unopened_of_isDimension
  refine unopened_object ?_
  simp only [List.forall_mem_append, List.forall_mem_cons, List.not_mem_nil, false_imp_iff,
    implies_true, and_true]
  refine ⟨⟨unopened_orHole hc fun _ => unopened_of_isColor, hlength hx, hlength hy, hlength hb⟩,
    unopened_optional fun s hs => hlength (hspread s hs), unopened_optional fun i hi => ?_⟩
  exact unopened_orHole (hinset i hi) fun _ => unopened_of_isBoolean

theorem unopened_of_isTransition {t : Template} (h : IsTransition t) : Unopened t := by
  obtain ⟨d, e, c, rfl, hd, he, hc⟩ := h
  refine unopened_object ?_
  simp only [List.forall_mem_cons, List.not_mem_nil, false_imp_iff, implies_true, and_true]
  exact ⟨unopened_orHole hd fun _ => unopened_of_isDuration,
    unopened_orHole he fun _ => unopened_of_isDuration,
    unopened_orHole hc fun _ => unopened_of_isCurve⟩

theorem unopened_of_isProperty {name : String} {t : Template} (h : IsProperty name t) :
    Unopened t := by
  unfold IsProperty at h
  split at h
  · exact unopened_of_isFamilies h
  · exact unopened_of_isDimension h
  · exact unopened_of_isWeight h
  · exact unopened_of_isDimension h
  · exact h.elim unopened_of_isNumber unopened_of_isDimension
  · refine h.elim ?_ unopened_of_isNumber
    rintro ⟨s, rfl, hs⟩
    exact unopened_text hs

theorem unopened_of_isTypography {t : Template} (h : IsTypography t) : Unopened t := by
  rcases h with ⟨s, rfl, hs, -⟩ | ⟨members, rfl, -, hall⟩
  · exact unopened_text hs
  · exact unopened_object fun m hm => unopened_orHole (hall m hm) fun _ => unopened_of_isProperty

/-- In a value of any type that is no reference as a whole, no text opens like a reference. -/
theorem unopened_of_literal {type : TokenType} {t : Template} (h : Literal type t) :
    Unopened t := by
  cases type with
  | boolean => exact unopened_of_isBoolean h
  | border => exact unopened_of_isBorder h
  | color => exact unopened_of_isColor h
  | cubicBezier => exact unopened_of_isCurve h
  | dimension => exact unopened_of_isDimension h
  | duration => exact unopened_of_isDuration h
  | fontFamily => exact unopened_of_isFamilies h
  | fontWeight => exact unopened_of_isWeight h
  | gradient => exact unopened_of_isGradient h
  | link =>
    obtain ⟨s, rfl, hs, -⟩ := h
    exact unopened_text hs
  | number => exact unopened_of_isNumber h
  | shadow =>
    obtain ⟨layers, rfl, hlayers⟩ := h
    exact unopened_list fun l hl => unopened_of_isLayer (hlayers l hl)
  | string =>
    obtain ⟨s, rfl, hs⟩ := h
    exact unopened_text hs
  | strokeStyle => exact unopened_of_isStroke h
  | transition => exact unopened_of_isTransition h
  | typography => exact unopened_of_isTypography h

end Grammar

end DesignTokens
