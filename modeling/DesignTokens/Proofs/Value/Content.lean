import DesignTokens.Proofs.Tree.Content
import DesignTokens.Proofs.Value.Reading
import DesignTokens.Proofs.Value.Writing

/-!
# Values at other places

The grammar of values looks at the content of nodes only.  Where a node stands is kept for the
holes of a template and for failures, so nodes with the same content are read to templates that
differ in the places of their holes (`placeless_value`).
-/

namespace DesignTokens

open Outcome

/-- Templates that differ in nothing but the places of their holes. -/
def Template.SameContent (t u : Template) : Prop := t.atOrigin = u.atOrigin

namespace Template

theorem SameContent.of_eq {t u : Template} (h : t = u) : t.SameContent u := congrArg atOrigin h

theorem sameContent_hole {g h : Hole} (hgh : g.atOrigin = h.atOrigin) :
    (hole g).SameContent (hole h) := by
  rw [SameContent, atOrigin_hole, atOrigin_hole, hgh]

theorem sameContent_list {items others : List Template}
    (h : List.Forall₂ SameContent items others) : (list items).SameContent (list others) := by
  rw [SameContent, atOrigin_list, atOrigin_list, forall₂_map_eq.mp h]

theorem sameContent_object {members others : List (String × Template)}
    (h : List.Forall₂ (Keyed SameContent) members others) :
    (object members).SameContent (object others) := by
  have hmembers : members.map (fun m => (m.1, m.2.atOrigin)) =
      others.map fun m => (m.1, m.2.atOrigin) := by
    refine forall₂_map_eq.mp (h.imp fun m n hmn => ?_)
    obtain ⟨name, htu⟩ := hmn
    exact congrArg (name, ·) htu
  rw [SameContent, atOrigin_object, atOrigin_object, hmembers]

end Template

namespace Grammar

/-- A computation on nodes that does the same on nodes with the same content, except for its
failures. -/
def Placeless {α : Type} (R : α → α → Prop) (read : Tree → Except Failure α) : Prop :=
  ∀ t u, t.SameContent u → CarriesOver R (read t) (read u)

section

variable {t u : Tree}

/-! ## Parts -/

theorem placeless_text : Placeless Eq text := by
  intro t u h
  unfold text
  rw [h.text?_eq]
  split
  · exact .ok rfl
  · exact .error

theorem placeless_filledText (what : EmptyText) : Placeless Eq (filledText what) := by
  intro t u h
  refine .bind (placeless_text t u h) fun s s' hs => ?_
  subst hs
  split
  · exact .error
  · exact .ok rfl

theorem placeless_hole? (accepted : Option (List TokenType)) (spliced : Bool) :
    Placeless (Option.Rel fun g h => g.atOrigin = h.atOrigin) (hole? accepted spliced) := by
  intro t u h
  unfold hole?
  rw [h.text?_eq]
  split
  · exact .ok .none
  · split
    · exact .ok .none
    · split
      · exact .ok (.some rfl)
      · exact .error

/-- A reader that may find a hole first. -/
theorem placeless_afterHole (accepted : Option (List TokenType)) (spliced : Bool)
    {x y : Except Failure Template} (h : t.SameContent u)
    (hxy : CarriesOver Template.SameContent x y) :
    CarriesOver Template.SameContent
      (hole? accepted spliced t >>= fun found => match found with
        | some h => pure (.hole h)
        | none => x)
      (hole? accepted spliced u >>= fun found => match found with
        | some h => pure (.hole h)
        | none => y) := by
  refine .bind (placeless_hole? accepted spliced t u h) fun found found' hfound => ?_
  cases hfound with
  | none => exact hxy
  | some hgh => exact .ok (Template.sameContent_hole hgh)

theorem placeless_orHole (type : TokenType) {read : Reader}
    (hread : Placeless Template.SameContent read) :
    Placeless Template.SameContent (orHole type read) :=
  fun t u h => placeless_afterHole (some [type]) false h (hread t u h)

theorem placeless_requireObject : Placeless Eq requireObject := by
  intro t u h
  unfold requireObject
  rw [h.isMapping_eq]
  split
  · exact .ok rfl
  · exact .error

theorem placeless_require (names : List String) : Placeless Eq (require · names) := by
  intro t u h
  show CarriesOver Eq (require t names) (require u names)
  induction names with
  | nil => exact .ok rfl
  | cons name rest ih =>
    rw [require, require, h.has_eq]
    split
    · exact ih
    · exact .error

theorem placeless_part (name : String) : Placeless Tree.SameContent (part · name) := by
  intro t u h
  show CarriesOver Tree.SameContent (part t name) (part u name)
  unfold part
  obtain ⟨ht, hu⟩ | ⟨v, w, ht, hu, hvw⟩ := rel_iff.mp (h.get? name) <;> rw [ht, hu]
  · exact .error
  · exact .ok hvw

theorem placeless_readPart (name : String) {read : Reader}
    (hread : Placeless Template.SameContent read) :
    Placeless (Keyed Template.SameContent) (readPart · name read) :=
  fun t u h => .bind (placeless_part name t u h) fun v w hvw =>
    .bind (hread v w hvw) fun _ _ hab => .ok (.intro name hab)

/-! ## Simple values -/

theorem placeless_boolean : Placeless Eq boolean := by
  intro t u h
  unfold boolean
  rw [h.bool?_eq]
  split
  · exact .ok rfl
  · exact .error

theorem placeless_number : Placeless Eq number := by
  intro t u h
  unfold number
  rw [h.number?_eq]
  split
  · exact .ok rfl
  · exact .error

theorem placeless_string : Placeless Eq string :=
  fun t u h => .map (placeless_text t u h) fun _ _ hab => congrArg Template.text hab

theorem placeless_link : Placeless Eq link :=
  fun t u h => .map (placeless_filledText _ t u h) fun _ _ hab => congrArg Template.text hab

theorem isZero_eq (h : t.SameContent u) : isZero t = isZero u := by
  rw [isZero, isZero, h.number?_eq]

theorem placeless_measured (what : EmptyText) (noUnit : Problem) (invalid : String → Problem)
    (isUnit : List Char → Bool) : Placeless Eq (measured what noUnit invalid isUnit) := by
  intro t u h
  unfold measured
  rw [isZero_eq h]
  split
  · exact .ok rfl
  · refine .bind (placeless_filledText _ t u h) fun s s' hs => ?_
    subst hs
    split
    · exact .error
    · exact .error
    · split
      · exact .ok rfl
      · exact .error

theorem placeless_dimension : Placeless Eq dimension :=
  dimension_eq ▸ placeless_measured _ _ _ _

theorem placeless_duration : Placeless Eq duration :=
  duration_eq ▸ placeless_measured _ _ _ _

theorem placeless_fontWeight : Placeless Eq fontWeight := by
  intro t u h
  unfold fontWeight
  rw [h.number?_eq, h.text?_eq]
  split
  · split
    · exact .error
    · split
      · exact .ok rfl
      · exact .error
    · exact .error
  · split
    · exact .ok rfl
    · exact .error
  · exact .error

/-! ## Colours -/

theorem placeless_numbers : Placeless Eq numbers := by
  intro t u h
  have hitems : (t.items?.bind fun items => items.mapM Tree.number?) =
      u.items?.bind fun items => items.mapM Tree.number? := by
    obtain ⟨ht, hu⟩ | ⟨ts, us, ht, hu, hall⟩ := rel_iff.mp h.items? <;> rw [ht, hu]
    exact mapM_eq_of_forall₂ hall fun _ _ hvw => hvw.number?_eq
  unfold numbers
  rw [hitems]
  split
  · exact .ok rfl
  · exact .error

theorem placeless_numberOf : Placeless Eq numberOf := by
  intro t u h
  unfold numberOf
  rw [h.number?_eq]
  split
  · exact .ok rfl
  · exact .error

theorem placeless_opacity : Placeless Eq opacity := by
  intro t u h
  unfold opacity
  obtain ⟨ht, hu⟩ | ⟨v, w, ht, hu, hvw⟩ := rel_iff.mp (h.get? Color.alphaField) <;> rw [ht, hu]
  · exact .ok rfl
  · exact placeless_numberOf v w hvw

theorem placeless_colorOfParts (space : String) (channels : List Scalar) (alpha : Scalar) :
    Placeless Eq (colorOfParts · space channels alpha) := by
  intro t u _
  unfold colorOfParts
  split
  · exact .ok rfl
  · exact .error
  · exact .error

theorem placeless_colorObject : Placeless Eq colorObject := by
  intro t u h
  rw [colorObject_eq, colorObject_eq]
  refine .bind (placeless_require _ t u h) fun _ _ _ => ?_
  refine .bind (placeless_part _ t u h) fun v w hvw => ?_
  refine .bind (placeless_text v w hvw) fun space _ hspace => ?_
  subst hspace
  refine .bind (placeless_part _ t u h) fun v' w' hvw' => ?_
  refine .bind (placeless_numbers v' w' hvw') fun channels _ hchannels => ?_
  subst hchannels
  refine .bind (placeless_opacity t u h) fun alpha _ halpha => ?_
  subst halpha
  exact placeless_colorOfParts space channels alpha v w hvw

theorem placeless_color : Placeless Eq color := by
  intro t u h
  unfold color
  rw [h.isMapping_eq]
  split
  · exact placeless_colorObject t u h
  · refine .bind (placeless_filledText _ t u h) fun s s' hs => ?_
    subst hs
    split
    · exact .ok rfl
    · exact .error

/-- Templates that are equal have the same content. -/
theorem Placeless.content {read : Reader} (h : Placeless Eq read) :
    Placeless Template.SameContent read :=
  fun t u htu => (h t u htu).imp fun _ _ => .of_eq

/-! ## Lists -/

theorem placeless_family {v w : Tree} (hvw : v.SameContent w) :
    CarriesOver Template.SameContent (family t v) (family u w) := by
  refine placeless_afterHole _ _ hvw ?_
  rw [hvw.text?_eq]
  split
  · split
    · exact .error
    · exact .ok rfl
  · exact .error

theorem placeless_fontFamily : Placeless Template.SameContent fontFamily := by
  intro t u h
  unfold fontFamily
  rw [h.text?_eq]
  cases u.text? with
  | some s =>
    dsimp only
    split
    · exact .error
    · exact .ok rfl
  | none =>
    obtain ⟨ht, hu⟩ | ⟨ts, us, ht, hu, hall⟩ := rel_iff.mp h.items? <;> rw [ht, hu]
    · exact .error
    · cases hall with
      | nil => exact .error
      | cons hvw hall =>
        exact .map (.mapM (.cons hvw hall) fun _ _ => placeless_family)
          fun _ _ => Template.sameContent_list

theorem placeless_point {v w : Tree} (hvw : v.SameContent w) :
    CarriesOver Template.SameContent (point t v) (point u w) := by
  refine placeless_afterHole _ _ hvw ?_
  rw [hvw.number?_eq]
  split
  · exact .ok rfl
  · exact .error

theorem placeless_cubicBezier : Placeless Template.SameContent cubicBezier := by
  intro t u h
  unfold cubicBezier
  obtain ⟨ht, hu⟩ | ⟨ts, us, ht, hu, hall⟩ := rel_iff.mp h.items? <;> rw [ht, hu]
  · exact .error
  · dsimp only
    rw [hall.length_eq]
    split
    · exact .error
    · exact .map (.mapM hall fun _ _ => placeless_point) fun _ _ => Template.sameContent_list

theorem placeless_dash : Placeless Template.SameContent dash := by
  intro t u h
  refine placeless_afterHole _ _ h ?_
  rw [h.text?_eq]
  split
  · split
    · exact .error
    · exact placeless_dimension.content t u h
  · exact .error

theorem placeless_strokeStyle : Placeless Template.SameContent strokeStyle := by
  intro t u h
  unfold strokeStyle
  rw [h.text?_eq, h.isMapping_eq]
  split
  · split
    · exact .ok rfl
    · exact .error
  · split
    · exact .error
    · refine .bind (placeless_require _ t u h) fun _ _ _ => ?_
      refine .bind (placeless_part _ t u h) fun v w hvw => ?_
      refine .bind (placeless_text v w hvw) fun cap _ hcap => ?_
      subst hcap
      split
      · exact .error
      · refine .bind (placeless_part _ t u h) fun v' w' hvw' => ?_
        obtain ⟨hv, hw⟩ | ⟨ts, us, hv, hw, hall⟩ := rel_iff.mp hvw'.items? <;> rw [hv, hw]
        · exact .error
        · refine .bind (.mapM hall placeless_dash) fun _ _ hdashes => .ok ?_
          exact Template.sameContent_object (.cons (.intro _ rfl)
            (.cons (.intro _ (Template.sameContent_list hdashes)) .nil))

/-! ## Objects -/

theorem placeless_border : Placeless Template.SameContent border := by
  intro t u h
  refine .bind (placeless_requireObject t u h) fun _ _ _ => ?_
  refine .bind (placeless_require _ t u h) fun _ _ _ => ?_
  refine .bind (placeless_readPart _ (placeless_orHole _ placeless_color.content) t u h)
    fun _ _ hcolor => ?_
  refine .bind (placeless_readPart _ (placeless_orHole _ placeless_dimension.content) t u h)
    fun _ _ hwidth => ?_
  refine .bind (placeless_readPart _ (placeless_orHole _ placeless_strokeStyle) t u h)
    fun _ _ hstyle => ?_
  exact .ok (Template.sameContent_object (.cons hcolor (.cons hwidth (.cons hstyle .nil))))

theorem placeless_stopPosition : Placeless (Keyed Template.SameContent) stopPosition := by
  intro t u h
  refine .bind (placeless_requireObject t u h) fun _ _ _ => ?_
  refine .bind (placeless_require _ t u h) fun _ _ _ => ?_
  exact placeless_readPart _ (placeless_orHole _ placeless_number.content) t u h

theorem placeless_gradient : Placeless Template.SameContent gradient := by
  intro t u h
  rw [gradient_eq, gradient_eq]
  obtain ⟨ht, hu⟩ | ⟨ts, us, ht, hu, hall⟩ := rel_iff.mp h.items? <;> rw [ht, hu]
  · exact .error
  · refine .bind (.mapM hall placeless_stopPosition) fun ps ps' hpositions => ?_
    refine .bind (.mapM hall (placeless_readPart "color"
      (placeless_orHole _ placeless_color.content))) fun cs cs' hcolors => ?_
    refine .ok (Template.sameContent_list ?_)
    -- the stops are put together one by one
    induction hcolors generalizing ps ps' with
    | nil => exact .nil
    | cons hcolor _ ih =>
      cases hpositions with
      | nil => exact .nil
      | cons hposition hpositions =>
        exact .cons (Template.sameContent_object (.cons hcolor (.cons hposition .nil)))
          (ih _ _ hpositions)

theorem placeless_readPresent {read : Reader} (hread : Placeless Template.SameContent read)
    (names : List String) :
    Placeless (List.Forall₂ (Keyed Template.SameContent)) (readPresent · read names) := by
  intro t u h
  show CarriesOver _ (readPresent t read names) (readPresent u read names)
  induction names with
  | nil => exact .ok .nil
  | cons name rest ih =>
    rw [readPresent, readPresent, h.has_eq]
    split
    · exact .bind (placeless_readPart name hread t u h) fun _ _ hfirst =>
        .bind ih fun _ _ hrest => .ok (.cons hfirst hrest)
    · exact ih

theorem placeless_layer : Placeless Template.SameContent layer := by
  intro t u h
  refine .bind (placeless_requireObject t u h) fun _ _ _ => ?_
  refine .bind (placeless_require _ t u h) fun _ _ _ => ?_
  refine .bind (placeless_readPart _ (placeless_orHole _ placeless_color.content) t u h)
    fun _ _ hcolor => ?_
  refine .bind (placeless_readPresent (placeless_orHole _ placeless_dimension.content) _ t u h)
    fun _ _ hlengths => ?_
  refine .bind (placeless_readPresent (placeless_orHole _ placeless_boolean.content) _ t u h)
    fun _ _ hinset => ?_
  exact .ok (Template.sameContent_object (List.rel_append (.cons hcolor hlengths) hinset))

theorem placeless_shadow : Placeless Template.SameContent shadow :=
  fun _ _ h => h.induction
    (P := fun t u => CarriesOver Template.SameContent (shadow t) (shadow u))
    (fun _ _ => .error) (fun _ _ _ => .error)
    (fun _ _ _ _ hall => .map (.mapM hall fun t u htu => placeless_layer t u htu.1)
      fun _ _ => Template.sameContent_list)
    (fun _ _ _ _ hall => .map
      (placeless_layer _ _ (Tree.sameContent_mapping (hall.imp fun _ _ hmn => hmn.1)))
      fun _ _ hlayer => Template.sameContent_list (.cons hlayer .nil))

theorem placeless_delay : Placeless Template.SameContent delay := by
  intro t u h
  unfold delay
  obtain ⟨ht, hu⟩ | ⟨v, w, ht, hu, hvw⟩ := rel_iff.mp (h.get? "delay") <;> rw [ht, hu]
  · exact .ok rfl
  · exact placeless_orHole _ placeless_duration.content v w hvw

theorem placeless_transition : Placeless Template.SameContent transition := by
  intro t u h
  rw [transition_eq, transition_eq]
  refine .bind (placeless_requireObject t u h) fun _ _ _ => ?_
  refine .bind (placeless_require _ t u h) fun _ _ _ => ?_
  refine .bind (placeless_readPart _ (placeless_orHole _ placeless_duration.content) t u h)
    fun _ _ htime => ?_
  refine .bind (placeless_delay t u h) fun _ _ hdelay => ?_
  refine .bind (placeless_readPart _ (placeless_orHole _ placeless_cubicBezier) t u h)
    fun _ _ hcurve => ?_
  exact .ok (Template.sameContent_object (.cons htime (.cons (.intro _ hdelay) (.cons hcurve .nil))))

/-! ## Fonts -/

/-- A reader that fails unless the node is a scalar. -/
theorem placeless_of_scalars {α : Type} {R : α → α → Prop} {read : Tree → Except Failure α}
    (scalar : ∀ value span span',
      CarriesOver R (read (.scalar value span)) (read (.scalar value span')))
    (null : ∀ span, ∃ e, read (.null span) = .error e)
    (sequence : ∀ items span, ∃ e, read (.sequence items span) = .error e)
    (mapping : ∀ members span, ∃ e, read (.mapping members span) = .error e) :
    Placeless R read := by
  have hfails {x y : Except Failure α} (hx : ∃ e, x = .error e) : CarriesOver R x y := by
    obtain ⟨e, rfl⟩ := hx
    exact .error
  exact fun t u h => h.induction (P := fun t u => CarriesOver R (read t) (read u))
    (fun _ _ => hfails (null _)) scalar (fun _ _ _ _ _ => hfails (sequence _ _))
    (fun _ _ _ _ _ => hfails (mapping _ _))

theorem placeless_property (name : String) : Placeless Template.SameContent (property name) := by
  intro t u h
  unfold property
  split
  · exact placeless_fontFamily t u h
  · exact placeless_dimension.content t u h
  · exact placeless_fontWeight.content t u h
  · exact placeless_dimension.content t u h
  · rw [h.number?_eq]
    split
    · exact .ok rfl
    · exact placeless_dimension.content t u h
  · revert t u
    refine placeless_of_scalars (fun value span span' => ?_) ?_ ?_ ?_
    · cases value with
      | bool b => exact .error
      | _ => exact .ok rfl
    · exact fun _ => ⟨_, rfl⟩
    · exact fun _ _ => ⟨_, rfl⟩
    · exact fun _ _ => ⟨_, rfl⟩

theorem placeless_readProperty {m n : Key × Tree} (h : Tree.SameMember m n) :
    CarriesOver (Keyed Template.SameContent) (readProperty m) (readProperty n) := by
  obtain ⟨hname, hvalue⟩ := h
  unfold readProperty
  rw [hname]
  refine .bind (placeless_hole? _ _ _ _ hvalue) fun found found' hfound => ?_
  cases hfound with
  | none => exact .bind (placeless_property _ _ _ hvalue) fun _ _ hab => .ok (Keyed.intro _ hab)
  | some hgh => exact .ok (Keyed.intro _ (Template.sameContent_hole hgh))

theorem placeless_typography : Placeless Template.SameContent typography := by
  intro t u h
  unfold typography
  rw [h.text?_eq]
  cases u.text? with
  | some s =>
    dsimp only
    split
    · exact .error
    · exact .ok rfl
  | none =>
    obtain ⟨ht, hu⟩ | ⟨ms, ns, ht, hu, hall⟩ := rel_iff.mp h.members? <;> rw [ht, hu]
    · exact .error
    · dsimp only
      rw [properties_eq, properties_eq]
      exact .map (.mapM hall fun _ _ => placeless_readProperty) fun _ _ =>
        Template.sameContent_object

end

/-! ## All types -/

theorem placeless_literal (type : TokenType) : Placeless Template.SameContent (literal type) := by
  cases type with
  | boolean => exact placeless_boolean.content
  | border => exact placeless_border
  | color => exact placeless_color.content
  | cubicBezier => exact placeless_cubicBezier
  | dimension => exact placeless_dimension.content
  | duration => exact placeless_duration.content
  | fontFamily => exact placeless_fontFamily
  | fontWeight => exact placeless_fontWeight.content
  | gradient => exact placeless_gradient
  | link => exact placeless_link.content
  | number => exact placeless_number.content
  | shadow => exact placeless_shadow
  | string => exact placeless_string.content
  | strokeStyle => exact placeless_strokeStyle
  | transition => exact placeless_transition
  | typography => exact placeless_typography

/-- Nodes with the same content are read alike, up to the places of the holes. -/
theorem placeless_value (type : TokenType) : Placeless Template.SameContent (value type) :=
  placeless_orHole type (placeless_literal type)

end Grammar

end DesignTokens
