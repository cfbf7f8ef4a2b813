import DesignTokens.Proofs.Number.Range
import DesignTokens.Proofs.Reports
import DesignTokens.Proofs.Tree.Inside
import DesignTokens.Proofs.Value.Conversion

/-!
# Issues and faults of values

Whatever is wrong with a value, the issue points at a node inside the node of the value.  And every
hole of a value that is read has the place and the reference of a text inside that node.

Readers ask for the parts of a value before they take them, and read as many colours of a gradient
as positions.  So a part is never missed afterwards, and the one fault there is comes from an integer
that is converted to double precision and lies beyond its range (`value_outcome`).
-/

namespace DesignTokens

open Template

/-- A hole comes from a text inside a node: the text is the reference, and its place is the place
of the hole. -/
def Hole.ComesFrom (h : Hole) (t : Tree) : Prop :=
  ∃ s, (Tree.scalar (.text s) h.span).Inside t ∧ Reference.parse? s = some h.reference

/-- All holes of a template come from texts inside a node. -/
def Template.ComesFrom (v : Template) (t : Tree) : Prop := ∀ h, v.HasHole h → h.ComesFrom t

namespace Grammar

open Outcome

/-! ## Answers and issues of readers -/

/-- The issues of a computation are about no reference and point at nodes inside a node, its faults
satisfy `F`, and what it returns satisfies `Q`. -/
abbrev Traced {α : Type} (F : Fault → Prop) (t : Tree) (x : Except Failure α) (Q : α → Prop) :
    Prop :=
  Reports (fun i => i.problem.reference? = none ∧ ∃ n : Tree, n.Inside t ∧ i.PointsAt n) F x Q

variable {F : Fault → Prop}

section Traced

variable {α : Type} {t n : Tree} {x : Except Failure α} {Q : α → Prop}

theorem traced_fail {problem : Problem} (hproblem : problem.reference? = none)
    (hn : n.Inside t) : Traced F t (fail problem n) Q :=
  reports_issue ⟨hproblem, n, hn, rfl, rfl⟩

theorem traced_failKind {what : Expectation} (hn : n.Inside t) : Traced F t (failKind what n) Q :=
  traced_fail rfl hn

/-- What is traced inside a node is traced inside every node around it. -/
theorem Traced.inside (hx : Traced F n x Q) (hn : n.Inside t) : Traced F t x Q :=
  hx.imp (fun _ ⟨hi, m, hm, hat⟩ => ⟨hi, m, hm.trans hn, hat⟩) fun _ => id

end Traced

/-! ## Holes of templates -/

section ComesFrom

variable {t n : Tree}

theorem comesFrom_scalar (s : Scalar) : (Template.scalar s).ComesFrom t := by
  simp [Template.ComesFrom]

theorem comesFrom_list {items : List Template} (h : ∀ v ∈ items, v.ComesFrom t) :
    (Template.list items).ComesFrom t := by
  intro hole hhole
  obtain ⟨v, hv, hhole⟩ := hasHole_list.mp hhole
  exact h v hv hole hhole

theorem comesFrom_object {members : List (String × Template)} (h : ∀ m ∈ members, m.2.ComesFrom t) :
    (Template.object members).ComesFrom t := by
  intro hole hhole
  obtain ⟨m, hm, hhole⟩ := hasHole_object.mp hhole
  exact h m hm hole hhole

theorem comesFrom_inside {v : Template} (h : v.ComesFrom n) (hn : n.Inside t) :
    v.ComesFrom t := by
  intro hole hhole
  obtain ⟨s, hs, href⟩ := h hole hhole
  exact ⟨s, hs.trans hn, href⟩

end ComesFrom

/-! ## Parts of values -/

/-- The issues of reading a node point into it, the holes come from there, and the faults satisfy
`F`. -/
abbrev Traces (F : Fault → Prop) (read : Reader) (t : Tree) : Prop :=
  Traced F t (read t) (·.ComesFrom t)

theorem Traces.inside {read : Reader} {t n : Tree} (hread : Traces F read n) (hn : n.Inside t) :
    Traced F t (read n) (·.ComesFrom t) :=
  Traced.inside (hread.imp (fun _ => id) fun _ hv => comesFrom_inside hv hn) hn

section Parts

variable {t : Tree}

theorem traced_hole? (accepted : Option (List TokenType)) (spliced : Bool) :
    Traced F t (hole? accepted spliced t) fun o => ∀ h, o = some h → h.ComesFrom t := by
  unfold hole?
  split
  · exact reports_ok (by simp)
  · rename_i s htext
    split
    · exact reports_ok (by simp)
    · split
      · rename_i r hparse
        refine reports_ok ?_
        rintro _ ⟨⟩
        obtain ⟨span, rfl⟩ := Tree.eq_scalar_of_text? htext
        exact ⟨s, .here, hparse⟩
      · exact traced_fail rfl .here

theorem traced_hole {accepted : Option (List TokenType)} {spliced : Bool} {n : Tree}
    {x : Except Failure Template} (hn : n.Inside t) (hx : Traced F t x (·.ComesFrom t)) :
    Traced F t (do
      match ← hole? accepted spliced n with
      | some h => return .hole h
      | none => x) (·.ComesFrom t) := by
  refine ((traced_hole? accepted spliced).inside hn).bind fun o ho => ?_
  cases o with
  | none => exact hx
  | some h =>
    refine reports_ok ?_
    intro g hg
    obtain rfl := hasHole_hole.mp hg
    obtain ⟨s, hs, href⟩ := ho h rfl
    exact ⟨s, hs.trans hn, href⟩

theorem traces_orHole {type : TokenType} {read : Reader} (hread : Traces F read t) :
    Traces F (orHole type read) t :=
  traced_hole .here hread

/-- The parts that are required are there afterwards. -/
theorem traced_require (names : List String) :
    Traced F t (require t names) fun _ => ∀ name ∈ names, t.has name = true := by
  induction names with
  | nil => exact reports_ok (List.forall_mem_nil _)
  | cons name rest ih =>
    rw [require]
    split
    · rename_i hhas
      exact ih.imp (fun _ => id) fun _ hrest => List.forall_mem_cons.mpr ⟨hhas, hrest⟩
    · exact traced_fail rfl .here

/-- A part that is there is found, without a fault. -/
theorem traced_part {name : String} (hhas : t.has name = true) :
    Traced F t (part t name) (t.get? name = some ·) := by
  obtain ⟨n, hn⟩ := Tree.has_iff.mp hhas
  rw [part, hn]
  exact reports_ok rfl

theorem traced_readPart {name : String} (hhas : t.has name = true) {read : Reader}
    (hread : ∀ n, t.get? name = some n → Traces F read n) :
    Traced F t (readPart t name read) fun m => m.2.ComesFrom t :=
  (traced_part hhas).bind fun n hn => ((hread n hn).inside (Tree.inside_of_get? hn)).bind
    fun _ hv => reports_ok hv

theorem traced_requireObject : Traced F t (requireObject t) fun _ => True := by
  unfold requireObject
  split
  · exact reports_ok trivial
  · exact traced_failKind .here

theorem traced_text : Traced F t (text t) fun _ => True := by
  unfold text
  split
  · exact reports_ok trivial
  · exact traced_failKind .here

theorem traced_filledText (what : EmptyText) : Traced F t (filledText what t) fun _ => True := by
  refine traced_text.bind fun s _ => ?_
  split
  · exact traced_fail rfl .here
  · exact reports_ok trivial

end Parts

/-! ## Simple values -/

theorem traces_boolean (t : Tree) : Traces F boolean t := by
  unfold Traces boolean
  split
  · exact reports_ok (comesFrom_scalar _)
  · exact traced_failKind .here

theorem traces_number (t : Tree) : Traces F number t := by
  unfold Traces number
  split
  · exact reports_ok (comesFrom_scalar _)
  · exact traced_failKind .here

theorem traces_string (t : Tree) : Traces F string t :=
  traced_text.map fun s _ => comesFrom_scalar (.text s)

theorem traces_link (t : Tree) : Traces F link t :=
  (traced_filledText .link).map fun s _ => comesFrom_scalar (.text s)

theorem traces_measured {what : EmptyText} {noUnit : Problem} {invalid : String → Problem}
    {isUnit : List Char → Bool} (hnoUnit : noUnit.reference? = none)
    (hinvalid : ∀ s, (invalid s).reference? = none) (t : Tree) :
    Traces F (measured what noUnit invalid isUnit) t := by
  unfold Traces measured
  split
  · exact reports_ok (comesFrom_scalar _)
  · refine (traced_filledText _).bind fun s _ => ?_
    split
    · exact traced_fail (hinvalid s) .here
    · exact traced_fail hnoUnit .here
    · split
      · exact reports_ok (comesFrom_scalar _)
      · exact traced_fail (hinvalid s) .here

theorem traces_dimension (t : Tree) : Traces F dimension t :=
  dimension_eq ▸ traces_measured rfl (fun _ => rfl) t

theorem traces_duration (t : Tree) : Traces F duration t :=
  duration_eq ▸ traces_measured rfl (fun _ => rfl) t

/-! ## Colours -/

section Colors

variable {t : Tree}

theorem comesFrom_ofScalars (items : List Scalar) : (ofScalars items).ComesFrom t :=
  comesFrom_list (List.forall_mem_map.mpr fun s _ => comesFrom_scalar s)

theorem comesFrom_ofColor (c : Color) : (ofColor c).ComesFrom t := by
  refine comesFrom_object ?_
  simp only [List.forall_mem_cons, comesFrom_scalar, comesFrom_ofScalars, true_and]
  exact List.forall_mem_nil _

theorem traced_numbers : Traced F t (numbers t) (numbers t = .ok ·) := by
  unfold numbers
  split
  · exact reports_ok rfl
  · exact traced_fail rfl .here

theorem traced_numberOf : Traced F t (numberOf t) (numberOf t = .ok ·) := by
  unfold numberOf
  split
  · exact reports_ok rfl
  · exact traced_failKind .here

theorem traced_opacity : Traced F t (opacity t) (opacity t = .ok ·) := by
  unfold opacity
  split
  · exact traced_numberOf.inside (Tree.inside_of_get? ‹_›)
  · exact reports_ok rfl

/-- A space that is not known is reported at its own node. -/
theorem traced_colorOfParts {n : Tree} (hn : n.Inside t) {space : String} {channels : List Scalar}
    {alpha : Scalar} (hfault : ∀ fault ≠ .unreadable,
      Color.ofParts space channels alpha = .error fault → F fault) :
    Traced F t (colorOfParts n space channels alpha) (·.ComesFrom t) := by
  unfold colorOfParts
  split
  · refine reports_ok (comesFrom_object ?_)
    simp only [List.forall_mem_cons, comesFrom_scalar, comesFrom_ofScalars, true_and]
    exact List.forall_mem_nil _
  · exact traced_fail rfl hn
  · rename_i fault hne hparts
    exact reports_fault (hfault fault hne hparts)

end Colors

theorem traces_colorObject (t : Tree) : Traces (Overflows .color t) colorObject t := by
  rw [Traces, colorObject_eq]
  refine (traced_require _).bind fun _ hparts => ?_
  refine (traced_part (hparts _ (by simp))).bind fun spaceNode hspace => ?_
  have hspace := Tree.inside_of_get? hspace
  refine (traced_text.inside hspace).bind fun space _ => ?_
  refine (traced_part (hparts _ (by simp))).bind fun list hlist => ?_
  refine (traced_numbers.inside (Tree.inside_of_get? hlist)).bind fun channels hchannels => ?_
  refine traced_opacity.bind fun alpha halpha => traced_colorOfParts hspace ?_
  exact fun fault hne => overflows_color hlist hchannels halpha hne

theorem traces_color (t : Tree) : Traces (Overflows .color t) color t := by
  unfold Traces color
  split
  · exact traces_colorObject t
  · refine (traced_filledText _).bind fun s _ => ?_
    split
    · exact reports_ok (comesFrom_ofColor _)
    · exact traced_fail rfl .here

/-! ## Fonts -/

theorem traced_family {t n : Tree} (hn : n.Inside t) :
    Traced F t (family t n) (·.ComesFrom t) := by
  refine traced_hole hn ?_
  split
  · split
    · exact traced_fail rfl .here
    · exact reports_ok (comesFrom_scalar _)
  · exact traced_fail rfl .here

theorem traces_fontFamily (t : Tree) : Traces F fontFamily t := by
  unfold Traces fontFamily
  split
  · split
    · exact traced_fail rfl .here
    · refine reports_ok (comesFrom_list ?_)
      simpa using comesFrom_scalar _
  · exact traced_fail rfl .here
  · rename_i items _ hitems
    exact (reports_mapM fun n hn => traced_family (Tree.inside_of_items? hitems hn)).map
      fun _ => comesFrom_list
  · exact traced_failKind .here

theorem traces_fontWeight (t : Tree) : Traces (Overflows .fontWeight t) fontWeight t := by
  unfold Traces fontWeight
  split
  · rename_i hnumber
    split
    · rename_i hfault
      exact reports_fault (overflows_fontWeight hnumber hfault)
    · split
      · exact reports_ok (comesFrom_scalar _)
      · exact traced_fail rfl .here
    · exact traced_fail rfl .here
  · split
    · exact reports_ok (comesFrom_scalar _)
    · exact traced_fail rfl .here
  · exact traced_failKind .here

/-! ## Curves and lines -/

theorem traced_point {t n : Tree} (hn : n.Inside t) : Traced F t (point t n) (·.ComesFrom t) := by
  refine traced_hole hn ?_
  split
  · exact reports_ok (comesFrom_scalar _)
  · exact traced_fail rfl .here

theorem traces_cubicBezier (t : Tree) : Traces F cubicBezier t := by
  unfold Traces cubicBezier
  split
  · exact traced_failKind .here
  · rename_i items hitems
    split
    · exact traced_fail rfl .here
    · exact (reports_mapM fun n hn => traced_point (Tree.inside_of_items? hitems hn)).map
        fun _ => comesFrom_list

theorem traces_dash (t : Tree) : Traces F dash t := by
  refine traced_hole .here ?_
  split
  · split
    · exact traced_fail rfl .here
    · exact traces_dimension t
  · exact traced_fail rfl .here

theorem traces_strokeStyle (t : Tree) : Traces F strokeStyle t := by
  unfold Traces strokeStyle
  split
  · split
    · exact reports_ok (comesFrom_scalar _)
    · exact traced_fail rfl .here
  · split
    · exact traced_failKind .here
    · refine (traced_require _).bind fun _ hparts => ?_
      refine (traced_part (hparts _ (by simp))).bind fun capNode hcap => ?_
      have hcap := Tree.inside_of_get? hcap
      refine (traced_text.inside hcap).bind fun cap _ => ?_
      split
      · exact traced_fail rfl hcap
      · refine (traced_part (hparts _ (by simp))).bind fun dashNode hdash => ?_
        have hdash := Tree.inside_of_get? hdash
        split
        · exact traced_fail rfl hdash
        · rename_i items hitems
          refine (reports_mapM fun n hn => (traces_dash n).inside
            ((Tree.inside_of_items? hitems hn).trans hdash)).bind fun dashes hdashes => ?_
          refine reports_ok (comesFrom_object ?_)
          simp only [List.forall_mem_cons, comesFrom_scalar, true_and]
          exact ⟨comesFrom_list hdashes, List.forall_mem_nil _⟩

/-! ## Composite values -/

theorem traces_border (t : Tree) : Traces (Overflows .border t) border t := by
  refine traced_requireObject.bind fun _ _ => (traced_require _).bind fun _ hparts => ?_
  refine (traced_readPart (hparts _ (by simp)) fun n hn => traces_orHole
    ((traces_color n).weaken (Overflows.imp fun _ => .border hn))).bind fun color hcolor => ?_
  refine (traced_readPart (hparts _ (by simp)) fun n _ => traces_orHole (traces_dimension n)).bind
    fun width hwidth => ?_
  refine (traced_readPart (hparts _ (by simp)) fun n _ => traces_orHole (traces_strokeStyle n)).bind
    fun style hstyle => ?_
  refine reports_ok (comesFrom_object ?_)
  simp [hcolor, hwidth, hstyle]

/-- A part that is traced inside a node is traced inside every node around it. -/
theorem Traced.around {t n : Tree} {x : Except Failure (String × Template)}
    (hx : Traced F n x fun m => m.2.ComesFrom n) (hn : n.Inside t) :
    Traced F t x fun m => m.2.ComesFrom t :=
  Traced.inside (hx.imp (fun _ => id) fun _ hm => comesFrom_inside hm hn) hn

theorem traced_stopPosition (t : Tree) :
    Traced F t (stopPosition t) fun m => m.2.ComesFrom t :=
  traced_requireObject.bind fun _ _ => (traced_require _).bind fun _ hparts =>
    traced_readPart (hparts _ (by simp)) fun n _ => traces_orHole (traces_number n)

/-- A stop whose position was read has a colour. -/
theorem has_color_of_stopPosition {t : Tree} {m : String × Template}
    (h : stopPosition t = .ok m) : t.has "color" = true := by
  simp only [stopPosition, bind_eq_ok] at h
  obtain ⟨_, -, _, hrequire, -⟩ := h
  exact Tree.has_iff.mpr (require_eq_ok.mp hrequire _ (by simp))

theorem traces_gradient (t : Tree) : Traces (Overflows .gradient t) gradient t := by
  rw [Traces, gradient_eq]
  split
  · exact traced_failKind .here
  · rename_i items hitems
    have hpositions : Traced (Overflows .gradient t) t (items.mapM stopPosition)
        fun ms => ∀ m ∈ ms, m.2.ComesFrom t :=
      reports_mapM fun n hn => (traced_stopPosition n).around (Tree.inside_of_items? hitems hn)
    refine hpositions.answered.bind fun positions ⟨hread, hpositions⟩ => ?_
    have hhas : ∀ n ∈ items, n.has "color" = true := by
      intro n hn
      obtain ⟨m, -, hm⟩ := exists_right (mapM_eq_ok_iff.mp hread) hn
      exact has_color_of_stopPosition hm
    have hcolors : Traced (Overflows .gradient t) t
        (items.mapM fun stop => readPart stop "color" (orHole .color color))
        fun ms => ∀ m ∈ ms, m.2.ComesFrom t :=
      reports_mapM fun n hn => (traced_readPart (hhas n hn) fun c hc => traces_orHole
        ((traces_color c).weaken (Overflows.imp fun _ => .stop hitems hn hc))).around
          (Tree.inside_of_items? hitems hn)
    refine hcolors.bind fun colors hcolors => ?_
    refine reports_ok (comesFrom_list fun stop hstop => ?_)
    rw [← List.map_uncurry_zip_eq_zipWith, List.mem_map] at hstop
    obtain ⟨⟨color, position⟩, hmem, rfl⟩ := hstop
    obtain ⟨hcolor, hposition⟩ := List.of_mem_zip hmem
    refine comesFrom_object ?_
    simp [hcolors color hcolor, hpositions position hposition]

theorem traced_readPresent {t : Tree} {read : Reader} (hread : ∀ n, Traces F read n)
    (names : List String) :
    Traced F t (readPresent t read names) fun ms => ∀ m ∈ ms, m.2.ComesFrom t := by
  induction names with
  | nil => exact reports_ok (by simp)
  | cons name rest ih =>
    rw [readPresent]
    split
    · exact (traced_readPart ‹_› fun n _ => hread n).bind fun m hm => ih.bind fun ms hms =>
        reports_ok (List.forall_mem_cons.mpr ⟨hm, hms⟩)
    · exact ih

theorem traces_layer {t : Tree} (hcolor : ∀ n, t.get? "color" = some n → Traces F color n) :
    Traces F layer t := by
  refine traced_requireObject.bind fun _ _ => (traced_require _).bind fun _ hparts => ?_
  refine (traced_readPart (hparts _ (by simp)) fun n hn => traces_orHole (hcolor n hn)).bind
    fun color hcolor => ?_
  refine (traced_readPresent (fun n => traces_orHole (traces_dimension n)) _).bind
    fun lengths hlengths => ?_
  refine (traced_readPresent (fun n => traces_orHole (traces_boolean n)) _).bind
    fun inset hinset => ?_
  refine reports_ok (comesFrom_object (List.forall_mem_append.mpr ⟨?_, hinset⟩))
  exact List.forall_mem_cons.mpr ⟨hcolor, hlengths⟩

theorem traces_shadow (t : Tree) : Traces (Overflows .shadow t) shadow t := by
  have hlayer : ∀ l, (l = t ∨ ∃ items, t.items? = some items ∧ l ∈ items) →
      Traces (Overflows .shadow t) layer l := fun l hl =>
    traces_layer fun n hn => (traces_color n).weaken (Overflows.imp fun _ => .layer hl hn)
  unfold Traces shadow
  split
  · exact (hlayer _ (.inl rfl)).map fun l hl => comesFrom_list (by simpa using hl)
  · exact (reports_mapM fun n hn => (hlayer n (.inr ⟨_, rfl, hn⟩)).inside (.item hn .here)).map
      fun _ => comesFrom_list
  · exact traced_failKind .here

theorem traced_delay {t : Tree} : Traced F t (delay t) (·.ComesFrom t) := by
  unfold delay
  split
  · exact (traces_orHole (traces_duration _)).inside (Tree.inside_of_get? ‹_›)
  · exact reports_ok (comesFrom_scalar _)

theorem traces_transition (t : Tree) : Traces F transition t := by
  rw [Traces, transition_eq]
  refine traced_requireObject.bind fun _ _ => (traced_require _).bind fun _ hparts => ?_
  refine (traced_readPart (hparts _ (by simp)) fun n _ => traces_orHole (traces_duration n)).bind
    fun time htime => ?_
  refine traced_delay.bind fun late hlate => ?_
  refine (traced_readPart (hparts _ (by simp)) fun n _ => traces_orHole (traces_cubicBezier n)).bind
    fun curve hcurve => ?_
  refine reports_ok (comesFrom_object ?_)
  simp [htime, hlate, hcurve]

theorem traces_property {t : Tree} {name : String}
    (hweight : name = "fontWeight" → Traces F fontWeight t) : Traces F (property name) t := by
  unfold Traces property
  split
  · exact traces_fontFamily t
  · exact traces_dimension t
  · exact hweight rfl
  · exact traces_dimension t
  · split
    · exact reports_ok (comesFrom_scalar _)
    · exact traces_dimension t
  · split
    · exact reports_ok (comesFrom_scalar _)
    · exact reports_ok (comesFrom_scalar _)
    · exact reports_ok (comesFrom_scalar _)
    · exact traced_failKind .here

theorem traced_readProperty {t : Tree} {m : Key × Tree} (hm : m.2.Inside t)
    (hweight : m.1.name = "fontWeight" → Traces F fontWeight m.2) :
    Traced F t (readProperty m) fun v => v.2.ComesFrom t := by
  have hvalue : Traced F t (do
      match ← hole? (Members.get? m.1.name typographyTypes) false m.2 with
      | some h => return .hole h
      | none => property m.1.name m.2) (·.ComesFrom t) :=
    traced_hole hm ((traces_property hweight).inside hm)
  have hread : readProperty m = (do
      match ← hole? (Members.get? m.1.name typographyTypes) false m.2 with
      | some h => return .hole h
      | none => property m.1.name m.2) >>= fun v => return (m.1.name, v) := by
    rw [readProperty, bind_assoc]
    congr 1
    funext found
    cases found <;> rfl
  rw [hread]
  exact hvalue.bind fun v hv => reports_ok hv

theorem traces_typography (t : Tree) : Traces (Overflows .typography t) typography t := by
  unfold Traces typography
  split
  · split
    · exact traced_fail rfl .here
    · exact reports_ok (comesFrom_scalar _)
  · rename_i ms _ hms
    rw [properties_eq]
    refine (reports_mapM fun m hm => ?_).map fun _ => comesFrom_object
    have hmem := Tree.mem_members_of_members? hms hm
    exact traced_readProperty (Tree.inside_of_mem_members hmem) fun hname =>
      (traces_fontWeight m.2).weaken (Overflows.imp fun _ => .property hmem hname)
  · exact traced_failKind .here

/-! ## All types -/

theorem traces_literal (type : TokenType) (t : Tree) :
    Traces (Overflows type t) (literal type) t := by
  cases type with
  | boolean => exact traces_boolean t
  | border => exact traces_border t
  | color => exact traces_color t
  | cubicBezier => exact traces_cubicBezier t
  | dimension => exact traces_dimension t
  | duration => exact traces_duration t
  | fontFamily => exact traces_fontFamily t
  | fontWeight => exact traces_fontWeight t
  | gradient => exact traces_gradient t
  | link => exact traces_link t
  | number => exact traces_number t
  | shadow => exact traces_shadow t
  | string => exact traces_string t
  | strokeStyle => exact traces_strokeStyle t
  | transition => exact traces_transition t
  | typography => exact traces_typography t

/-- The issues of values point into their nodes, holes come from texts there, and the only fault is
an integer that is too large where it is converted. -/
theorem traces_value (type : TokenType) (t : Tree) : Traces (Overflows type t) (value type) t :=
  traces_orHole (traces_literal type t)

/-! ## How values fail -/

/-- Reading a value succeeds, or it reports an issue, unless an integer is converted that is too
large for double precision. -/
theorem value_outcome (type : TokenType) (t : Tree) :
    (∃ v, value type t = .ok v) ∨ (∃ i, value type t = .error (.issue i)) ∨
      (value type t = .error (.fault .tooLarge) ∧
        ∃ i, Converts type t i ∧ (2 ^ 54 - 1) * 2 ^ 970 ≤ i.natAbs) := by
  cases hvalue : value type t with
  | ok v => exact .inl ⟨v, rfl⟩
  | error failure =>
    cases failure with
    | issue i => exact .inr (.inl ⟨i, rfl⟩)
    | fault fault =>
      obtain ⟨rfl, i, hi, hlarge⟩ := (traces_value type t).fault fault hvalue
      exact .inr (.inr ⟨rfl, i, hi, Binary64.ofInt?_eq_none_iff.mp hlarge⟩)

/-- A weight that is too large for double precision is a fault, though it is out of range. -/
theorem value_large_weight {i : Int} (hlarge : (2 ^ 54 - 1) * 2 ^ 970 ≤ i.natAbs) (span : Span) :
    value .fontWeight (.scalar (.int i) span) = .error (.fault .tooLarge) := by
  have hintegral : integral? (.int i) = .error .tooLarge := by
    rw [integral?, Binary64.ofInt?_eq_none_iff.mpr hlarge]
    rfl
  have hnumber : (Tree.scalar (.int i) span).number? = some (.int i) := rfl
  show fontWeight (.scalar (.int i) span) = _
  simp only [fontWeight, hnumber, hintegral]

/-- For instance, the weight of a one and four hundred zeros is neither read nor an issue. -/
theorem value_outcome_large :
    value .fontWeight (.scalar (.int (10 ^ 400)) .origin) = .error (.fault .tooLarge) :=
  value_large_weight (by decide +kernel) .origin

end Grammar

end DesignTokens
