import DesignTokens.Proofs.Value.Families
import DesignTokens.Proofs.Value.Rereading

/-!
# Values that could have been written

Data is accepted as a value of a type when the grammar reads it without a reference and keeps it as
it is.  Filling the references of a literal gives such data whenever each reference stands for such
data (`writes_literal`), with two exceptions: a dash cannot be written as a bare zero, and a
property of a font that is not known can be written as a text or a number only.
-/

namespace DesignTokens.Grammar

open Outcome Template

/-! ## Accepted data -/

/-- Data that the grammar of a type reads without a reference, and keeps as it is. -/
def Accepts (type : TokenType) (d : Data) : Prop :=
  ∃ t, value type d.tree = .ok t ∧ t.Solid ∧ t.written = d

/-- Data of a solid template of a kind. -/
def Writes (P : Template → Prop) (d : Data) : Prop := ∃ t, P t ∧ t.Solid ∧ t.written = d

/-- What a literal without references writes is accepted. -/
theorem accepts_of_writes {type : TokenType} {d : Data} (h : Writes (Literal type) d) :
    Accepts type d := by
  obtain ⟨t, hliteral, hsolid, rfl⟩ := h
  exact ⟨t, by rw [value_written (.inr hliteral), atOrigin_of_solid hsolid], hsolid, rfl⟩

/-- Where the dashes of a value of a type are. -/
def dashesPath : TokenType → Option (List Step)
  | .strokeStyle => some [.field "dashArray"]
  | .border => some [.field "style", .field "dashArray"]
  | _ => none

/-- Data that is no truth value, no list and no object. -/
def IsTextOrNumber (d : Data) : Prop :=
  (∃ s, d = .text s) ∨ ∃ n : Scalar, d = .scalar n ∧ n.isNumber = true

/-- No dash is a bare zero, and every property of a font that is not known is a text or a number. -/
structure Plain (type : TokenType) (d : Data) : Prop where
  dashes : ∀ path, dashesPath type = some path → ∀ items, d.at? path = some (.list items) →
    .scalar (.int 0) ∉ items
  properties : type = .typography → ∀ members, d = .object members → ∀ m ∈ members,
    Members.get? m.1 typographyTypes = none → IsTextOrNumber m.2

/-- Most types have no dashes and no properties. -/
theorem plain_of_other {type : TokenType} (hdashes : dashesPath type = none)
    (htypography : type ≠ .typography) (d : Data) : Plain type d :=
  ⟨by simp [hdashes], fun h => absurd h htypography⟩

theorem plain_of_scalar (type : TokenType) (s : Scalar) : Plain type (.scalar s) := by
  refine ⟨fun path hpath items hitems => ?_, by simp⟩
  cases type <;> simp [dashesPath] at hpath <;> subst hpath <;> simp [Data.at?] at hitems

/-! ## References that fit -/

variable {value : Reference → Except Fault Data} {t : Template} {d : Data} {type : TokenType}

/-- A hole stands for data of a type that it accepts, and the data is written by a literal unless it
is one of the exceptions. -/
def Fits (value : Reference → Except Fault Data) (h : Hole) : Prop :=
  ∃ c type, value h.reference = .ok c ∧
    (∀ types, h.accepted = some types → type ∈ types) ∧ (Plain type c → Writes (Literal type) c)

theorem writes_of_hole {accepted : List TokenType} {spliced : Bool}
    (ht : IsHole (some accepted) spliced t) (hfits : ∀ h, t.HasHole h → Fits value h)
    (hd : fill value t = .ok d) (hplain : ∀ type ∈ accepted, Plain type d) :
    ∃ type ∈ accepted, Writes (Literal type) d := by
  cases ht
  obtain ⟨c, type, hc, htypes, hwrites⟩ := hfits _ (hasHole_hole.mpr rfl)
  obtain rfl : c = d := Except.ok.inj (hc.symm.trans hd)
  have hin : type ∈ accepted := htypes _ rfl
  exact ⟨type, hin, hwrites (hplain type hin)⟩

/-- A part is written: by the literal that its reference stands for, or as it is. -/
theorem writes_of_orHole (type : TokenType) (ht : OrHole (some [type]) (Literal type) t)
    (hfits : ∀ h, t.HasHole h → Fits value h) (hd : fill value t = .ok d) (hplain : Plain type d)
    (hvalue : Literal type t → Writes (Literal type) d) : Writes (Literal type) d := by
  rcases ht with hhole | hliteral
  · obtain ⟨found, hin, hwrites⟩ := writes_of_hole hhole hfits hd
      (by simpa using hplain)
    rw [List.mem_singleton] at hin
    exact hin ▸ hwrites
  · exact hvalue hliteral

/-- What is solid writes its own data. -/
theorem writes_of_solid {P : Template → Prop} (h : P t) (hsolid : t.Solid)
    (hd : fill value t = .ok d) : Writes P d :=
  ⟨t, h, hsolid, Except.ok.inj ((fill_of_solid hsolid).symm.trans hd)⟩

theorem solid_of_scalar (h : ∃ s, t = .scalar s) : t.Solid := by
  obtain ⟨s, rfl⟩ := h
  exact solid_scalar s

/-- Items that are written one by one are written together. -/
theorem writes_items {P : Template → Prop} {items : List Template} {ds : List Data}
    (h : List.Forall₂ (fun t d => fill value t = .ok d) items ds)
    (hitem : ∀ t ∈ items, ∀ d ∈ ds, fill value t = .ok d → Writes P d) :
    ∃ us : List Template, (∀ u ∈ us, P u ∧ u.Solid) ∧ us.map written = ds := by
  induction h with
  | nil => exact ⟨[], by simp, rfl⟩
  | @cons t d ts ds hd _ ih =>
    obtain ⟨u, hu, hsolid, rfl⟩ := hitem t List.mem_cons_self d List.mem_cons_self hd
    obtain ⟨us, hus, rfl⟩ := ih fun t ht d hd =>
      hitem t (List.mem_cons_of_mem _ ht) d (List.mem_cons_of_mem _ hd)
    exact ⟨u :: us, List.forall_mem_cons.mpr ⟨⟨hu, hsolid⟩, hus⟩, rfl⟩

/-- Types whose literals have no references inside. -/
def IsFlat : TokenType → Prop
  | .border | .cubicBezier | .fontFamily | .gradient | .shadow | .strokeStyle | .transition
  | .typography => False
  | _ => True

theorem solid_of_literal (type : TokenType) (hflat : IsFlat type) (h : Literal type t) :
    t.Solid := by
  cases type with
  | boolean => exact solid_of_scalar (scalar_of_isBoolean h)
  | color => exact solid_of_isColor h
  | dimension => exact solid_of_scalar (scalar_of_isDimension h)
  | duration => exact solid_of_scalar (scalar_of_isDuration h)
  | fontWeight =>
    obtain ⟨i, rfl, -⟩ := h
    exact solid_scalar _
  | link =>
    obtain ⟨s, rfl, -⟩ := h
    exact solid_scalar _
  | number => exact solid_of_scalar (scalar_of_isNumber h)
  | string =>
    obtain ⟨s, rfl, -⟩ := h
    exact solid_scalar _
  | _ => exact hflat.elim

theorem plain_of_flat (type : TokenType) (hflat : IsFlat type) (d : Data) : Plain type d := by
  refine plain_of_other ?_ ?_ d
  · cases type <;> first | rfl | exact hflat.elim
  · rintro rfl
    exact hflat

/-- A part of a flat type is written as its reference stands for it, or as it is. -/
theorem writes_flat (type : TokenType) (hflat : IsFlat type)
    (ht : OrHole (some [type]) (Literal type) t) (hfits : ∀ h, t.HasHole h → Fits value h)
    (hd : fill value t = .ok d) : Writes (Literal type) d :=
  writes_of_orHole type ht hfits hd (plain_of_flat type hflat d) fun hliteral =>
    writes_of_solid hliteral (solid_of_literal type hflat hliteral) hd

/-! ## Lists -/

theorem fits_item {items : List Template}
    (hfits : ∀ h, (Template.list items).HasHole h → Fits value h) (ht : t ∈ items) :
    ∀ h, t.HasHole h → Fits value h :=
  fun h hh => hfits h (hasHole_list.mpr ⟨t, ht, hh⟩)

theorem list_of_fill {items : List Template} (hspliced : ∀ g, .hole g ∈ items → g.spliced = false)
    (hd : fill value (.list items) = .ok d) :
    ∃ ds, List.Forall₂ (fun t d => fill value t = .ok d) items ds ∧ d = .list ds := by
  obtain ⟨ds, hds, rfl⟩ := map_eq_ok.mp hd
  exact ⟨ds, (fillItems_of_unspliced hspliced).mp hds, rfl⟩

theorem writes_curve (ht : IsCurve t) (hfits : ∀ h, t.HasHole h → Fits value h)
    (hd : fill value t = .ok d) : Writes IsCurve d := by
  obtain ⟨items, rfl, hfour, hall⟩ := ht
  obtain ⟨ds, hds, rfl⟩ := list_of_fill (unspliced_of_orHole hall fun _ => scalar_of_isNumber) hd
  obtain ⟨us, hus, rfl⟩ := writes_items (P := IsNumber) hds fun t ht d _ hd =>
    writes_flat .number trivial (hall t ht) (fits_item hfits ht) hd
  have hlength : us.length = 4 := by
    rw [← hfour, hds.length_eq, List.length_map]
  exact ⟨.list us, ⟨us, rfl, hlength, fun u hu => .inr (hus u hu).1⟩,
    solid_list.mpr fun u hu => (hus u hu).2, written_list us⟩

/-- A dash is written as a length, unless its reference stands for a bare zero. -/
theorem writes_dash (ht : IsDash t) (hfits : ∀ h, t.HasHole h → Fits value h)
    (hd : fill value t = .ok d) (hzero : d ≠ .scalar (.int 0)) :
    Writes (fun t => ∃ s, t = .text s ∧ IsLength s) d := by
  -- a reference may stand for any dimension, also for a bare zero
  have hdimension : Writes IsDimension d :=
    writes_flat .dimension trivial (ht.imp_right .inr) hfits hd
  obtain ⟨u, rfl | hlength, hsolid, rfl⟩ := hdimension
  · exact absurd (written_scalar _) hzero
  · exact ⟨u, hlength, hsolid, rfl⟩

/-! ## Objects -/

theorem fits_member {members : List (String × Template)}
    (hfits : ∀ h, (Template.object members).HasHole h → Fits value h) (name : String)
    (hm : (name, t) ∈ members) : ∀ h, t.HasHole h → Fits value h :=
  fun h hh => hfits h (hasHole_object.mpr ⟨_, hm, hh⟩)

theorem object_of_fill {members : List (String × Template)}
    (hd : fill value (.object members) = .ok d) :
    ∃ ds, List.Forall₂ (fun m d => d.1 = m.1 ∧ fill value m.2 = .ok d.2) members ds ∧
      d = .object ds := by
  obtain ⟨ds, hds, rfl⟩ := map_eq_ok.mp hd
  exact ⟨ds, fillMembers_eq_ok.mp hds, rfl⟩

/-- A member of a flat type is written. -/
theorem writes_member {members : List (String × Template)}
    (hfits : ∀ h, (Template.object members).HasHole h → Fits value h) (type : TokenType)
    (hflat : IsFlat type) (name : String) (hm : (name, t) ∈ members)
    (ht : OrHole (some [type]) (Literal type) t) (hd : fill value t = .ok d) :
    Writes (Literal type) d :=
  writes_flat type hflat ht (fits_member hfits name hm) hd

theorem writes_stroke (ht : IsStroke t) (hfits : ∀ h, t.HasHole h → Fits value h)
    (hd : fill value t = .ok d) (hplain : Plain .strokeStyle d) : Writes IsStroke d := by
  -- a named style, or a line with dashes
  rcases ht with ⟨s, rfl, hs⟩ | ⟨cap, dashes, rfl, hcap, hall⟩
  · exact writes_of_solid (.inl ⟨s, rfl, hs⟩) (solid_scalar _) hd
  · obtain ⟨ds, hds, rfl⟩ := object_of_fill hd
    simp only [List.forall₂_cons_left_iff, List.forall₂_nil_left_iff] at hds
    obtain ⟨⟨_, c⟩, _, ⟨rfl, hc⟩, ⟨⟨_, e⟩, _, ⟨rfl, he⟩, rfl, rfl⟩, rfl⟩ := hds
    obtain rfl := Except.ok.inj hc
    obtain ⟨ds, hds, rfl⟩ := list_of_fill
      (unspliced_of_orHole hall (by rintro t ⟨s, rfl, -⟩; exact ⟨_, rfl⟩)) he
    -- the exception for the whole value is one for its dashes
    have hzero : .scalar (.int 0) ∉ ds := hplain.dashes _ rfl ds (by simp [Data.at?, Members.get?])
    have hlist := fits_member hfits "dashArray" (List.mem_cons_of_mem _ List.mem_cons_self)
    obtain ⟨us, hus, rfl⟩ := writes_items hds fun t ht d hd hfill =>
      writes_dash (hall t ht) (fits_item hlist ht) hfill (ne_of_mem_of_not_mem hd hzero)
    refine ⟨.object [("lineCap", .text cap), ("dashArray", .list us)],
      .inr ⟨cap, us, rfl, hcap, fun u hu => .inr (hus u hu).1⟩, ?_, by simp⟩
    simpa using fun u hu => (hus u hu).2

/-- The style of a line around a box has the dashes of the line. -/
theorem Plain.style {c w e : Data}
    (h : Plain .border (.object [("color", c), ("width", w), ("style", e)])) :
    Plain .strokeStyle e := by
  refine ⟨fun path hpath items hitems => ?_, by simp⟩
  obtain rfl := Option.some.inj hpath
  exact h.dashes _ rfl items (by simpa [Data.at?, Members.get?] using hitems)

theorem writes_border (ht : IsBorder t) (hfits : ∀ h, t.HasHole h → Fits value h)
    (hd : fill value t = .ok d) (hplain : Plain .border d) : Writes IsBorder d := by
  obtain ⟨c, w, s, rfl, hc, hw, hs⟩ := ht
  obtain ⟨ds, hds, rfl⟩ := object_of_fill hd
  simp only [List.forall₂_cons_left_iff, List.forall₂_nil_left_iff] at hds
  obtain ⟨⟨_, dc⟩, _, ⟨rfl, hdc⟩, ⟨⟨_, dw⟩, _, ⟨rfl, hdw⟩, ⟨⟨_, de⟩, _, ⟨rfl, hde⟩, rfl, rfl⟩,
    rfl⟩, rfl⟩ := hds
  obtain ⟨c', hc', hcs, rfl⟩ := writes_member hfits .color trivial "color" (by simp) hc hdc
  obtain ⟨w', hw', hws, rfl⟩ := writes_member hfits .dimension trivial "width" (by simp) hw hdw
  have hstyle := fits_member hfits "style" (t := s) (by simp)
  -- the style can have dashes, which the exception for the border is about
  obtain ⟨s', hs', hss, rfl⟩ := writes_of_orHole .strokeStyle hs hstyle hde hplain.style
    fun hstroke => writes_stroke hstroke hstyle hde hplain.style
  exact ⟨.object [("color", c'), ("width", w'), ("style", s')],
    ⟨c', w', s', rfl, .inr hc', .inr hw', .inr hs'⟩, by simp [hcs, hws, hss], by simp⟩

theorem writes_stop (ht : IsStop t) (hfits : ∀ h, t.HasHole h → Fits value h)
    (hd : fill value t = .ok d) : Writes IsStop d := by
  obtain ⟨c, p, rfl, hc, hp⟩ := ht
  obtain ⟨ds, hds, rfl⟩ := object_of_fill hd
  simp only [List.forall₂_cons_left_iff, List.forall₂_nil_left_iff] at hds
  obtain ⟨⟨_, dc⟩, _, ⟨rfl, hdc⟩, ⟨⟨_, dp⟩, _, ⟨rfl, hdp⟩, rfl, rfl⟩, rfl⟩ := hds
  obtain ⟨c', hc', hcs, rfl⟩ := writes_member hfits .color trivial "color" (by simp) hc hdc
  obtain ⟨p', hp', hps, rfl⟩ := writes_member hfits .number trivial "position" (by simp) hp hdp
  exact ⟨.object [("color", c'), ("position", p')], ⟨c', p', rfl, .inr hc', .inr hp'⟩,
    by simp [hcs, hps], by simp⟩

/-- A list of literals that are no holes is written item by item. -/
theorem writes_list {P : Template → Prop} (hhole : ∀ g, ¬ P (.hole g)) {items : List Template}
    (hall : ∀ t ∈ items, P t)
    (hitem : ∀ t ∈ items, ∀ d, fill value t = .ok d → Writes P d)
    (hd : fill value (.list items) = .ok d) :
    Writes (fun t => ∃ us, t = .list us ∧ ∀ u ∈ us, P u) d := by
  obtain ⟨ds, hds, rfl⟩ := list_of_fill (fun g hg => absurd (hall _ hg) (hhole g)) hd
  obtain ⟨us, hus, rfl⟩ := writes_items hds fun t ht d _ hd => hitem t ht d hd
  exact ⟨.list us, ⟨us, rfl, fun u hu => (hus u hu).1⟩, solid_list.mpr fun u hu => (hus u hu).2,
    written_list us⟩

theorem writes_gradient (ht : IsGradient t) (hfits : ∀ h, t.HasHole h → Fits value h)
    (hd : fill value t = .ok d) : Writes IsGradient d := by
  obtain ⟨stops, rfl, hall⟩ := ht
  exact writes_list not_isStop_hole hall
    (fun t ht _ hd => writes_stop (hall t ht) (fits_item hfits ht) hd) hd

/-- A member that need not be there is written when it is. -/
theorem writes_optional {P : Template → Prop} {name : String} {o : Option Template}
    {ds : Members Data}
    (hds : List.Forall₂ (fun m d => d.1 = m.1 ∧ fill value m.2 = .ok d.2)
      (Members.optional name o) ds)
    (hvalue : ∀ t, o = some t → ∀ d, fill value t = .ok d → Writes P d) :
    ∃ o' : Option Template, (∀ u, o' = some u → P u) ∧ (∀ m ∈ Members.optional name o', m.2.Solid) ∧
      ds = (Members.optional name o').map fun m => (m.1, m.2.written) := by
  cases o with
  | none =>
    rw [show Members.optional name none = [] from rfl, List.forall₂_nil_left_iff] at hds
    exact ⟨none, by simp, by simp [Members.optional], hds⟩
  | some t =>
    rw [show Members.optional name (some t) = [(name, t)] from rfl] at hds
    simp only [List.forall₂_cons_left_iff, List.forall₂_nil_left_iff] at hds
    obtain ⟨⟨_, d⟩, _, ⟨rfl, hd⟩, rfl, rfl⟩ := hds
    obtain ⟨u, hu, hsolid, rfl⟩ := hvalue t rfl d hd
    exact ⟨some u, by simpa using hu, by simpa [Members.optional] using hsolid, rfl⟩

theorem writes_layer (ht : IsLayer t) (hfits : ∀ h, t.HasHole h → Fits value h)
    (hd : fill value t = .ok d) : Writes IsLayer d := by
  obtain ⟨c, x, y, b, spread, inset, rfl, hc, hx, hy, hb, hspread, hinset⟩ := ht
  obtain ⟨ds, hds, rfl⟩ := object_of_fill hd
  -- the members that are always there, the spread and the inset fall apart
  obtain ⟨fixed, others, rfl, hfixed, hothers⟩ := exists_append hds
  obtain ⟨ss, is, rfl, hss, his⟩ := exists_append hothers
  simp only [List.forall₂_cons_left_iff, List.forall₂_nil_left_iff] at hfixed
  obtain ⟨⟨_, dc⟩, _, ⟨rfl, hdc⟩, ⟨⟨_, dx⟩, _, ⟨rfl, hdx⟩, ⟨⟨_, dy⟩, _, ⟨rfl, hdy⟩, ⟨⟨_, db⟩, _,
    ⟨rfl, hdb⟩, rfl, rfl⟩, rfl⟩, rfl⟩, rfl⟩ := hfixed
  obtain ⟨c', hc', hcs, rfl⟩ := writes_member hfits .color trivial "color" (by simp) hc hdc
  obtain ⟨x', hx', hxs, rfl⟩ := writes_member hfits .dimension trivial "offsetX" (by simp) hx hdx
  obtain ⟨y', hy', hys, rfl⟩ := writes_member hfits .dimension trivial "offsetY" (by simp) hy hdy
  obtain ⟨b', hb', hbs, rfl⟩ := writes_member hfits .dimension trivial "blur" (by simp) hb hdb
  obtain ⟨spread', hspread', hsolid, rfl⟩ := writes_optional (P := IsDimension) hss
    fun s hs d hd => writes_member hfits .dimension trivial "spread"
      (by simp [hs, Members.optional]) (hspread s hs) hd
  obtain ⟨inset', hinset', hsolid', rfl⟩ := writes_optional (P := IsBoolean) his
    fun i hi d hd => writes_member hfits .boolean trivial "inset"
      (by simp [hi, Members.optional]) (hinset i hi) hd
  refine ⟨.object ([("color", c'), ("offsetX", x'), ("offsetY", y'), ("blur", b')] ++
      (Members.optional "spread" spread' ++ Members.optional "inset" inset')),
    ⟨c', x', y', b', spread', inset', rfl, .inr hc', .inr hx', .inr hy', .inr hb',
      fun s hs => .inr (hspread' s hs), fun i hi => .inr (hinset' i hi)⟩, ?_, by simp⟩
  simp only [solid_object, List.forall_mem_append, List.forall_mem_cons]
  exact ⟨⟨hcs, hxs, hys, hbs, by simp⟩, hsolid, hsolid'⟩

theorem writes_shadow (ht : IsShadow t) (hfits : ∀ h, t.HasHole h → Fits value h)
    (hd : fill value t = .ok d) : Writes IsShadow d := by
  obtain ⟨layers, rfl, hall⟩ := ht
  exact writes_list not_isLayer_hole hall
    (fun t ht _ hd => writes_layer (hall t ht) (fits_item hfits ht) hd) hd

theorem writes_transition (ht : IsTransition t) (hfits : ∀ h, t.HasHole h → Fits value h)
    (hd : fill value t = .ok d) : Writes IsTransition d := by
  obtain ⟨a, e, c, rfl, ha, he, hc⟩ := ht
  obtain ⟨ds, hds, rfl⟩ := object_of_fill hd
  simp only [List.forall₂_cons_left_iff, List.forall₂_nil_left_iff] at hds
  obtain ⟨⟨_, da⟩, _, ⟨rfl, hda⟩, ⟨⟨_, de⟩, _, ⟨rfl, hde⟩, ⟨⟨_, dc⟩, _, ⟨rfl, hdc⟩, rfl, rfl⟩,
    rfl⟩, rfl⟩ := hds
  obtain ⟨a', ha', has, rfl⟩ := writes_member hfits .duration trivial "duration" (by simp) ha hda
  obtain ⟨e', he', hes, rfl⟩ := writes_member hfits .duration trivial "delay" (by simp) he hde
  -- the curve is the one part with references inside
  have hcurve := fits_member hfits "timingFunction" (t := c) (by simp)
  obtain ⟨c', hc', hcs, rfl⟩ := writes_of_orHole .cubicBezier hc hcurve hdc
    (plain_of_other rfl (by simp) dc) fun hvalue => writes_curve hvalue hcurve hdc
  exact ⟨.object [("duration", a'), ("delay", e'), ("timingFunction", c')],
    ⟨a', e', c', rfl, .inr ha', .inr he', .inr hc'⟩, by simp [has, hes, hcs], by simp⟩

/-! ## Fonts -/

/-- What a slot of a list of families adds are families, and at least one. -/
theorem writes_slot {cs : List Data} (hadds : Adds value t cs) (ht : IsFamily t)
    (hfits : ∀ h, t.HasHole h → Fits value h) :
    ∃ us : List Template, us ≠ [] ∧ (∀ u ∈ us, IsFamily u ∧ u.Solid) ∧ us.map written = cs := by
  cases hadds with
  | hole h cs hcs =>
    rcases ht with hhole | ⟨s, hs, -⟩
    · have hd : fill value (.hole h) = .ok (.list cs) := hcs
      obtain ⟨type, hin, hwrites⟩ := writes_of_hole hhole hfits hd fun type hin =>
        (List.mem_singleton.mp hin) ▸ plain_of_other rfl (by simp) _
      obtain rfl := List.mem_singleton.mp hin
      obtain ⟨u, ⟨us, rfl, hne, hall⟩, hsolid, hwritten⟩ := hwrites
      rw [written_list, Data.list.injEq] at hwritten
      exact ⟨us, hne, fun u hu => ⟨hall u hu, solid_list.mp hsolid u hu⟩, hwritten⟩
    · cases hs
  | family s hne hclosed =>
    refine ⟨[.text s], by simp, ?_, by simp⟩
    simpa using .inr ⟨s, rfl, hclosed, hne⟩

/-- What the slots of a list of families add are families, and at least one for each slot. -/
theorem writes_slots {items : List Template} {slots : List (List Data)}
    (hslots : List.Forall₂ (Adds value) items slots) (hall : ∀ t ∈ items, IsFamily t)
    (hfits : ∀ t ∈ items, ∀ h, t.HasHole h → Fits value h) :
    ∃ us : List Template, (items ≠ [] → us ≠ []) ∧ (∀ u ∈ us, IsFamily u ∧ u.Solid) ∧
      us.map written = slots.flatten := by
  induction hslots with
  | nil => exact ⟨[], by simp, by simp, rfl⟩
  | @cons t cs ts slots hadds _ ih =>
    obtain ⟨us, hne, hus, rfl⟩ := writes_slot hadds (hall t List.mem_cons_self)
      (hfits t List.mem_cons_self)
    obtain ⟨vs, -, hvs, hvslots⟩ := ih (fun u hu => hall u (List.mem_cons_of_mem _ hu))
      fun u hu => hfits u (List.mem_cons_of_mem _ hu)
    exact ⟨us ++ vs, by simp [hne], List.forall_mem_append.mpr ⟨hus, hvs⟩, by simp [hvslots]⟩

/-- A slot that is a reference stands for a list of families. -/
theorem list_of_fits {h : Hole} (hh : IsFamily (.hole h)) (hfits : Fits value h) :
    ∃ cs, value h.reference = .ok (.list cs) := by
  obtain ⟨c, type, hc, htypes, hwrites⟩ := hfits
  obtain rfl := List.mem_singleton.mp (htypes _ (accepted_of_isFamily hh))
  obtain ⟨u, ⟨us, rfl, -⟩, -, rfl⟩ := hwrites (plain_of_other rfl (by simp) c)
  exact ⟨_, by rw [hc, written_list]⟩

theorem writes_families (ht : IsFamilies t) (hfits : ∀ h, t.HasHole h → Fits value h)
    (hd : fill value t = .ok d) : Writes IsFamilies d := by
  obtain ⟨items, rfl, hne, hall⟩ := ht
  obtain ⟨slots, hslots, hfill⟩ := fill_families hall fun h hh =>
    list_of_fits (hall _ hh) (fits_item hfits hh h (hasHole_hole.mpr rfl))
  obtain rfl := Except.ok.inj (hfill.symm.trans hd)
  obtain ⟨us, hnonempty, hus, hflatten⟩ := writes_slots hslots hall fun t ht => fits_item hfits ht
  exact ⟨.list us, ⟨us, rfl, hnonempty hne, fun u hu => (hus u hu).1⟩,
    solid_list.mpr fun u hu => (hus u hu).2, by rw [written_list, hflatten]⟩

/-- The types of the known properties of a font: their literals are properties, and none of them has
dashes or properties itself. -/
theorem known_property {name : String} {types : List TokenType}
    (hname : Members.get? name typographyTypes = some types) (htype : type ∈ types) :
    (∀ t, Literal type t → IsProperty name t) ∧ ∀ d, Plain type d := by
  have hmem := Members.mem_of_get? hname
  simp only [typographyTypes, List.mem_cons, Prod.mk.injEq, List.not_mem_nil, or_false] at hmem
  obtain ⟨rfl, rfl⟩ | ⟨rfl, rfl⟩ | ⟨rfl, rfl⟩ | ⟨rfl, rfl⟩ | ⟨rfl, rfl⟩ := hmem
  · obtain rfl := List.mem_singleton.mp htype
    exact ⟨fun t h => h, plain_of_other rfl (by simp)⟩
  · obtain rfl := List.mem_singleton.mp htype
    exact ⟨fun t h => h, plain_of_flat _ trivial⟩
  · obtain rfl := List.mem_singleton.mp htype
    exact ⟨fun t h => h, plain_of_flat _ trivial⟩
  · obtain rfl := List.mem_singleton.mp htype
    exact ⟨fun t h => h, plain_of_flat _ trivial⟩
  · simp only [List.mem_cons, List.not_mem_nil, or_false] at htype
    obtain rfl | rfl := htype
    · exact ⟨fun t h => .inl h, plain_of_flat _ trivial⟩
    · exact ⟨fun t h => .inr h, plain_of_flat _ trivial⟩

/-- A property that is not known is a text or a number. -/
theorem isProperty_unknown {name : String} (hname : Members.get? name typographyTypes = none) :
    IsProperty name t ↔ IsString t ∨ IsNumber t := by
  unfold IsProperty
  split
  · exact absurd hname (by decide)
  · exact absurd hname (by decide)
  · exact absurd hname (by decide)
  · exact absurd hname (by decide)
  · exact absurd hname (by decide)
  · exact Iff.rfl

/-- The text of a literal does not open like a reference. -/
theorem closed_of_writes {s : String} (h : Writes (Literal type) (.text s)) : Closed s := by
  obtain ⟨t, hliteral, -, hwritten⟩ := h
  refine (rereads_literal hliteral).closed s ?_
  rw [hwritten]
  rfl

theorem writes_property {name : String}
    (ht : OrHole (Members.get? name typographyTypes) (IsProperty name) t)
    (hfits : ∀ h, t.HasHole h → Fits value h) (hd : fill value t = .ok d)
    (hplain : Members.get? name typographyTypes = none → IsTextOrNumber d) :
    Writes (IsProperty name) d := by
  rcases ht with hhole | hproperty
  · cases hname : Members.get? name typographyTypes with
    | some types =>
      obtain ⟨type, hin, u, hu, hsolid, hwritten⟩ := writes_of_hole (hname ▸ hhole) hfits hd
        fun type hin => (known_property hname hin).2 d
      exact ⟨u, (known_property hname hin).1 u hu, hsolid, hwritten⟩
    | none =>
      rcases hplain hname with ⟨s, rfl⟩ | ⟨n, rfl, hn⟩
      · -- any type may stand here, but a text is closed whatever its type
        cases hhole with
        | intro r span hr =>
          obtain ⟨c, type, hc, -, hwrites⟩ := hfits _ (hasHole_hole.mpr rfl)
          obtain rfl : c = .text s := Except.ok.inj (hc.symm.trans hd)
          have hclosed := closed_of_writes (hwrites (plain_of_scalar type _))
          exact ⟨.text s, (isProperty_unknown hname).mpr (.inl ⟨s, rfl, hclosed⟩), solid_scalar _,
            written_scalar _⟩
      · exact ⟨.scalar n, (isProperty_unknown hname).mpr (.inr ⟨n, rfl, hn⟩), solid_scalar _,
          written_scalar _⟩
  · -- only a list of families has references inside
    by_cases hname : name = "fontFamily"
    · subst hname
      exact writes_families hproperty hfits hd
    · exact writes_of_solid hproperty (solid_of_scalar (scalar_of_isProperty hname hproperty)) hd

/-- Properties that are written one by one are written together, under their names. -/
theorem writes_properties {members : List (String × Template)} {ds : Members Data}
    (hds : List.Forall₂ (fun m d => d.1 = m.1 ∧ fill value m.2 = .ok d.2) members ds)
    (hproperty : ∀ m ∈ members, ∀ d, (m.1, d) ∈ ds → fill value m.2 = .ok d →
      Writes (IsProperty m.1) d) :
    ∃ us : List (String × Template), Members.names us = Members.names members ∧
      (∀ u ∈ us, IsProperty u.1 u.2 ∧ u.2.Solid) ∧ us.map (fun u => (u.1, u.2.written)) = ds := by
  induction hds with
  | nil => exact ⟨[], rfl, by simp, rfl⟩
  | @cons m d ms ds hm _ ih =>
    obtain ⟨name, t⟩ := m
    obtain ⟨name', d⟩ := d
    obtain ⟨rfl, hfill⟩ := hm
    obtain ⟨u, hu, hsolid, rfl⟩ :=
      hproperty _ List.mem_cons_self d List.mem_cons_self hfill
    obtain ⟨us, hnames, hus, rfl⟩ := ih fun m hm d hd =>
      hproperty m (List.mem_cons_of_mem _ hm) d (List.mem_cons_of_mem _ hd)
    refine ⟨(name', u) :: us, ?_, List.forall_mem_cons.mpr ⟨⟨hu, hsolid⟩, hus⟩, rfl⟩
    rw [Members.names, Members.names] at hnames ⊢
    rw [List.map_cons, List.map_cons, hnames]

theorem writes_typography (ht : IsTypography t) (hfits : ∀ h, t.HasHole h → Fits value h)
    (hd : fill value t = .ok d) (hplain : Plain .typography d) : Writes IsTypography d := by
  rcases ht with ⟨s, rfl, hclosed, hne⟩ | ⟨members, rfl, hnodup, hall⟩
  · exact writes_of_solid (.inl ⟨s, rfl, hclosed, hne⟩) (solid_scalar _) hd
  · obtain ⟨ds, hds, rfl⟩ := object_of_fill hd
    obtain ⟨us, hnames, hus, rfl⟩ := writes_properties hds fun m hm d hd hfill =>
      writes_property (hall m hm) (fits_member hfits m.1 hm) hfill
        (hplain.properties rfl ds rfl (m.1, d) hd)
    exact ⟨.object us, .inr ⟨us, rfl, hnames ▸ hnodup, fun u hu => .inr (hus u hu).1⟩,
      solid_object.mpr fun u hu => (hus u hu).2, written_object us⟩

/-! ## All types -/

/-- The data of a literal whose references fit is written by a literal, unless it is one of the
exceptions. -/
theorem writes_literal (ht : Literal type t) (hfits : ∀ h, t.HasHole h → Fits value h)
    (hd : fill value t = .ok d) (hplain : Plain type d) : Writes (Literal type) d := by
  by_cases hflat : IsFlat type
  · exact writes_of_solid ht (solid_of_literal type hflat ht) hd
  -- what is left has parts, and each part its own lemma
  cases type with
  | border => exact writes_border ht hfits hd hplain
  | cubicBezier => exact writes_curve ht hfits hd
  | fontFamily => exact writes_families ht hfits hd
  | gradient => exact writes_gradient ht hfits hd
  | shadow => exact writes_shadow ht hfits hd
  | strokeStyle => exact writes_stroke ht hfits hd hplain
  | transition => exact writes_transition ht hfits hd
  | typography => exact writes_typography ht hfits hd hplain
  | _ => exact absurd trivial hflat

/-! ## What is accepted is plain -/

/-- The dashes of a line that is read without references have units. -/
theorem plain_of_stroke (ht : IsStroke t) (hsolid : t.Solid) : Plain .strokeStyle t.written := by
  rcases ht with ⟨s, rfl, -⟩ | ⟨cap, dashes, rfl, -, hall⟩
  · exact plain_of_scalar _ _
  · refine ⟨fun path hpath items hitems hzero => ?_, by simp⟩
    obtain rfl := Option.some.inj hpath
    obtain rfl : dashes.map written = items := by
      simpa [Data.at?, Members.get?] using hitems
    -- the template of a bare zero would be a dash
    obtain ⟨u, hu, hwritten⟩ := List.mem_map.mp hzero
    rcases hall u hu with hhole | ⟨s, rfl, -⟩
    · cases hhole
      exact not_solid_hole _ (solid_list.mp (solid_object.mp hsolid
        ("dashArray", .list dashes) (by simp)) _ hu)
    · simp at hwritten

theorem plain_of_border (ht : IsBorder t) (hsolid : t.Solid) : Plain .border t.written := by
  obtain ⟨c, w, s, rfl, -, -, hs⟩ := ht
  have hstyle : s.Solid := solid_object.mp hsolid ("style", s) (by simp)
  refine ⟨fun path hpath items hitems => ?_, by simp⟩
  obtain rfl := Option.some.inj hpath
  rcases hs with hhole | hstroke
  · cases hhole
    exact absurd hstyle (not_solid_hole _)
  · exact (plain_of_stroke hstroke hstyle).dashes _ rfl items
      (by simpa [Data.at?, Members.get?] using hitems)

/-- The properties of a font that are read without references are known ones, or texts and
numbers. -/
theorem plain_of_properties {members : List (String × Template)}
    (hall : ∀ m ∈ members, OrHole (Members.get? m.1 typographyTypes) (IsProperty m.1) m.2)
    (hsolid : (Template.object members).Solid) :
    Plain .typography (Template.object members).written := by
  refine ⟨by simp [dashesPath], ?_⟩
  rintro - ms hms m hm hname
  rw [written_object, Data.object.injEq] at hms
  obtain ⟨u, hu, rfl⟩ := List.mem_map.mp (hms ▸ hm)
  rcases hall u hu with hhole | hproperty
  · have hno : ¬ u.2.Solid := by
      generalize u.2 = v at hhole
      cases hhole
      exact not_solid_hole _
    exact absurd (solid_object.mp hsolid u hu) hno
  · rcases (isProperty_unknown hname).mp hproperty with ⟨s, hs, -⟩ | ⟨n, hs, hn⟩
    · exact .inl ⟨s, by rw [hs, written_scalar]⟩
    · exact .inr ⟨n, by rw [hs, written_scalar], hn⟩

/-- Whatever is read without references is none of the exceptions. -/
theorem plain_of_literal {node : Tree} (ht : literal type node = .ok t) (hsolid : t.Solid) :
    Plain type t.written := by
  cases type with
  | border => exact plain_of_border (isBorder_of_border ht) hsolid
  | strokeStyle => exact plain_of_stroke (isStroke_of_strokeStyle ht) hsolid
  | typography =>
    replace ht : typography node = .ok t := ht
    unfold typography at ht
    split at ht
    · split at ht
      · simp [fail] at ht
      · obtain rfl := Except.ok.inj ht
        exact plain_of_scalar _ _
    · obtain ⟨ms, hms, rfl⟩ := exceptMap_eq_ok.mp ht
      exact plain_of_properties (properties_spec hms).2 hsolid
    · simp [failKind, fail] at ht
  | _ => exact plain_of_other rfl (by simp) _

/-- Accepted data is none of the exceptions. -/
theorem plain_of_accepts (h : Accepts type d) : Plain type d := by
  obtain ⟨t, ht, hsolid, rfl⟩ := h
  simp only [Grammar.value, orHole, bind_eq_ok] at ht
  obtain ⟨found, -, ht⟩ := ht
  -- a reference would not be solid
  cases found with
  | some g =>
    rw [pure_eq_ok] at ht
    exact absurd (ht ▸ hsolid) (not_solid_hole g)
  | none => exact plain_of_literal ht hsolid

end DesignTokens.Grammar
