import DesignTokens.Proofs.Resolution.Acceptance
import DesignTokens.Proofs.Resolution.Integrity

/-!
# Where the references of a table lead

What is needed of a finished table to follow its references from entry to entry: the entry that each
of them leads to is there, its token has a type that fits the place of the reference, its value is
what stands at that place, and references never lead back to where they started (`exists_linked`).
-/

namespace DesignTokens.Resolution

open Outcome Grammar

/-! ## Places of references -/

/-- The types that fit a reference at a place of a value, as far as the place says. -/
def fittingAt : TokenType → List Step → Option (List TokenType)
  | .border, [.field "color"] => some [.color]
  | .border, [.field "width"] => some [.dimension]
  | .border, [.field "style"] => some [.strokeStyle]
  | .transition, [.field "duration"] => some [.duration]
  | .transition, [.field "delay"] => some [.duration]
  | .transition, [.field "timingFunction"] => some [.cubicBezier]
  | .cubicBezier, [.index _] => some [.number]
  | .gradient, [.index _, .field "color"] => some [.color]
  | .shadow, [.index _, .field "color"] => some [.color]
  | .shadow, [.index _, .field "offsetX"] => some [.dimension]
  | .shadow, [.index _, .field "offsetY"] => some [.dimension]
  | .shadow, [.index _, .field "blur"] => some [.dimension]
  | .shadow, [.index _, .field "spread"] => some [.dimension]
  | .typography, [.field name] => Members.get? name typographyTypes
  | _, _ => none

theorem accepted_of_orHole {accepted : Option (List TokenType)} {P : Template → Prop} {t : Template}
    (ht : OrHole accepted P t) (hP : ∀ g, ¬ P (.hole g)) {h : Hole} (hh : ([], h) ∈ t.holes) :
    h.accepted = accepted := by
  cases t with
  | hole g =>
    obtain rfl : h = g := by simpa [Template.holes] using hh
    rcases ht with hhole | hvalue
    · cases hhole
      rfl
    · exact absurd hvalue (hP _)
  | scalar s => simp [Template.holes] at hh
  | list items => simp [Template.holes, Template.mem_holesOfItems] at hh
  | object members => simp [Template.holes, Template.mem_holesOfMembers] at hh

theorem not_isProperty_hole {name : String} {g : Hole} : ¬ IsProperty name (.hole g) := by
  unfold IsProperty
  split <;> simp [IsFamilies, IsDimension, IsWeight, IsNumber, IsString]

theorem exists_member {members : List (String × Template)} {steps : List Step} {h : Hole}
    (hh : (steps, h) ∈ (Template.object members).holes) :
    ∃ m ∈ members, ∃ rest, steps = .field m.1 :: rest ∧ (rest, h) ∈ m.2.holes := by
  obtain ⟨m, hm, q, hq, heq⟩ := Template.mem_holesOfMembers.mp hh
  obtain ⟨rfl, rfl⟩ := Prod.mk.inj heq
  exact ⟨m, hm, q.1, rfl, hq⟩

theorem exists_item {items : List Template} {steps : List Step} {h : Hole}
    (hh : (steps, h) ∈ (Template.list items).holes) :
    ∃ i, ∃ t ∈ items, ∃ rest, steps = .index i :: rest ∧ (rest, h) ∈ t.holes := by
  obtain ⟨i, t, ht, q, hq, heq⟩ := Template.mem_holesOfItems.mp hh
  obtain ⟨rfl, rfl⟩ := Prod.mk.inj heq
  exact ⟨0 + i, t, List.mem_of_getElem? ht, q.1, rfl, hq⟩

/-- A hole at the place of a reference accepts the types that fit there. -/
theorem accepted_of_literal {type : TokenType} {t : Template} (ht : Literal type t)
    {steps : List Step} {h : Hole} (hh : (steps, h) ∈ t.holes) {types : List TokenType}
    (htypes : fittingAt type steps = some types) : h.accepted = some types := by
  -- a part with places of its own is no hole
  have hpart (found : TokenType) {u : Template} {rest : List Step}
      (hu : OrHole (some [found]) (Literal found) u) (hh : (rest, h) ∈ u.holes) (hrest : rest = []) :
      h.accepted = some [found] := by
    subst hrest
    exact accepted_of_orHole hu (fun _ => not_literal_hole) hh
  cases type with
  | border =>
    obtain ⟨c, w, s, rfl, hc, hw, hs⟩ := ht
    obtain ⟨m, hm, rest, rfl, hin⟩ := exists_member hh
    simp only [List.mem_cons, List.not_mem_nil, or_false] at hm
    rcases hm with rfl | rfl | rfl <;> cases rest <;>
      simp [fittingAt] at htypes <;> subst htypes
    · exact hpart .color hc hin rfl
    · exact hpart .dimension hw hin rfl
    · exact hpart .strokeStyle hs hin rfl
  | transition =>
    obtain ⟨d, e, c, rfl, hd, he, hc⟩ := ht
    obtain ⟨m, hm, rest, rfl, hin⟩ := exists_member hh
    simp only [List.mem_cons, List.not_mem_nil, or_false] at hm
    rcases hm with rfl | rfl | rfl <;> cases rest <;>
      simp [fittingAt] at htypes <;> subst htypes
    · exact hpart .duration hd hin rfl
    · exact hpart .duration he hin rfl
    · exact hpart .cubicBezier hc hin rfl
  | cubicBezier =>
    obtain ⟨items, rfl, -, hall⟩ := ht
    obtain ⟨i, u, hu, rest, rfl, hin⟩ := exists_item hh
    cases rest <;> simp only [fittingAt, reduceCtorEq, Option.some.injEq] at htypes
    subst htypes
    exact hpart .number (hall u hu) hin rfl
  | gradient =>
    obtain ⟨stops, rfl, hall⟩ := ht
    obtain ⟨i, u, hu, rest, rfl, hin⟩ := exists_item hh
    obtain ⟨c, p, rfl, hc, -⟩ := hall u hu
    obtain ⟨m, hm, rest, rfl, hhole⟩ := exists_member hin
    simp only [List.mem_cons, List.not_mem_nil, or_false] at hm
    rcases hm with rfl | rfl <;> cases rest <;> simp [fittingAt] at htypes
    subst htypes
    exact hpart .color hc hhole rfl
  | shadow =>
    obtain ⟨layers, rfl, hall⟩ := ht
    obtain ⟨i, u, hu, rest, rfl, hin⟩ := exists_item hh
    obtain ⟨c, x, y, b, spread, inset, rfl, hc, hx, hy, hb, hspread, -⟩ := hall u hu
    obtain ⟨m, hm, rest, rfl, hhole⟩ := exists_member hin
    simp only [Members.optional, List.mem_append, List.mem_cons, List.not_mem_nil, or_false,
      Option.mem_toList, Option.map_eq_some_iff] at hm
    rcases hm with (rfl | rfl | rfl | rfl) | ⟨s, hs, rfl⟩ | ⟨s, -, rfl⟩ <;> cases rest <;>
      simp [fittingAt] at htypes <;> subst htypes
    · exact hpart .color hc hhole rfl
    · exact hpart .dimension hx hhole rfl
    · exact hpart .dimension hy hhole rfl
    · exact hpart .dimension hb hhole rfl
    · exact hpart .dimension (hspread s hs) hhole rfl
  | typography =>
    obtain ⟨s, rfl, -⟩ | ⟨members, rfl, -, hall⟩ := ht
    · simp [Template.holes] at hh
    · obtain ⟨m, hm, rest, rfl, hin⟩ := exists_member hh
      cases rest <;> simp only [fittingAt, reduceCtorEq] at htypes
      rw [accepted_of_orHole (hall m hm) (fun _ => not_isProperty_hole) hin, htypes]
  | _ => simp [fittingAt] at htypes

/-! ## Values by shape -/

/-- The properties of a font have distinct names. -/
theorem names_of_typography {readings : List Reading} {values : Values} (hr : Genuine readings)
    (hgood : ∀ p ∈ allHoles readings, WellTargeted readings p.2) (hacyclic : Acyclic readings)
    (hv : Resolved readings values) :
    ∀ r ∈ readings, ∀ type, r.draft.type = some type → ∀ mode d,
      valueAt values ⟨r.draft.id, mode⟩ = .ok d → type = .typography →
        ∀ members, d = .object members → (Members.names members).Nodup := by
  refine hr.induction hgood hacyclic hv ?_
  rintro r - type - p - d hliteral hfill - rfl members rfl
  obtain ⟨s, hs, -⟩ | ⟨templates, htemplates, hnodup, -⟩ := hliteral
  · rw [hs] at hfill
    cases hfill
  · rw [htemplates] at hfill
    obtain ⟨ds, hds, heq⟩ := object_of_fill hfill
    obtain rfl := Data.object.inj heq
    rw [Template.names_of_fillMembers hds]
    exact hnodup

/-! ## Following references -/

/-- The references that an entry remembers. -/
def Remembers (e : Entry) (r : Reference) : Prop :=
  e.reference = some r ∨ ∃ tree steps, e.references = some tree ∧ (steps, r) ∈ tree.leaves

/-- The entry of one slot of a table remembers a reference to another one. -/
def EntryRefers (t : Table) (a b : Slot) : Prop :=
  ∃ tok e r, (a.token, tok) ∈ t.tokens ∧ (a.mode, e) ∈ tok.modes ∧ Remembers e r ∧ b = slotOf r

/-- A reference leads to an entry of a table. -/
structure LeadsTo (t : Table) (r : Reference) (target : Token) (other : Entry) : Prop where
  token : (r.target, target) ∈ t.tokens
  entry : (r.mode, other) ∈ target.modes

/-- A table whose references can be followed. -/
structure Linked (t : Table) : Prop where
  ids_nodup : t.tokens.names.Nodup
  id_eq : ∀ p ∈ t.tokens, p.2.id = p.1
  modes_nodup : ∀ p ∈ t.tokens, p.2.modes.names.Nodup
  default : ∀ p ∈ t.tokens, ∃ e, (defaultMode, e) ∈ p.2.modes
  /-- Values of types without dashes and properties could have been written in their places. -/
  written : ∀ p ∈ t.tokens, ∀ m ∈ p.2.modes, Plain p.2.type m.2.value →
    Writes (Literal p.2.type) m.2.value
  names_nodup : ∀ p ∈ t.tokens, p.2.type = .typography → ∀ m ∈ p.2.modes, ∀ members,
    m.2.value = .object members → (Members.names members).Nodup
  variants : ∀ p ∈ t.tokens, ∀ m ∈ p.2.modes, variantsOf p.2.type m.2.value = .ok m.2.variants
  /-- A value that was a reference as a whole is that of its target. -/
  whole : ∀ p ∈ t.tokens, ∀ m ∈ p.2.modes, ∀ r, m.2.reference = some r →
    m.2.references = none ∧ ∃ target other, LeadsTo t r target other ∧ target.type = p.2.type ∧
      other.value = m.2.value
  /-- A part where a reference stood is the value of its target, which fits there. -/
  parts : ∀ p ∈ t.tokens, ∀ m ∈ p.2.modes, ∀ tree, m.2.references = some tree →
    ∀ steps r, (steps, r) ∈ tree.leaves → ∃ target other, LeadsTo t r target other ∧
      (∀ types, fittingAt p.2.type steps = some types → target.type ∈ types) ∧
      (m.2.value.at? steps = some other.value ∨ IsSlot p.2.type steps)
  /-- References do not lead back to where they started. -/
  wellFounded : WellFounded fun b a => EntryRefers t a b

section

variable {readings : List Reading} {values : Values} {groups : List Group} {t : Table}

/-- What an entry remembers are holes of its template. -/
theorem hole_of_remembers {template : Template} {d : Data} {v : Members Data} {r : Reference}
    (h : Remembers (entryOf template d v) r) : ∃ g, template.HasHole g ∧ g.reference = r := by
  rcases h with hwhole | ⟨tree, steps, htree, hleaf⟩
  · obtain ⟨-, g, rfl, hg⟩ := reference_entryOf hwhole
    exact ⟨g, Template.hasHole_hole.mpr rfl, hg⟩
  · obtain ⟨htree, -⟩ := references_entryOf htree
    rw [Template.leaves_of_references? htree, Template.leaves, List.mem_map] at hleaf
    obtain ⟨q, hq, heq⟩ := hleaf
    exact ⟨q.2, ⟨q, hq, rfl⟩, (Prod.mk.inj heq).2⟩

/-- An entry remembers the references of all holes of its template. -/
theorem remembers_of_hole {template : Template} {d : Data} {v : Members Data} {h : Hole}
    (hh : template.HasHole h) : Remembers (entryOf template d v) h.reference := by
  have hparts : (∀ g, template ≠ .hole g) → Remembers (entryOf template d v) h.reference := by
    intro hwhole
    obtain ⟨tree, htree⟩ : ∃ tree, template.references? = some tree := by
      rw [← Option.ne_none_iff_exists']
      exact fun hnone => Template.solid_of_references? hnone h hh
    have hentry : (entryOf template d v).references = some tree := by
      cases template with
      | hole g => exact absurd rfl (hwhole g)
      | _ => exact htree
    obtain ⟨q, hq, rfl⟩ := hh
    refine .inr ⟨tree, q.1, hentry, ?_⟩
    rw [Template.leaves_of_references? htree]
    exact List.mem_map.mpr ⟨q, hq, rfl⟩
  cases template with
  | hole g =>
    obtain rfl := Template.hasHole_hole.mp hh
    exact .inl rfl
  | _ => exact hparts (by simp)

/-- A well-targeted hole leads to an entry with the value that it stands for, of a token of a type
that it accepts. -/
theorem exists_leadsTo (hr : Readable readings) (ht : tableOf values readings groups = .ok t)
    {h : Hole} (hh : WellTargeted readings h) :
    ∃ target other, LeadsTo t h.reference target other ∧
      (∀ types, h.accepted = some types → target.type ∈ types) ∧
      targetValue values h.reference = .ok other.value ∧
      t.target h.reference = .ok other.value := by
  obtain ⟨target, htarget, htypes, other, hother, hvalue⟩ := exists_target hr ht hh
  have htable := target_of_entry htarget hother
  have hids : t.tokens.names.Nodup := names_tokens hr ht ▸ hr.ids_nodup
  have hin := (token_lookup hids).mp htarget
  obtain ⟨r, hmem, -, hrt⟩ := (mem_tokens hr ht).mp hin
  obtain ⟨type, htype⟩ := hr.typed r hmem
  obtain ⟨modes, hmodes, rfl⟩ := (token_eq_ok htype).mp hrt
  have hnames : (Members.names modes).Nodup := names_modes hmodes ▸ hr.modes_nodup r hmem
  exact ⟨_, other, ⟨hin, (entry_lookup hnames).mp hother⟩, htypes, hvalue, htable⟩

/-- References between entries are references between the slots of their templates. -/
theorem refers_of_entryRefers (hr : Readable readings) (ht : tableOf values readings groups = .ok t)
    {a b : Slot} (h : EntryRefers t a b) : Refers readings a b := by
  obtain ⟨tok, e, r, htok, he, hr', rfl⟩ := h
  obtain ⟨reading, hmem, hid, -, template, hmode, c, -, v, -, rfl⟩ := entry_spec hr ht htok he
  obtain ⟨g, hg, rfl⟩ := hole_of_remembers hr'
  exact ⟨g, mem_allHoles_of_templateAt hr ((templateAt_eq_ok hr).mpr ⟨reading, hmem, hid, hmode⟩) hg,
    rfl⟩

/-- References between the slots of templates are references between their entries. -/
theorem entryRefers_of_refers (hr : Readable readings) (ht : tableOf values readings groups = .ok t)
    {a b : Slot} (h : Refers readings a b) : EntryRefers t a b := by
  obtain ⟨g, hg, rfl⟩ := h
  obtain ⟨r, hmem, p, hp, q, hq, rfl, rfl⟩ := mem_allHoles.mp hg
  obtain ⟨tokens, htokens, -⟩ := tableOf_eq_ok.mp ht
  obtain ⟨tok, -, hrt⟩ := exists_right htokens hmem
  obtain ⟨type, htype⟩ := hr.typed r hmem
  obtain ⟨modes, hmodes, htok⟩ := (token_eq_ok htype).mp hrt
  obtain ⟨m, hm, hentry⟩ := exists_right hmodes hp
  obtain ⟨d, -, v, -, rfl⟩ := modeEntry_eq_ok.mp hentry
  refine ⟨tok, entryOf p.2 d v, q.2.reference, (mem_tokens hr ht).mpr ⟨r, hmem, rfl, hrt⟩, ?_,
    remembers_of_hole ⟨q, hq, rfl⟩, rfl⟩
  rw [htok]
  exact hm

theorem wellFounded_entryRefers (hr : Readable readings)
    (hgood : ∀ p ∈ allHoles readings, WellTargeted readings p.2) (hacyclic : Acyclic readings)
    (ht : tableOf values readings groups = .ok t) :
    WellFounded fun b a => EntryRefers t a b := by
  obtain ⟨g, -, hg, hslots, hrefers⟩ := exists_dependencies hr hgood
  have hinside : ∀ s ∈ g.slots, Acc (fun b a => EntryRefers t a b) s :=
    ((acyclic_iff hrefers).mpr hacyclic).induction hg fun s _ ih =>
      .intro s fun b hb => ih b ((hrefers _ _).mpr (refers_of_entryRefers hr ht hb))
  -- what is no slot of the readings refers to nothing
  refine ⟨fun s => .intro s fun b hb => hinside b ?_⟩
  exact (hg.mem_of_refers ((hrefers _ _).mpr (refers_of_entryRefers hr ht hb))).2

/-- Where an entry of a table comes from. -/
structure Origin (readings : List Reading) (values : Values) (type : TokenType) (mode : String)
    (e : Entry) (r : Reading) (template : Template) : Prop where
  reading : r ∈ readings
  type_eq : r.draft.type = some type
  mem_values : (mode, template) ∈ r.values
  value : valueAt values ⟨r.draft.id, mode⟩ = .ok e.value
  fill : template.fill (targetValue values) = .ok e.value
  holes : ∀ h, template.HasHole h → WellTargeted readings h
  variants : variantsOf type e.value = .ok e.variants
  entry : e = entryOf template e.value e.variants

theorem exists_origin (hr : Readable readings)
    (hgood : ∀ p ∈ allHoles readings, WellTargeted readings p.2) (hv : Resolved readings values)
    (ht : tableOf values readings groups = .ok t) {p : String × Token} (hp : p ∈ t.tokens)
    {m : String × Entry} (hm : m ∈ p.2.modes) :
    ∃ r template, Origin readings values p.2.type m.1 m.2 r template := by
  obtain ⟨id, tok⟩ := p
  obtain ⟨mode, e⟩ := m
  obtain ⟨r, hmem, rfl, htype, template, hmode, c, hc, v, hvariants, rfl⟩ := entry_spec hr ht hp hm
  have hentry : (entryOf template c v).value = c ∧ (entryOf template c v).variants = v := by
    cases template <;> exact ⟨rfl, rfl⟩
  have hin : templateAt readings ⟨r.draft.id, mode⟩ = .ok template :=
    (templateAt_eq_ok hr).mpr ⟨r, hmem, rfl, hmode⟩
  refine ⟨r, template, hmem, htype, hmode, ?_, ?_, fun h hh => ?_, ?_, ?_⟩
  · rw [hentry.1, hc]
  · rw [hentry.1, hv.fill_eq hr hmem hmode hc]
  · exact hgood _ (mem_allHoles_of_templateAt hr hin hh)
  · rw [hentry.1, hentry.2, hvariants]
  · rw [hentry.1, hentry.2]

/-- A value that was a reference as a whole is that of its target, which has its type. -/
theorem Origin.whole (hr : Genuine readings) (ht : tableOf values readings groups = .ok t)
    {type : TokenType} {mode : String} {e : Entry} {r : Reading} {template : Template}
    (ho : Origin readings values type mode e r template) {reference : Reference}
    (h : e.reference = some reference) :
    e.references = none ∧ ∃ target other, LeadsTo t reference target other ∧ target.type = type ∧
      other.value = e.value := by
  rw [ho.entry] at h ⊢
  obtain ⟨hnone, g, rfl, rfl⟩ := reference_entryOf h
  obtain ⟨target, other, hleads, htypes, hvalue, -⟩ :=
    exists_leadsTo hr.toReadable ht (ho.holes g (Template.hasHole_hole.mpr rfl))
  refine ⟨hnone, target, other, hleads, ?_, ?_⟩
  · obtain ⟨g', hwhole, haccepted⟩ | hliteral := hr.template ho.reading ho.type_eq ho.mem_values
    · obtain rfl := Template.hole.inj hwhole
      exact List.mem_singleton.mp (htypes _ haccepted)
    · exact absurd hliteral not_literal_hole
  · rw [value_entryOf]
    exact Except.ok.inj (hvalue.symm.trans ho.fill)

/-- A part where a reference stood is the value of its target, which fits there. -/
theorem Origin.part (hr : Genuine readings)
    (hgood : ∀ p ∈ allHoles readings, WellTargeted readings p.2) (hacyclic : Acyclic readings)
    (hv : Resolved readings values) (ht : tableOf values readings groups = .ok t)
    {type : TokenType} {mode : String} {e : Entry} {r : Reading} {template : Template}
    (ho : Origin readings values type mode e r template) {tree : ReferenceTree}
    (htree : e.references = some tree) {steps : List Step} {reference : Reference}
    (hleaf : (steps, reference) ∈ tree.leaves) :
    ∃ target other, LeadsTo t reference target other ∧
      (∀ types, fittingAt type steps = some types → target.type ∈ types) ∧
      (e.value.at? steps = some other.value ∨ IsSlot type steps) := by
  rw [ho.entry] at htree
  obtain ⟨node, hnode, hread⟩ := hr.read r ho.reading type ho.type_eq _ ho.mem_values
  obtain ⟨⟨hparts, -⟩, -⟩ :=
    restored_of_reading hr hgood hacyclic hv ht ho.reading ho.mem_values hnode hread ho.fill htree
  obtain ⟨c, hc, hat⟩ := hparts steps reference hleaf
  obtain ⟨hreferences, hwhole⟩ := references_entryOf htree
  rw [Template.leaves_of_references? hreferences, Template.leaves, List.mem_map] at hleaf
  obtain ⟨q, hq, heq⟩ := hleaf
  obtain ⟨rfl, rfl⟩ := Prod.mk.inj heq
  obtain ⟨target, other, hleads, htypes, -, hvalue⟩ :=
    exists_leadsTo hr.toReadable ht (ho.holes q.2 ⟨q, hq, rfl⟩)
  obtain rfl : c = other.value := Except.ok.inj (hc.symm.trans hvalue)
  refine ⟨target, other, hleads, fun types hfitting => ?_, hat⟩
  -- a value with a reference in a part is a literal, and its place says what fits
  obtain ⟨h, hh, -⟩ | hliteral := hr.template ho.reading ho.type_eq ho.mem_values
  · exact absurd hh (hwhole h)
  · exact htypes _ (accepted_of_literal hliteral hq hfitting)

end

/-- The references of the table of a document with distinct keys can be followed. -/
theorem exists_linked {d : Document} (hd : d.root.WellKeyed) {t : Table} (ht : d.table = .ok t) :
    Linked t := by
  obtain ⟨s, hr, hgood, hacyclic, values, hv, htable⟩ := Document.exists_resolved hd ht
  have horigin {p : String × Token} (hp : p ∈ t.tokens) {m : String × Entry} (hm : m ∈ p.2.modes) :=
    exists_origin hr.toReadable hgood hv htable hp hm
  -- every token of the table comes from a reading, and every entry from one of its modes
  have htoken : ∀ p ∈ t.tokens, p.2.id = p.1 ∧ p.2.modes.names.Nodup := by
    rintro ⟨id, tok⟩ hp
    obtain ⟨r, hmem, rfl, hrt⟩ := (mem_tokens hr.toReadable htable).mp hp
    obtain ⟨type, htype⟩ := hr.typed r hmem
    obtain ⟨modes, hmodes, rfl⟩ := (token_eq_ok htype).mp hrt
    exact ⟨rfl, names_modes hmodes ▸ hr.modes_nodup r hmem⟩
  constructor
  case ids_nodup => exact names_tokens hr.toReadable htable ▸ hr.ids_nodup
  case id_eq => exact fun p hp => (htoken p hp).1
  case modes_nodup => exact fun p hp => (htoken p hp).2
  case default =>
    intro p hp
    obtain ⟨first, hfirst⟩ := exists_default hr htable hp
    exact ⟨first, (entry_lookup (htoken p hp).2).mp hfirst⟩
  case written =>
    intro p hp m hm hplain
    obtain ⟨r, template, ho⟩ := horigin hp hm
    exact hr.writes hgood hacyclic hv r ho.reading p.2.type ho.type_eq m.1 _ ho.value hplain
  case names_nodup =>
    intro p hp htypography m hm
    obtain ⟨r, template, ho⟩ := horigin hp hm
    exact names_of_typography hr hgood hacyclic hv r ho.reading p.2.type ho.type_eq m.1 _ ho.value
      htypography
  case variants =>
    intro p hp m hm
    obtain ⟨r, template, ho⟩ := horigin hp hm
    exact ho.variants
  case whole =>
    intro p hp m hm reference hreference
    obtain ⟨r, template, ho⟩ := horigin hp hm
    exact ho.whole hr htable hreference
  case parts =>
    intro p hp m hm tree htree steps reference hleaf
    obtain ⟨r, template, ho⟩ := horigin hp hm
    exact ho.part hr hgood hacyclic hv htable htree hleaf
  case wellFounded => exact wellFounded_entryRefers hr.toReadable hgood hacyclic htable

end DesignTokens.Resolution
