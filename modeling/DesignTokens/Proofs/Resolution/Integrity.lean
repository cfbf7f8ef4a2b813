import DesignTokens.Proofs.Table.Reaching
import DesignTokens.Proofs.Value.Families
import DesignTokens.Table.ToData

/-!
# References of a finished table

In a finished table every reference that is remembered leads to an entry of the table.  A value
that was a reference as a whole is that of its target, and so is every part that was one.  A list of
font families is put together from the items that are written in the document, one by one: an item
that is a reference adds the families of its target, and any other one adds its own text
(`table_references`).
-/

namespace DesignTokens.Resolution

open Outcome Grammar

variable {readings : List Reading} {values : Values} {groups : List Group} {t : Table}

/-! ## Targets -/

/-- A well-targeted hole has a target in the table, with the value that the hole stands for. -/
theorem exists_target (hr : Readable readings)
    (ht : tableOf values readings groups = .ok t) {h : Hole} (hh : WellTargeted readings h) :
    ∃ target, t.token h.reference.target = .ok target ∧
      (∀ types, h.accepted = some types → target.type ∈ types) ∧
      ∃ e, target.entry h.reference.mode = .ok e ∧
        targetValue values h.reference = .ok e.value := by
  obtain ⟨r, hmem, hid, hmode, htypes⟩ := hh
  obtain ⟨tok, htok, htype, e, he, hvalue⟩ := exists_entry hr ht hmem hmode
  rw [hid] at htok hvalue
  refine ⟨tok, htok, ?_, e, he, hvalue⟩
  intro types haccepted
  obtain ⟨type, hin, htype'⟩ := htypes types haccepted
  rwa [Option.some.inj (htype.symm.trans htype')]

theorem target_of_entry {target : Token} {e : Entry} {r : Reference}
    (htarget : t.token r.target = .ok target) (he : target.entry r.mode = .ok e) :
    t.target r = .ok e.value := by
  simp [Table.target, htarget, he, bind, Except.bind, pure, Except.pure]

/-- Every token of a table has an entry for its default mode. -/
theorem exists_default (hr : Genuine readings)
    (ht : tableOf values readings groups = .ok t) {id : String} {tok : Token}
    (htok : (id, tok) ∈ t.tokens) : ∃ first, tok.entry defaultMode = .ok first := by
  obtain ⟨r, hmem, rfl, -⟩ := (mem_tokens hr.toReadable ht).mp htok
  obtain ⟨others, hnames⟩ := hr.default_first r hmem
  obtain ⟨found, hfound, -, first, hfirst, -⟩ :=
    exists_entry hr.toReadable ht hmem (hnames ▸ List.mem_cons_self)
  have hids : t.tokens.names.Nodup := names_tokens hr.toReadable ht ▸ hr.ids_nodup
  rw [(token_lookup hids).mpr htok] at hfound
  obtain rfl := Except.ok.inj hfound
  exact ⟨first, hfirst⟩

theorem aliasOf_of_entry {tok : Token} {first : Entry} (h : tok.entry defaultMode = .ok first) :
    tok.aliasOf = first.reference.map Reference.target := by
  unfold Token.entry at h
  split at h
  · rename_i e he
    obtain rfl := Except.ok.inj h
    rw [Token.aliasOf, he]
    rfl
  · simp at h

/-! ## Lists of font families -/

/-- Where a value of a type can have a list of font families. -/
def familiesPath : TokenType → Option (List Step)
  | .fontFamily => some []
  | .typography => some [.field Table.familyField]
  | _ => none

/-- Whether steps lead to a slot of a list of font families. -/
def IsSlot (type : TokenType) (p : List Step) : Prop :=
  ∃ base i, familiesPath type = some base ∧ p = base ++ [.index i]

/-- What a written item of a list of families adds to the list of an entry; `path` is its place. -/
inductive SlotAdds (t : Table) (references : ReferenceTree) (path : List Step) (written : Tree) :
    List Data → Prop where
  /-- An item that spells a reference is remembered as one, and adds the list of its target. -/
  | reference {s : String} {r : Reference} {cs : List Data} : written.text? = some s →
      Reference.parse? s = some r → (path, r) ∈ references.leaves → t.target r = .ok (.list cs) →
      SlotAdds t references path written cs
  /-- Any other item does not open like a reference, and adds its text. -/
  | literal {s : String} : written.text? = some s → Closed s →
      (∀ r, (path, r) ∉ references.leaves) → SlotAdds t references path written [.text s]

/-- A list is what the items of a written list add one after the other, one slot for each item. -/
def Concatenated (t : Table) (references : ReferenceTree) (base : List Step) (written : List Tree)
    (items : List Data) : Prop :=
  ∃ slots : List (List Data), items = slots.flatten ∧ slots.length = written.length ∧
    ∀ i node cs, written[i]? = some node → slots[i]? = some cs →
      SlotAdds t references (base ++ [.index i]) node cs

/-- A written item adds what the template that was read from it adds. -/
theorem slotAdds_of_adds {references : ReferenceTree} {path : List Step} {list node : Tree}
    {item : Template} (hread : family list node = .ok item)
    (hleaf : ∀ r, (path, r) ∈ references.leaves ↔ ∃ h, item = .hole h ∧ h.reference = r)
    (htarget : ∀ h, item = .hole h → t.target h.reference = targetValue values h.reference)
    {cs : List Data} (hadds : Adds (targetValue values) item cs) :
    SlotAdds t references path node cs := by
  obtain ⟨s, hs, ⟨r, hr, rfl⟩ | ⟨rfl, hclosed, -⟩⟩ := family_spec hread
  · cases hadds with
    | hole _ _ hcs =>
      exact .reference hs hr ((hleaf r).mpr ⟨_, rfl, rfl⟩) ((htarget _ rfl).trans hcs)
  · cases hadds with
    | family =>
      refine .literal hs hclosed fun r hr => ?_
      obtain ⟨h, hhole, -⟩ := (hleaf r).mp hr
      cases hhole

/-- A list of families that was filled is the concatenation of what the written items add. -/
theorem concatenated_of_fill {references : ReferenceTree} {base : List Step} {list : Tree}
    {written : List Tree} {items : List Template}
    (hread : List.Forall₂ (fun n i => family list n = .ok i) written items)
    (hleaves : ∀ i r, (base ++ [.index i], r) ∈ references.leaves ↔
      ([.index i], r) ∈ (Template.list items).leaves)
    (hreaches : t.Reaches (targetValue values) (.list items)) {d : Data}
    (hd : (Template.list items).fill (targetValue values) = .ok d) :
    ∃ ds, d = .list ds ∧ Concatenated t references base written ds := by
  have hitems : ∀ i ∈ items, IsFamily i := by
    intro i hi
    obtain ⟨n, -, hn⟩ := exists_left hread hi
    exact isFamily_of_family hn
  obtain ⟨slots, hslots, hfill⟩ := fill_families hitems fun h hh =>
    (hreaches.slot hitems hh).2.imp fun cs hcs => hcs.1
  obtain rfl := Except.ok.inj (hfill.symm.trans hd)
  refine ⟨slots.flatten, rfl, slots, rfl, (hread.length_eq.trans hslots.length_eq).symm, ?_⟩
  intro i node cs hnode hcs
  -- the item at a place was read from the node there, and adds the slot there
  obtain ⟨hlt, rfl⟩ := List.getElem?_eq_some_iff.mp hnode
  obtain ⟨hlt', rfl⟩ := List.getElem?_eq_some_iff.mp hcs
  have hlt'' : i < items.length := hread.length_eq ▸ hlt
  have hitem : items[i]? = some items[i] := List.getElem?_eq_getElem hlt''
  have hadds : Adds (targetValue values) items[i] slots[i] := by
    simpa using hslots.get hlt'' hlt'
  have hfamily : family list written[i] = .ok items[i] := by simpa using hread.get hlt hlt''
  refine slotAdds_of_adds hfamily (fun r => ?_) (fun h hh => ?_) hadds
  · rw [hleaves, mem_leaves_families hitems, hitem]
    simp only [Option.some.injEq]
  · exact (hreaches.slot hitems (hh ▸ List.mem_of_getElem? hitem)).1

/-- A list of families with a reference in it is the concatenation of what its written items add. -/
theorem concatenated_of_fontFamily {references : ReferenceTree} {base : List Step} {node : Tree}
    {items : List Template} (hread : fontFamily node = .ok (.list items))
    (hleaves : ∀ i r, (base ++ [.index i], r) ∈ references.leaves ↔
      ([.index i], r) ∈ (Template.list items).leaves)
    (hsome : ∃ i r, (base ++ [.index i], r) ∈ references.leaves)
    (hreaches : t.Reaches (targetValue values) (.list items)) {d : Data}
    (hd : (Template.list items).fill (targetValue values) = .ok d) :
    ∃ written ds, node.items? = some written ∧ d = .list ds ∧
      Concatenated t references base written ds := by
  obtain ⟨s, -, -, hlist⟩ | ⟨written, items, hwritten, -, hlist, hitems⟩ := fontFamily_spec hread
  · -- a single text is no reference
    obtain rfl := Template.list.inj hlist
    obtain ⟨i, r, hleaf⟩ := hsome
    rw [hleaves] at hleaf
    simp [Template.leaves, Template.holes, Template.holesOfItems] at hleaf
  · obtain rfl := Template.list.inj hlist
    obtain ⟨ds, rfl, hds⟩ := concatenated_of_fill hitems hleaves hreaches hd
    exact ⟨written, ds, hwritten, rfl, hds⟩

/-! ## Parts of values -/

/-- The part of a value at a place of a reference is the value of its target, unless the place is a
slot of a list of font families; such a list is the concatenation of what the items of the list that
is written there add. -/
def Restored (t : Table) (type : TokenType) (references : ReferenceTree) (node : Tree)
    (value : Data) : Prop :=
  (∀ p r, (p, r) ∈ references.leaves → ∃ c, t.target r = .ok c ∧
    (value.at? p = some c ∨ IsSlot type p)) ∧
  ∀ base, familiesPath type = some base → (∃ i r, (base ++ [.index i], r) ∈ references.leaves) →
    ∃ written items, (node.at? base).bind Tree.items? = some written ∧
      value.at? base = some (.list items) ∧ Concatenated t references base written items

/-- A steady value has the values of its targets at the places of its references, and no slots. -/
theorem restored_of_steady {type : TokenType} {template : Template} (hsteady : template.Steady)
    (hbase : ∀ base, familiesPath type = some base →
      ∀ i r, (base ++ [.index i], r) ∉ template.leaves)
    (hvalue : ∀ h, template.HasHole h →
      t.target h.reference = targetValue values h.reference) {references : ReferenceTree}
    (hreferences : template.references? = some references) {d : Data}
    (hd : template.fill (targetValue values) = .ok d) (node : Tree) :
    Restored t type references node d := by
  rw [Restored, Template.leaves_of_references? hreferences]
  refine ⟨?_, fun base hpath ⟨i, r, hleaf⟩ => absurd hleaf (hbase base hpath i r)⟩
  intro p r hleaf
  obtain ⟨q, hq, heq⟩ := List.mem_map.mp hleaf
  obtain ⟨rfl, rfl⟩ := Prod.mk.inj heq
  obtain ⟨c, hc, hat⟩ := Template.at?_of_fill hsteady hd hq
  exact ⟨c, (hvalue q.2 ⟨q, hq, rfl⟩).trans hc, .inl hat⟩

/-- A list of font families is the concatenation of its slots. -/
theorem restored_of_families {node : Tree} {template : Template}
    (hread : fontFamily node = .ok template) (hfamilies : IsFamilies template)
    (hreaches : t.Reaches (targetValue values) template) {references : ReferenceTree}
    (hreferences : template.references? = some references) {d : Data}
    (hd : template.fill (targetValue values) = .ok d) :
    Restored t .fontFamily references node d := by
  obtain ⟨items, rfl, -, hitems⟩ := hfamilies
  have hleaves := Template.leaves_of_references? hreferences
  constructor
  · intro p r hleaf
    rw [hleaves] at hleaf
    obtain ⟨q, hq, heq⟩ := List.mem_map.mp hleaf
    obtain ⟨rfl, rfl⟩ := Prod.mk.inj heq
    obtain ⟨i, hi, hpath⟩ := (mem_holes_families hitems).mp hq
    obtain ⟨htarget, cs, hcs, -⟩ := hreaches.slot hitems (List.mem_of_getElem? hi)
    exact ⟨.list cs, htarget.trans hcs, .inr ⟨[], i, rfl, hpath⟩⟩
  · intro base hbase hsome
    obtain rfl : [] = base := Option.some.inj hbase
    obtain ⟨written, ds, hwritten, rfl, hds⟩ :=
      concatenated_of_fontFamily hread (fun i r => by rw [hleaves]; rfl) hsome hreaches hd
    exact ⟨written, ds, hwritten, rfl, hds⟩

/-- A part of a property of a font where a reference stood is the value of its target, unless it is
a slot of a list of font families. -/
theorem part_of_property {name : String} {u : Template}
    (hu : OrHole (Members.get? name typographyTypes) (IsProperty name) u)
    (hreaches : t.Reaches (targetValue values) u) {q : List Step × Hole} (hq : q ∈ u.holes)
    {e : Data} (he : u.fill (targetValue values) = .ok e) :
    ∃ c, t.target q.2.reference = .ok c ∧
      (e.at? q.1 = some c ∨ IsSlot .typography (.field name :: q.1)) := by
  rcases steady_of_property hu with hsteady | ⟨rfl, items, rfl, -, hitems⟩
  · obtain ⟨c, hc, hat⟩ := Template.at?_of_fill hsteady he hq
    exact ⟨c, (hreaches.target_eq q.2 ⟨q, hq, rfl⟩).trans hc, .inl hat⟩
  · obtain ⟨i, hi, hpath⟩ := (mem_holes_families hitems).mp hq
    obtain ⟨htarget, cs, hcs, -⟩ := hreaches.slot hitems (List.mem_of_getElem? hi)
    refine ⟨.list cs, htarget.trans hcs, .inr ⟨[.field Table.familyField], i, rfl, ?_⟩⟩
    rw [hpath]
    rfl

/-- A property with a hole inside was read as a list of font families. -/
theorem families_of_hole {P : Template → Prop} {accepted : Option (List TokenType)} {u : Template}
    (hu : OrHole accepted P u) {q : List Step × Hole} (hq : q ∈ u.holes) (hinside : q.1 ≠ []) :
    P u := by
  rcases hu with hhole | hread
  · cases hhole
    obtain rfl : q = ([], _) := by simpa [Template.holes] using hq
    exact absurd rfl hinside
  · exact hread

/-- The properties of a font have the values of their targets, and a list of font families among
them is the concatenation of its slots. -/
theorem restored_of_typography {node : Tree} (hnode : node.WellKeyed) {template : Template}
    (hread : typography node = .ok template) (htypography : IsTypography template)
    (hreaches : t.Reaches (targetValue values) template) {references : ReferenceTree}
    (hreferences : template.references? = some references) {d : Data}
    (hd : template.fill (targetValue values) = .ok d) :
    Restored t .typography references node d := by
  obtain ⟨s, rfl, -⟩ | ⟨members, rfl, hnodup, hall⟩ := htypography
  · simp [Template.references?] at hreferences
  have hleaves := Template.leaves_of_references? hreferences
  simp only [Template.fill, map_eq_ok] at hd
  obtain ⟨ds, hds, rfl⟩ := hd
  rw [Template.fillMembers_eq_ok] at hds
  have hnames : (Members.names ds).Nodup := Template.names_of_fillMembers hds ▸ hnodup
  -- the data of a member stands under the name of the member
  have hmember : ∀ m ∈ members, t.Reaches (targetValue values) m.2 ∧ ∃ e,
      m.2.fill (targetValue values) = .ok e ∧ Members.get? m.1 ds = some e := by
    intro m hm
    obtain ⟨e, he, hname, hfill⟩ := exists_right hds hm
    refine ⟨hreaches.member hm, e.2, hfill, ?_⟩
    exact (Members.get?_eq_some_iff hnames).mpr (hname ▸ he)
  constructor
  · intro p r hp
    obtain ⟨m, hm, q, hq, rfl, rfl⟩ := Template.mem_leaves_object.mp (hleaves ▸ hp)
    obtain ⟨hreaches', e, hfill, hget⟩ := hmember m hm
    obtain ⟨c, hc, hpart⟩ := part_of_property (hall m hm) hreaches' hq hfill
    refine ⟨c, hc, hpart.imp_left fun hat => ?_⟩
    simpa [Data.at?, hget] using hat
  · rintro base hbase ⟨i, r, hp⟩
    obtain rfl : [.field Table.familyField] = base := Option.some.inj hbase
    obtain ⟨⟨name, u⟩, hm, q, hq, hsteps, rfl⟩ := Template.mem_leaves_object.mp (hleaves ▸ hp)
    simp only [List.cons_append, List.nil_append, List.cons.injEq, Step.field.injEq] at hsteps
    obtain ⟨rfl, hpath⟩ := hsteps
    obtain ⟨hreaches', e, hfill, hget⟩ := hmember _ hm
    -- the slot is inside the property, which was read as a list then
    obtain ⟨n, hn, hproperty⟩ := exists_property hnode hread hm
    have hinside : q.1 ≠ [] := by simp [← hpath]
    obtain ⟨items, rfl, -⟩ : IsFamilies u := families_of_hole (hall _ hm) hq hinside
    obtain ⟨written, ds', hwritten, rfl, hds'⟩ :=
      concatenated_of_fontFamily (families_of_hole hproperty hq hinside)
        (fun j r => by
          rw [List.singleton_append, hleaves, Template.mem_leaves_member hnodup hm])
        ⟨i, _, hp⟩ hreaches' hfill
    exact ⟨written, ds', by simp [Tree.at?, hn, hwritten], by simp [Data.at?, hget], hds'⟩

/-- The references inside a value are restored from the table. -/
theorem restored_of_literal {type : TokenType} {node : Tree} (hnode : node.WellKeyed)
    {template : Template} (hread : literal type node = .ok template)
    (hliteral : Literal type template) (hreaches : t.Reaches (targetValue values) template)
    {references : ReferenceTree} (hreferences : template.references? = some references) {d : Data}
    (hd : template.fill (targetValue values) = .ok d) : Restored t type references node d := by
  by_cases hfamilies : type = .fontFamily
  · subst hfamilies
    exact restored_of_families hread hliteral hreaches hreferences hd
  by_cases htypography : type = .typography
  · subst htypography
    exact restored_of_typography hnode hread hliteral hreaches hreferences hd
  refine restored_of_steady (steady_of_literal hfamilies htypography hliteral) ?_
    hreaches.target_eq hreferences hd node
  intro base hbase
  cases type <;> contradiction

/-- The references inside an entry are restored from the table, and each of them stands at a hole of
its template. -/
theorem restored_of_reading (hr : Genuine readings)
    (hgood : ∀ p ∈ allHoles readings, WellTargeted readings p.2) (hacyclic : Acyclic readings)
    (hv : Resolved readings values) (ht : tableOf values readings groups = .ok t) {r : Reading}
    (hmem : r ∈ readings) {p : String × Template} (hp : p ∈ r.values) {type : TokenType}
    {node : Tree} (hnode : node.WellKeyed) (hread : Grammar.value type node = .ok p.2) {c : Data}
    (hfill : p.2.fill (targetValue values) = .ok c) {v : Members Data}
    {references : ReferenceTree} (hreferences : (entryOf p.2 c v).references = some references) :
    Restored t type references node c ∧
      ∀ path r, (path, r) ∈ references.leaves → ∃ h, p.2.HasHole h ∧ h.reference = r := by
  obtain ⟨htree, hwhole⟩ := references_entryOf hreferences
  constructor
  · have hvalue : OrHole (some [type])
        (fun t => literal type node = .ok t ∧ Literal type t) p.2 :=
      orHole_spec hread fun hclosed h => ⟨h, literal_of_read hnode hclosed h⟩
    obtain hhole | ⟨hliterally, hliteral⟩ := hvalue
    · generalize p.2 = template at hhole hwhole
      cases hhole
      exact absurd rfl (hwhole _)
    · exact restored_of_literal hnode hliterally hliteral
        (reaches_of_reading hr hgood hacyclic hv ht hmem hp) htree hfill
  · intro path r hleaf
    rw [Template.leaves_of_references? htree, Template.leaves, List.mem_map] at hleaf
    obtain ⟨q, hq, heq⟩ := hleaf
    exact ⟨q.2, ⟨q, hq, rfl⟩, (Prod.mk.inj heq).2⟩

/-! ## Whole tables -/

/-- The references of an entry are those of a finished table; `node` is the value of the entry as it
is written in the document. -/
structure Referential (t : Table) (tok : Token) (e : Entry) (node : Tree) : Prop where
  /-- A value that was a reference as a whole is that of its target, which is there and has the same
  type, and nothing inside it is remembered as a reference. -/
  whole : ∀ r, e.reference = some r → e.references = none ∧
    ∃ target, t.token r.target = .ok target ∧ target.type = tok.type ∧
      ∃ other, target.entry r.mode = .ok other ∧ e.value = other.value
  /-- Of every reference inside a value the target is there, and the part where it stood is the
  value of the target, unless it stood in a list of font families. -/
  parts : ∀ references, e.references = some references →
    ∀ p r, (p, r) ∈ references.leaves →
      ∃ target other, t.token r.target = .ok target ∧ target.entry r.mode = .ok other ∧
        (e.value.at? p = some other.value ∨ IsSlot tok.type p)
  /-- A list of font families with references is the concatenation of what the items of the list
  that is written there add, one slot for each of them. -/
  families : ∀ references, e.references = some references →
    ∀ base, familiesPath tok.type = some base →
      (∃ i r, (base ++ [.index i], r) ∈ references.leaves) →
      ∃ written items, (node.at? base).bind Tree.items? = some written ∧
        e.value.at? base = some (.list items) ∧ Concatenated t references base written items
  /-- The token refers to another one as a whole when its default mode does. -/
  default : ∃ first, tok.entry defaultMode = .ok first ∧
    tok.aliasOf = first.reference.map Reference.target

/-- In the table of a document with distinct keys every reference leads to an entry, and the value
that is there is the one that stands in the place of the reference.  What an entry was made from is
where the names of the token and of the mode lead in the document. -/
theorem table_references {d : Document} (hd : d.root.WellKeyed) {t : Table} (ht : d.table = .ok t)
    {id mode : String} {tok : Token} {e : Entry} (htok : (id, tok) ∈ t.tokens)
    (he : (mode, e) ∈ tok.modes) :
    ∃ node, d.root.at? ((Path.names id ++ Discovery.valuePath mode).map .field) = some node ∧
      Referential t tok e node := by
  obtain ⟨s, hr, hgood, hacyclic, values, hv, htable⟩ := Document.exists_resolved hd ht
  obtain ⟨r, hmem, hid, htype, template, hmode, c, hc, v, -, rfl⟩ :=
    entry_spec hr.toReadable htable htok he
  obtain ⟨node, hat, hnode, hread⟩ := s.exists_written hd hmem htype hmode
  have htemplate : templateAt s.readings ⟨id, mode⟩ = .ok template :=
    (templateAt_eq_ok hr.toReadable).mpr ⟨r, hmem, hid, hmode⟩
  have hhole : ∀ h, template.HasHole h → (⟨id, mode⟩, h) ∈ allHoles s.readings :=
    fun h hh => mem_allHoles_of_templateAt hr.toReadable htemplate hh
  have hfill : template.fill (targetValue values) = .ok c :=
    hv.fill_eq hr.toReadable hmem hmode (hid ▸ hc)
  have htarget : ∀ h, template.HasHole h → ∃ target, t.token h.reference.target = .ok target ∧
      (∀ types, h.accepted = some types → target.type ∈ types) ∧
      ∃ other, target.entry h.reference.mode = .ok other ∧
        targetValue values h.reference = .ok other.value :=
    fun h hh => exists_target hr.toReadable htable (hgood _ (hhole h hh))
  have hrestored : ∀ references, (entryOf template c v).references = some references →
      Restored t tok.type references node c ∧ ∀ p reference, (p, reference) ∈ references.leaves →
        ∃ h, template.HasHole h ∧ h.reference = reference :=
    fun _ => restored_of_reading hr hgood hacyclic hv htable hmem hmode hnode hread hfill
  refine ⟨node, hid ▸ hat, ?_, ?_, ?_, ?_⟩
  · -- the whole value is a hole, and a hole can stand for values of its own type only
    intro reference hreference
    obtain ⟨hnone, h, rfl, rfl⟩ := reference_entryOf hreference
    obtain ⟨h', hwhole, haccepted⟩ | hliteral := hr.template hmem htype hmode
    · obtain rfl := Template.hole.inj hwhole
      obtain ⟨target, htoken, htypes, other, hother, hvalue⟩ :=
        htarget h (Template.hasHole_hole.mpr rfl)
      refine ⟨hnone, target, htoken, List.mem_singleton.mp (htypes _ haccepted), other, hother, ?_⟩
      rw [value_entryOf]
      exact Except.ok.inj (hfill.symm.trans hvalue)
    · exact absurd hliteral not_literal_hole
  · -- the part is the value of a target, and that is the value of an entry of the table
    intro references hreferences p reference hleaf
    obtain ⟨⟨hparts, -⟩, hholes⟩ := hrestored references hreferences
    obtain ⟨c', hc', hat⟩ := hparts p reference hleaf
    obtain ⟨h, hh, rfl⟩ := hholes p reference hleaf
    obtain ⟨target, htoken, -, other, hother, -⟩ := htarget h hh
    obtain rfl : c' = other.value := Except.ok.inj (hc'.symm.trans (target_of_entry htoken hother))
    rw [value_entryOf]
    exact ⟨target, other, htoken, hother, hat⟩
  · intro references hreferences
    rw [value_entryOf]
    exact (hrestored references hreferences).1.2
  · obtain ⟨first, hfirst⟩ := exists_default hr htable htok
    exact ⟨first, hfirst, aliasOf_of_entry hfirst⟩

/-- A document with a list of font families, and a longer list that refers to it. -/
def fonts : Document where
  root := (Data.object [("$type", .text "fontFamily"),
    ("body", .object [("$value", .list [.text "Inter", .text "Arial"])]),
    ("all", .object [("$value", .list [.text "\x7bbody\x7d", .text "serif"])])]).tree
  source := ""
  format := .data
  filename := Document.dataName

/-- For instance, the longer list has the families of the shorter one and then its own. -/
theorem table_references_fonts : ∃ t tok e, fonts.root.WellKeyed ∧ fonts.table = .ok t ∧
    ("all", tok) ∈ t.tokens ∧ (defaultMode, e) ∈ tok.modes ∧ e.references.isSome = true ∧
    e.value = .list [.text "Inter", .text "Arial", .text "serif"] ∧
    ∃ node, fonts.root.at? [.field "all", .field "$value"] = some node ∧
      Referential t tok e node := by
  have hkeyed : fonts.root.WellKeyed := by decide +kernel
  have hsome : (fonts.table.toOption.bind fun t =>
      (Members.get? "all" t.tokens).bind fun tok =>
        (Members.get? defaultMode tok.modes).bind fun e =>
          if e.references.isSome = true ∧
              e.value = .list [.text "Inter", .text "Arial", .text "serif"] then
            some (t, tok, e) else none).isSome = true := by
    decide +kernel
  obtain ⟨p, hfound⟩ := Option.isSome_iff_exists.mp hsome
  obtain ⟨t, ht, hfound⟩ := Option.bind_eq_some_iff.mp hfound
  obtain ⟨tok, htok, hfound⟩ := Option.bind_eq_some_iff.mp hfound
  obtain ⟨e, he, hfound⟩ := Option.bind_eq_some_iff.mp hfound
  obtain ⟨⟨hreferences, hvalue⟩, -⟩ := Option.ite_none_right_eq_some.mp hfound
  have htable : fonts.table = .ok t := toOption_eq_some.mp ht
  have htok' := Members.mem_of_get? htok
  have he' := Members.mem_of_get? he
  have hnames : Path.names "all" ++ Discovery.valuePath defaultMode = ["all", "$value"] := by
    decide +kernel
  obtain ⟨node, hat, hreferential⟩ := table_references hkeyed htable htok' he'
  rw [hnames] at hat
  exact ⟨t, tok, e, hkeyed, htable, htok', he', hreferences, hvalue, node, hat, hreferential⟩

end DesignTokens.Resolution
