import DesignTokens.Proofs.Draft.Content
import DesignTokens.Proofs.Pipeline
import DesignTokens.Proofs.Resolution.Tables

/-!
# Resolving at other places

Where a reference stands matters for the report of a failure and for nothing else.  Readings that
differ in places only are resolved for the same reasons, with the same values, so documents with the
same content have tables that differ in the places of tokens only (`table_content`).
-/

namespace DesignTokens

open Outcome

/-- A token as it would be at the origin. -/
def Token.atOrigin (t : Token) : Token := { t with span := .origin }

/-- A table with all its tokens at the origin. -/
def Table.atOrigin (t : Table) : Table :=
  { t with tokens := t.tokens.map fun p => (p.1, p.2.atOrigin) }

/-- Tables that differ in nothing but the places of their tokens. -/
def Table.SameContent (t u : Table) : Prop := t.atOrigin = u.atOrigin

namespace Resolution

/-- Readings of the same token, with the same values up to the places of references. -/
structure SameContent (r r' : Reading) : Prop where
  id_eq : r.draft.id = r'.draft.id
  type_eq : r.draft.type = r'.draft.type
  group_eq : r.draft.group = r'.draft.group
  description_eq : r.draft.description = r'.draft.description
  extensions_eq : r.draft.extensions = r'.draft.extensions
  values : List.Forall₂ (Keyed Template.SameContent) r.values r'.values

namespace SameContent

variable {r r' : Reading}

theorem symm (h : SameContent r r') : SameContent r' r where
  id_eq := h.id_eq.symm
  type_eq := h.type_eq.symm
  group_eq := h.group_eq.symm
  description_eq := h.description_eq.symm
  extensions_eq := h.extensions_eq.symm
  values := h.values.flip.imp fun _ _ hpq => hpq.symm.imp fun _ _ => Eq.symm

theorem names_eq (h : SameContent r r') : r.values.names = r'.values.names :=
  forall₂_map_eq.mp (h.values.imp fun _ _ hpq => (keyed_iff.mp hpq).1)

theorem slotsOf_eq (h : SameContent r r') : slotsOf r = slotsOf r' := by
  refine forall₂_map_eq.mp (h.values.imp fun p q hpq => ?_)
  rw [h.id_eq, (keyed_iff.mp hpq).1]

end SameContent

variable {readings others : List Reading} {values : Values} {groups : List Group} {t : Table}

theorem sameContent_symm (h : List.Forall₂ SameContent readings others) :
    List.Forall₂ SameContent others readings :=
  h.flip.imp fun _ _ => SameContent.symm

/-! ## References -/

theorem readable_content (hr : Readable readings) (h : List.Forall₂ SameContent readings others) :
    Readable others := by
  -- the paths are the same, one by one
  have hids : readings.map (fun r => r.draft.id) = others.map fun r => r.draft.id :=
    forall₂_map_eq.mp (h.imp fun _ _ => SameContent.id_eq)
  refine ⟨hids ▸ hr.ids_nodup, fun r' hr' => ?_, fun r' hr' => ?_⟩ <;>
    obtain ⟨r, hmem, hrr⟩ := exists_left h hr'
  · rw [← hrr.type_eq]
    exact hr.typed r hmem
  · rw [← hrr.names_eq]
    exact hr.modes_nodup r hmem

theorem slots_content (h : List.Forall₂ SameContent readings others) :
    readings.flatMap slotsOf = others.flatMap slotsOf := by
  rw [List.flatMap_def, List.flatMap_def,
    forall₂_map_eq.mp (h.imp fun _ _ => SameContent.slotsOf_eq)]

/-- A hole of the one readings has its counterpart in the others. -/
theorem exists_hole (h : List.Forall₂ SameContent readings others) {s : Slot} {g : Hole}
    (hg : (s, g) ∈ allHoles readings) :
    ∃ g', (s, g') ∈ allHoles others ∧ g.atOrigin = g'.atOrigin := by
  obtain ⟨r, hmem, p, hp, a, ha, rfl, rfl⟩ := mem_allHoles.mp hg
  obtain ⟨r', hmem', hrr⟩ := exists_right h hmem
  obtain ⟨q, hq, hpq⟩ := exists_right hrr.values hp
  obtain ⟨mode, htu⟩ := hpq
  -- a template at the origin has the holes of the template, at the origin
  have hholes := congrArg Template.holes htu
  rw [Template.holes_atOrigin, Template.holes_atOrigin] at hholes
  obtain ⟨b, hb, hab⟩ := exists_right (forall₂_map_eq.mpr hholes) ha
  exact ⟨b.2, mem_allHoles.mpr ⟨r', hmem', _, hq, b, hb, by rw [hrr.id_eq], rfl⟩,
    (Prod.ext_iff.mp hab).2⟩

/-- A hole is well targeted wherever it stands. -/
theorem wellTargeted_content (h : List.Forall₂ SameContent readings others) {g g' : Hole}
    (hgg : g.atOrigin = g'.atOrigin) (hg : WellTargeted readings g) : WellTargeted others g' := by
  obtain ⟨r, hmem, hid, hmode, htypes⟩ := hg
  obtain ⟨r', hmem', hrr⟩ := exists_right h hmem
  have href : g.reference = g'.reference := (congrArg Hole.reference hgg :)
  have haccepted : g.accepted = g'.accepted := (congrArg Hole.accepted hgg :)
  rw [href, hrr.id_eq] at hid
  rw [href, hrr.names_eq] at hmode
  rw [haccepted, hrr.type_eq] at htypes
  exact ⟨r', hmem', hid, hmode, htypes⟩

theorem allTargeted_content (h : List.Forall₂ SameContent readings others)
    (hgood : ∀ p ∈ allHoles readings, WellTargeted readings p.2) :
    ∀ p ∈ allHoles others, WellTargeted others p.2 := by
  rintro ⟨s, g'⟩ hg'
  obtain ⟨g, hg, hgg⟩ := exists_hole (sameContent_symm h) hg'
  exact wellTargeted_content h hgg.symm (hgood _ hg)

theorem acyclic_content (h : List.Forall₂ SameContent readings others)
    (hacyclic : Acyclic readings) : Acyclic others := by
  refine fun s hs => hacyclic s (Relation.TransGen.mono ?_ s s hs)
  rintro a b ⟨g', hg', rfl⟩
  obtain ⟨g, hg, hgg⟩ := exists_hole (sameContent_symm h) hg'
  have href : g.reference = g'.reference := (congrArg Hole.reference hgg.symm :)
  exact ⟨g, hg, congrArg slotOf href⟩

/-! ## Values -/

theorem templateAt_content (hr : Readable readings) (h : List.Forall₂ SameContent readings others)
    {s : Slot} {template : Template} (ht : templateAt readings s = .ok template) :
    ∃ u, templateAt others s = .ok u ∧ template.SameContent u := by
  obtain ⟨r, hmem, hid, hmode⟩ := (templateAt_eq_ok hr).mp ht
  obtain ⟨r', hmem', hrr⟩ := exists_right h hmem
  obtain ⟨q, hq, hpq⟩ := exists_right hrr.values hmode
  obtain ⟨mode, htu⟩ := hpq
  exact ⟨_, (templateAt_eq_ok (readable_content hr h)).mpr ⟨r', hmem', hrr.id_eq ▸ hid, hq⟩, htu⟩

/-- Templates with the same content are filled with the same data. -/
theorem fill_content {value : Reference → Except Fault Data} {t u : Template}
    (h : t.SameContent u) : t.fill value = u.fill value := by
  rw [← Template.fill_atOrigin, h, Template.fill_atOrigin]

/-- The values that resolve readings resolve those with the same content. -/
theorem resolved_content (hr : Readable readings) (h : List.Forall₂ SameContent readings others)
    (hv : Resolved readings values) : Resolved others values where
  nodup := hv.nodup
  mem_iff s := by rw [← slots_content h, hv.mem_iff]
  filled p hp := by
    obtain ⟨template, ht, hfill⟩ := hv.filled p hp
    obtain ⟨u, hu, htu⟩ := templateAt_content hr h ht
    exact ⟨u, hu, by rw [← fill_content htu, hfill]⟩

/-! ## Tables -/

theorem entryOf_atOrigin (template : Template) (d : Data) (v : Members Data) :
    entryOf template.atOrigin d v = entryOf template d v := by
  cases template with
  | hole h => rfl
  | scalar s => rfl
  | list items =>
    have hreferences := Template.references?_atOrigin (.list items)
    rw [Template.atOrigin_list] at hreferences ⊢
    simp [entryOf, hreferences]
  | object members =>
    have hreferences := Template.references?_atOrigin (.object members)
    rw [Template.atOrigin_object] at hreferences ⊢
    simp [entryOf, hreferences]

theorem entryOf_content {t u : Template} (h : t.SameContent u) (d : Data) (v : Members Data) :
    entryOf t d v = entryOf u d v := by
  rw [← entryOf_atOrigin, h, entryOf_atOrigin]

/-- The entry of a mode does not depend on places. -/
theorem modeEntry_content {id : String} {type : TokenType} {p q : String × Template}
    (h : Keyed Template.SameContent p q) :
    modeEntry values id type p = modeEntry values id type q := by
  obtain ⟨mode, htu⟩ := h
  simp only [modeEntry, entry_eq, entryOf_content htu]

theorem token_content {r r' : Reading} (h : SameContent r r') :
    CarriesOver (fun tok tok' => tok.atOrigin = tok'.atOrigin) (token values r)
      (token values r') := by
  cases htype : r.draft.type with
  | none =>
    have herror : token values r = .error (.untyped r.draft.id) := by
      unfold token
      rw [htype]
      rfl
    rw [herror]
    exact .error
  | some type =>
    rw [token_eq htype, token_eq (h.type_eq ▸ htype), ← h.id_eq,
      mapM_eq_of_forall₂ h.values fun _ _ => modeEntry_content, map_eq_pure_bind, map_eq_pure_bind]
    refine .same_bind fun modes => .ok ?_
    simp only [Token.atOrigin, finish, h.id_eq, h.group_eq, h.description_eq, h.extensions_eq]

theorem tableOf_content (h : List.Forall₂ SameContent readings others) :
    CarriesOver Table.SameContent (tableOf values readings groups)
      (tableOf values others groups) := by
  refine .bind (.mapM h fun _ _ => token_content) fun tokens tokens' htokens => .ok ?_
  have hsame : (tokens.map fun tok => (tok.id, tok.atOrigin)) =
      tokens'.map fun tok => (tok.id, tok.atOrigin) := by
    refine forall₂_map_eq.mp (htokens.imp fun tok tok' htok => ?_)
    have hid : tok.id = tok'.id := (congrArg Token.id htok :)
    rw [hid, htok]
  simp only [Table.SameContent, Table.atOrigin, List.map_map, Function.comp_def, hsame]

/-- Readings with the same content are resolved to tables with the same content. -/
theorem resolve_content (hr : Readable readings) (h : List.Forall₂ SameContent readings others) :
    CarriesOver Table.SameContent (resolve readings groups) (resolve others groups) := by
  intro t ht
  obtain ⟨hgood, hacyclic, values, hv, htable⟩ := (resolve_eq_ok hr).mp ht
  obtain ⟨t', htable', htt⟩ := tableOf_content h t htable
  exact ⟨t', (resolve_eq_ok (readable_content hr h)).mpr ⟨allTargeted_content h hgood,
    acyclic_content h hacyclic, values, resolved_content hr h hv, htable'⟩, htt⟩

/-! ## Documents -/

theorem values_content {d e : Draft} (h : d.SameContent e) :
    CarriesOver (List.Forall₂ (Keyed Template.SameContent)) d.values e.values := by
  rw [Draft.values, Draft.values, ← h.type_eq]
  cases d.type with
  | none => exact .error
  | some type =>
    refine .bind (Grammar.placeless_value type _ _ h.value) fun _ _ hfirst => ?_
    refine .bind (.mapM h.modes (S := Keyed Template.SameContent) fun m n hmn => ?_)
      fun _ _ hrest => .ok (.cons (.intro defaultMode hfirst) hrest)
    obtain ⟨mode, htu⟩ := hmn
    exact .bind (Grammar.placeless_value type _ _ htu) fun _ _ hvalue => .ok (.intro mode hvalue)

theorem readDraft_content {d e : Draft} (h : d.SameContent e) :
    CarriesOver SameContent (readDraft d) (readDraft e) :=
  .bind (values_content h) fun _ _ hvalues => .ok
    ⟨h.id_eq, h.type_eq, h.group_eq, h.description_eq, h.extensions_eq, hvalues⟩

/-- A document with the same content as one that has a table has that table, up to the places of
tokens. -/
theorem table_content {d d' : Document} (hd : d.root.WellKeyed)
    (h : d.root.SameContent d'.root) :
    CarriesOver Table.SameContent d.table d'.table := by
  intro t ht
  obtain ⟨s, hs⟩ := Document.table_eq_ok.mp ht
  obtain ⟨found, hfound, hsame⟩ := Discovery.inDocument_content hd h _ s.found_eq
  obtain ⟨drafts, hdrafts, hdraftssame⟩ := Inference.infer_content
    (Discovery.ids_nodup hd s.found_eq) hsame.drafts s.drafts_eq
  obtain ⟨readings, hreadings, hreadingssame⟩ :=
    CarriesOver.mapM hdraftssame (fun _ _ => readDraft_content) _ s.readings_eq
  let s' : d'.Steps := ⟨found, drafts, readings, hfound, hdrafts, hreadings⟩
  obtain ⟨t', ht', htt⟩ := resolve_content (s.genuine hd).toReadable hreadingssame t hs
  exact ⟨t', Document.table_eq_ok.mpr ⟨s', hsame.groups_eq ▸ ht'⟩, htt⟩

end Resolution

end DesignTokens
