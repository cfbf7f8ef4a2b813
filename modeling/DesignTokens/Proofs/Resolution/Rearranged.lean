import DesignTokens.Proofs.Resolution.Success
import DesignTokens.Proofs.Resolution.Tables
import DesignTokens.Proofs.Value.Unordered

/-!
# Resolving in another order

Documents that differ in the order of members have tables for the same reasons.  Their readings are
those of the same tokens with the same references, so these are well targeted and without cycles in
both, and every slot has the same value in both, with members in another order at most
(`table_rearranged`).
-/

namespace DesignTokens

open Outcome

/-! ## Tables in another order -/

/-- Entries of a mode with the same references and renditions, and the same value up to the order of
members. -/
structure Entry.Rearranged (e f : Entry) : Prop where
  value : e.value.Rearranged f.value
  references : Option.Rel ReferenceTree.Rearranged e.references f.references
  reference_eq : e.reference = f.reference
  variants_eq : e.variants = f.variants

/-- Tokens that are the same up to the order of members: under each mode stand entries that
correspond. -/
structure Token.Rearranged (t u : Token) : Prop where
  id_eq : t.id = u.id
  type_eq : t.type = u.type
  modes : Matched (Keyed Entry.Rearranged) t.modes u.modes
  aliasOf_eq : t.aliasOf = u.aliasOf
  group_eq : t.group = u.group
  span_eq : t.span = u.span
  description_eq : t.description = u.description
  extensions : Matched (Keyed Data.Rearranged) t.extensions u.extensions

/-- Tables that are the same up to the order of members: under each path stand tokens, and groups,
that correspond. -/
structure Table.Rearranged (t u : Table) : Prop where
  tokens : Matched (Keyed Token.Rearranged) t.tokens u.tokens
  groups : Matched (Keyed Group.Rearranged) t.groups u.groups

namespace Resolution

/-! ## Readings -/

/-- Readings of the same token, from trees that differ in the order of members. -/
structure Alike (r r' : Reading) : Prop where
  draft : r.draft.Rearranged r'.draft
  values : ∀ type, r.draft.type = some type →
    Matched (Keyed (Template.Rearranged type)) r.values r'.values

/-- The values of a draft are read in every order, each under its mode. -/
theorem values_rearranged {d e : Draft} (h : d.Rearranged e) :
    CarriesOver (fun vs ws => ∀ type, d.type = some type →
      Matched (Keyed (Template.Rearranged type)) vs ws) d.values e.values := by
  rw [Draft.values, Draft.values, ← h.type_eq]
  cases d.type with
  | none => exact .error
  | some type =>
    refine .bind (Grammar.value_rearranged type h.value) fun _ _ hfirst => ?_
    refine .bind (h.modes.mapM (S := Keyed (Template.Rearranged type)) fun m _ n hmn => ?_)
      fun _ _ hrest => ?_
    · obtain ⟨mode, htu⟩ := hmn
      exact .bind (Grammar.value_rearranged type htu) fun _ _ hvalue => .ok (.intro mode hvalue)
    · refine .ok fun type' htype => ?_
      obtain rfl := Option.some.inj htype
      exact .cons (.intro defaultMode hfirst) hrest

theorem readDraft_rearranged {d e : Draft} (h : d.Rearranged e) :
    CarriesOver Alike (readDraft d) (readDraft e) :=
  .bind (values_rearranged h) fun _ _ hvalues => .ok ⟨h, hvalues⟩

variable {readings others : List Reading} {values values' : Values}

/-! ## References -/

/-- A template of the one readings has its counterpart in the others. -/
theorem exists_template (h : Matched Alike readings others) {r : Reading} (hmem : r ∈ readings)
    {p : String × Template} (hp : p ∈ r.values) {type : TokenType}
    (htype : r.draft.type = some type) :
    ∃ r' ∈ others, Alike r r' ∧ ∃ u, (p.1, u) ∈ r'.values ∧ Template.Rearranged type p.2 u := by
  obtain ⟨r', hmem', hrr⟩ := h.exists_right hmem
  obtain ⟨q, hq, mode, htu⟩ := (hrr.values type htype).exists_right hp
  exact ⟨r', hmem', hrr, _, hq, htu⟩

/-- The holes of the others are those of the readings. -/
theorem mem_allHoles_rearranged (hr : Readable readings) (h : Matched Alike readings others)
    {s : Slot} {g : Hole} (hg : (s, g) ∈ allHoles others) : (s, g) ∈ allHoles readings := by
  obtain ⟨r', hmem', q, hq, a, ha, rfl, rfl⟩ := mem_allHoles.mp hg
  obtain ⟨r, hmem, hrr⟩ := h.exists_left hmem'
  obtain ⟨type, htype⟩ := hr.typed r hmem
  obtain ⟨p, hp, mode, htu⟩ := (hrr.values type htype).exists_left hq
  obtain ⟨b, hb, hhole⟩ := htu.hasHole_iff.mpr ⟨a, ha, rfl⟩
  exact mem_allHoles.mpr ⟨r, hmem, _, hp, b, hb, by rw [hrr.draft.id_eq], hhole.symm⟩

theorem wellTargeted_rearranged (hr : Readable readings) (h : Matched Alike readings others)
    {g : Hole} (hg : WellTargeted readings g) : WellTargeted others g := by
  obtain ⟨r, hmem, hid, hmode, htypes⟩ := hg
  obtain ⟨r', hmem', hrr⟩ := h.exists_right hmem
  obtain ⟨type, htype⟩ := hr.typed r hmem
  refine ⟨r', hmem', hrr.draft.id_eq ▸ hid, ?_, hrr.draft.type_eq ▸ htypes⟩
  exact (Members.names_perm (hrr.values type htype)).mem_iff.mp hmode

theorem acyclic_rearranged (hr : Readable readings) (h : Matched Alike readings others)
    (hacyclic : Acyclic readings) : Acyclic others := by
  refine fun s hs => hacyclic s (Relation.TransGen.mono ?_ s s hs)
  rintro a b ⟨g, hg, hb⟩
  exact ⟨g, mem_allHoles_rearranged hr h hg, hb⟩

/-! ## Values -/

/-- A colour is filled in the same way from values that have the same colours. -/
theorem fill_color_congr (hr : Genuine readings)
    (hgood : ∀ p ∈ allHoles readings, WellTargeted readings p.2) {r : Reading}
    (hmem : r ∈ readings) (htype : r.draft.type = some .color) {p : String × Template}
    (hp : p ∈ r.values)
    (hsame : ∀ g, p.2.HasHole g → (∃ target ∈ readings, target.draft.id = g.reference.target ∧
      target.draft.type = some .color) →
      targetValue values g.reference = targetValue values' g.reference) :
    p.2.fill (targetValue values) = p.2.fill (targetValue values') := by
  refine Template.fill_congr fun g hg => hsame g hg ?_
  obtain ⟨h, hhole, haccepted⟩ | hliteral := hr.template hmem htype hp
  · -- a reference in the place of a colour leads to a colour
    rw [hhole, Template.hasHole_hole] at hg
    subst hg
    have hin : (⟨r.draft.id, p.1⟩, h) ∈ allHoles readings :=
      mem_allHoles.mpr ⟨r, hmem, p, hp, ([], h), by simp [hhole, Template.holes], rfl, rfl⟩
    obtain ⟨target, htarget, hid, -, htypes⟩ := hgood _ hin
    obtain ⟨found, hfound, htype'⟩ := htypes _ haccepted
    obtain rfl := List.mem_singleton.mp hfound
    exact ⟨target, htarget, hid, htype'⟩
  · exact absurd hg (Grammar.solid_of_isColor hliteral g)

/-- Every slot has its value in both orders, with members in another order at most.  A colour is the
same, since there is nothing in it to put in another order. -/
theorem valueAt_rearranged (hr : Genuine readings) (hr' : Readable others)
    (h : Matched Alike readings others)
    (hgood : ∀ p ∈ allHoles readings, WellTargeted readings p.2) (hacyclic : Acyclic readings)
    (hv : Resolved readings values) (hv' : Resolved others values') :
    ∀ s d, (s, d) ∈ values → ∃ d', valueAt values' s = .ok d' ∧ d.Rearranged d' ∧
      ∀ r ∈ readings, r.draft.id = s.token → r.draft.type = some .color → d = d' := by
  refine hv.induction hr.toReadable hgood hacyclic fun s t d ht hfill ih => ?_
  obtain ⟨r, hmem, hid, hmode⟩ := (templateAt_eq_ok hr.toReadable).mp ht
  obtain ⟨type, htype⟩ := hr.typed r hmem
  obtain ⟨r', hmem', hrr, u, hu, htu⟩ := exists_template h hmem hmode htype
  -- the value of the slot in the other order
  have hslot : s ∈ others.flatMap slotsOf :=
    mem_flatMap_slotsOf.mpr ⟨r', hmem', by rw [← hrr.draft.id_eq, hid], List.mem_map_of_mem hu⟩
  obtain ⟨⟨s', d'⟩, hp, rfl⟩ := List.mem_map.mp ((hv'.mem_iff s).mpr hslot)
  have hd' : valueAt values' s' = .ok d' := (valueAt_eq_ok hv'.nodup).mpr hp
  have hfill' : u.fill (targetValue values') = .ok d' :=
    hv'.fill_eq hr' hmem' hu (by rw [← hrr.draft.id_eq, hid]; exact hd')
  refine ⟨d', hd', ?_, fun r₀ hmem₀ hid₀ hcolor => ?_⟩
  · have hfills : CarriesOver Data.Rearranged (t.fill (targetValue values))
        (u.fill (targetValue values')) := by
      refine htu.fill fun g hg c hc => ?_
      obtain ⟨c', hc', e, he, hrearranged, -⟩ := ih g hg
      obtain rfl := Except.ok.inj (hc.symm.trans hc')
      exact ⟨e, he, hrearranged⟩
    obtain ⟨e, he, hrearranged⟩ := hfills d hfill
    obtain rfl := Except.ok.inj (he.symm.trans hfill')
    exact hrearranged
  · obtain rfl : r₀ = r := List.inj_on_of_nodup_map hr.ids_nodup hmem₀ hmem (hid₀.trans hid.symm)
    obtain rfl := Option.some.inj (htype.symm.trans hcolor)
    cases htu
    have hsame : t.fill (targetValue values) = t.fill (targetValue values') := by
      refine fill_color_congr hr hgood hmem htype hmode ?_
      rintro g hg ⟨target, htarget, hid', htype'⟩
      obtain ⟨c, hc, c', hc', -, heq⟩ := ih g hg
      obtain rfl := heq target htarget hid' htype'
      exact hc.trans hc'.symm
    exact Except.ok.inj (hfill.symm.trans (hsame.trans hfill'))

/-- Every mode of the readings has its value in both orders.  Colours are the same in both. -/
def SameValues (readings : List Reading) (values values' : Values) : Prop :=
  ∀ r ∈ readings, ∀ type, r.draft.type = some type → ∀ mode d,
    valueAt values ⟨r.draft.id, mode⟩ = .ok d → ∃ d', valueAt values' ⟨r.draft.id, mode⟩ = .ok d' ∧
      d.Rearranged d' ∧ (type = .color → d = d')

theorem sameValues_of_resolved (hr : Genuine readings) (hr' : Readable others)
    (h : Matched Alike readings others)
    (hgood : ∀ p ∈ allHoles readings, WellTargeted readings p.2) (hacyclic : Acyclic readings)
    (hv : Resolved readings values) (hv' : Resolved others values') :
    SameValues readings values values' := by
  intro r hmem type htype mode d hd
  obtain ⟨d', hd', hrearranged, hcolor⟩ := valueAt_rearranged hr hr' h hgood hacyclic hv hv' _ d
    ((valueAt_eq_ok hv.nodup).mp hd)
  exact ⟨d', hd', hrearranged, fun htype' => hcolor r hmem rfl (htype' ▸ htype)⟩

/-! ## Tables -/

theorem entryOf_rearranged {type : TokenType} {t u : Template} (htu : Template.Rearranged type t u)
    {d d' : Data} (hd : d.Rearranged d') (variants : Members Data) :
    (entryOf t d variants).Rearranged (entryOf u d' variants) := by
  have hreferences := htu.references?
  cases htu with
  | properties hperm => exact ⟨hd, hreferences, rfl, rfl⟩
  | same =>
    cases t with
    | hole g => exact ⟨hd, .none, rfl, rfl⟩
    | _ => exact ⟨hd, hreferences, rfl, rfl⟩

theorem modeEntry_rearranged (hvalues : SameValues readings values values') {r : Reading}
    (hmem : r ∈ readings) {type : TokenType} (htype : r.draft.type = some type)
    {p q : String × Template} (hpq : Keyed (Template.Rearranged type) p q) :
    CarriesOver (Keyed Entry.Rearranged) (modeEntry values r.draft.id type p)
      (modeEntry values' r.draft.id type q) := by
  obtain ⟨mode, htu⟩ := hpq
  intro e he
  obtain ⟨d, hd, v, hv, rfl⟩ := modeEntry_eq_ok.mp he
  obtain ⟨d', hd', hrearranged, hcolor⟩ := hvalues r hmem type htype mode d hd
  -- only colours have renditions, and they are the same
  have hv' : variantsOf type d' = .ok v := by
    by_cases htype' : type = .color
    · rwa [← hcolor htype']
    · rw [variantsOf, if_neg htype'] at hv ⊢
      exact hv
  exact ⟨_, modeEntry_eq_ok.mpr ⟨d', hd', v, hv', rfl⟩,
    .intro mode (entryOf_rearranged htu hrearranged v)⟩

theorem token_rearranged (hr : Readable readings) (hvalues : SameValues readings values values')
    {r r' : Reading} (hmem : r ∈ readings) (hrr : Alike r r') :
    CarriesOver Token.Rearranged (token values r) (token values' r') := by
  obtain ⟨type, htype⟩ := hr.typed r hmem
  rw [token_eq htype, token_eq (hrr.draft.type_eq ▸ htype), ← hrr.draft.id_eq,
    map_eq_pure_bind, map_eq_pure_bind]
  intro tok htok
  obtain ⟨modes, hmodes, htok⟩ := bind_eq_ok.mp htok
  obtain rfl := pure_eq_ok.mp htok
  obtain ⟨others, hothers, hmatched⟩ := (hrr.values type htype).mapM
    (fun p _ q hpq => modeEntry_rearranged hvalues hmem htype hpq) modes hmodes
  refine ⟨finish r'.draft type others, bind_eq_ok.mpr ⟨others, hothers, rfl⟩, ?_⟩
  have hdefault : Option.Rel Entry.Rearranged (Members.get? defaultMode modes)
      (Members.get? defaultMode others) := by
    refine Members.get?_matched hmatched ?_ defaultMode
    rw [names_modes (mapM_eq_ok_iff.mp hmodes)]
    exact hr.modes_nodup r hmem
  refine ⟨hrr.draft.id_eq, rfl, hmatched, ?_, hrr.draft.group_eq, hrr.draft.node.span_eq,
    hrr.draft.description_eq, hrr.draft.extensions⟩
  obtain ⟨he, hf⟩ | ⟨e, f, he, hf, hef⟩ := rel_iff.mp hdefault
  · simp [Token.aliasOf, finish, he, hf]
  · simp [Token.aliasOf, finish, he, hf, hef.reference_eq]

theorem tableOf_rearranged (hr : Readable readings) (h : Matched Alike readings others)
    (hvalues : SameValues readings values values') {groups groups' : List Group}
    (hgroups : Matched Group.Rearranged groups groups') :
    CarriesOver Table.Rearranged (tableOf values readings groups)
      (tableOf values' others groups') := by
  refine .bind (h.mapM fun r hmem r' hrr => token_rearranged hr hvalues hmem hrr) ?_
  intro tokens tokens' htokens
  refine .ok ⟨htokens.map fun t u htu => ?_, hgroups.map fun g g' hg => ?_⟩
  · rw [htu.id_eq]
    exact .intro u.id htu
  · rw [hg.id_eq]
    exact .intro g'.id hg

/-- Readings of the same tokens are resolved to the same table. -/
theorem resolve_rearranged (hr : Genuine readings) (hr' : Readable others)
    (h : Matched Alike readings others) {groups groups' : List Group}
    (hgroups : Matched Group.Rearranged groups groups') :
    CarriesOver Table.Rearranged (resolve readings groups) (resolve others groups') := by
  intro t ht
  obtain ⟨hgood, hacyclic, values, hv, htable⟩ := (resolve_eq_ok hr.toReadable).mp ht
  have hgood' : ∀ p ∈ allHoles others, WellTargeted others p.2 := fun p hp =>
    wellTargeted_rearranged hr.toReadable h (hgood _ (mem_allHoles_rearranged hr.toReadable h hp))
  have hacyclic' := acyclic_rearranged hr.toReadable h hacyclic
  obtain ⟨values', hv', -⟩ := resolve_eq_tableOf hr' hgood' hacyclic' groups'
  have hvalues := sameValues_of_resolved hr hr' h hgood hacyclic hv hv'
  obtain ⟨t', htable', htt⟩ := tableOf_rearranged hr.toReadable h hvalues hgroups t htable
  exact ⟨t', (resolve_eq_ok hr').mpr ⟨hgood', hacyclic', values', hv', htable'⟩, htt⟩

/-! ## Documents -/

/-- The table of a document is found in every order of members. -/
theorem table_carriesOver {d d' : Document} (h : d.root.Rearranged d'.root) :
    CarriesOver Table.Rearranged d.table d'.table := by
  intro t ht
  obtain ⟨s, hs⟩ := Document.table_eq_ok.mp ht
  obtain ⟨found, hfound, hmatched⟩ := Discovery.inDocument_rearranged h _ s.found_eq
  obtain ⟨drafts, hdrafts, hdraftsmatched⟩ := Inference.infer_rearranged
    (Discovery.ids_nodup h.wellKeyed s.found_eq) hmatched.drafts s.drafts_eq
  obtain ⟨readings, hreadings, halike⟩ :=
    hdraftsmatched.mapM (fun _ _ _ => readDraft_rearranged) _ s.readings_eq
  let s' : d'.Steps := ⟨found, drafts, readings, hfound, hdrafts, hreadings⟩
  obtain ⟨t', ht', htt⟩ := resolve_rearranged (s.genuine h.wellKeyed)
    (s'.genuine h.symm.wellKeyed).toReadable halike hmatched.groups t hs
  exact ⟨t', Document.table_eq_ok.mpr ⟨s', ht'⟩, htt⟩

/-- Documents with distinct keys that differ only in the order of members both have a table or
neither has, and their tables are the same up to that order. -/
theorem table_rearranged {d d' : Document} (h : d.root.Rearranged d'.root) :
    ((∃ t, d.table = .ok t) ↔ ∃ t', d'.table = .ok t') ∧
      ∀ t t', d.table = .ok t → d'.table = .ok t' → t.Rearranged t' := by
  refine ⟨⟨?_, ?_⟩, fun t t' ht ht' => ?_⟩
  · rintro ⟨t, ht⟩
    obtain ⟨t', ht', -⟩ := table_carriesOver h t ht
    exact ⟨t', ht'⟩
  · rintro ⟨t', ht'⟩
    obtain ⟨t, ht, -⟩ := table_carriesOver h.symm t' ht'
    exact ⟨t, ht⟩
  · obtain ⟨u, hu, htu⟩ := table_carriesOver h t ht
    obtain rfl := Except.ok.inj (hu.symm.trans ht')
    exact htu

/-- A document with a reference to a number that comes after it. -/
def copyAndNumber : Document where
  root := (Data.object [
    ("copy", .object [("$value", .text "\x7bsize\x7d")]),
    ("size", .object [("$value", .int 4), ("$type", .text "number")])]).tree
  source := ""
  format := .data
  filename := Document.dataName

/-- For instance, a number and a reference to it can stand in either order. -/
theorem table_rearranged_copyAndNumber : numberAndCopy.root.Rearranged copyAndNumber.root ∧
    ∃ t t', numberAndCopy.table = .ok t ∧ copyAndNumber.table = .ok t' ∧ t.Rearranged t' := by
  have hsize : (Data.object [("$type", .text "number"), ("$value", .int 4)]).tree.Rearranged
      (Data.object [("$value", .int 4), ("$type", .text "number")]).tree :=
    Tree.WellKeyed.rearranged_of_perm (by decide +kernel) (.swap _ _ _)
  have hcopy : (Data.object [("$value", .text "\x7bsize\x7d")]).tree.WellKeyed := by decide +kernel
  have hroot : numberAndCopy.root.Rearranged copyAndNumber.root :=
    .mapping .origin (by decide +kernel)
      (.cons (.intro _ hsize) (.cons (.intro _ hcopy.rearranged) .nil)) (.swap _ _ _)
  obtain ⟨hiff, hsame⟩ := table_rearranged hroot
  have hsome : numberAndCopy.table.toOption.isSome = true := by decide +kernel
  obtain ⟨t, hsome⟩ := Option.isSome_iff_exists.mp hsome
  have ht : numberAndCopy.table = .ok t := toOption_eq_some.mp hsome
  obtain ⟨t', ht'⟩ := hiff.mp ⟨t, ht⟩
  exact ⟨hroot, t, t', ht, ht', hsame t t' ht ht'⟩

end Resolution

end DesignTokens
