import DesignTokens.Proofs.Draft.Differing
import DesignTokens.Proofs.Resolution.Links
import DesignTokens.Proofs.Resolution.Places

/-!
# Changes stay local

The tables of two documents that differ in the value of one slot agree wherever that slot is not
reached by references.  The slots that are not reached refer to each other only, so the induction
over the references of the one document finds the same templates and the same values in the other.

## Main statement

* `Resolution.table_differing`
-/

namespace DesignTokens

open Outcome

/-! ## Tables that agree on some slots -/

/-- Tokens that are the same but for their entries in modes that a condition does not hold of. -/
structure Token.AgreesAt (P : Slot → Prop) (t u : Token) : Prop where
  id_eq : t.id = u.id
  type_eq : t.type = u.type
  modes : List.Forall₂ (SameAt fun mode => P ⟨t.id, mode⟩) t.modes u.modes
  group_eq : t.group = u.group
  span_eq : t.span = u.span
  description_eq : t.description = u.description
  extensions_eq : t.extensions = u.extensions

/-- Tables with the same groups, and with tokens that are the same but for their entries in slots
that a condition does not hold of. -/
structure Table.AgreesAt (P : Slot → Prop) (t u : Table) : Prop where
  tokens : List.Forall₂ (fun p q => p.1 = q.1 ∧ p.2.AgreesAt P q.2) t.tokens u.tokens
  groups_eq : t.groups = u.groups

theorem Draft.AgreesBut.symm {slot : Slot} {d e : Draft} (h : d.AgreesBut slot e) :
    e.AgreesBut slot d where
  id_eq := h.id_eq.symm
  type_eq := h.type_eq.symm
  span_eq := h.span_eq.symm
  value := fun hne => (h.value (h.id_eq ▸ hne)).symm
  modes := h.id_eq ▸ (h.modes.imp fun _ _ => SameAt.symm).flip
  description_eq := h.description_eq.symm
  extensions_eq := h.extensions_eq.symm
  group_eq := h.group_eq.symm

namespace Resolution

variable {slot : Slot} {readings others : List Reading} {values values' : Values}

/-! ## Readings -/

/-- Readings of the same token that agree but for the value of one slot. -/
structure Reading.AgreesBut (slot : Slot) (r r' : Reading) : Prop where
  draft : r.draft.AgreesBut slot r'.draft
  values : List.Forall₂ (SameAt fun mode => ⟨r.draft.id, mode⟩ ≠ slot) r.values r'.values

theorem Reading.AgreesBut.symm {r r' : Reading} (h : r.AgreesBut slot r') :
    r'.AgreesBut slot r where
  draft := h.draft.symm
  values := h.draft.id_eq ▸ (h.values.imp fun _ _ => SameAt.symm).flip

/-- The same value is read of the same node. -/
theorem readMode_agrees {P : String → Prop} (type : TokenType) {m n : String × Tree}
    (h : SameAt P m n) : Agreeing (SameAt P) (readMode type m) (readMode type n) := by
  intro p q hp hq
  simp only [readMode, bind_eq_ok, pure_eq_ok] at hp hq
  obtain ⟨v, hv, rfl⟩ := hp
  obtain ⟨w, hw, rfl⟩ := hq
  refine ⟨h.1, fun hP => ?_⟩
  rw [h.2 hP] at hv
  exact Except.ok.inj (hv.symm.trans hw)

theorem readDraft_agrees {d e : Draft} (h : d.AgreesBut slot e) :
    Agreeing (Reading.AgreesBut slot) (readDraft d) (readDraft e) := by
  intro r r' hr hr'
  obtain ⟨rfl, hvalues⟩ := readDraft_eq_ok.mp hr
  obtain ⟨rfl, hvalues'⟩ := readDraft_eq_ok.mp hr'
  refine ⟨h, ?_⟩
  cases htype : r.draft.type with
  | none =>
    rw [Draft.values, htype] at hvalues
    cases hvalues
  | some type =>
    rw [values_eq _ htype] at hvalues
    rw [values_eq _ (h.type_eq ▸ htype)] at hvalues'
    -- the default mode comes first, and the other modes after it
    exact Agreeing.mapM (.cons ⟨rfl, h.value⟩ h.modes) (fun _ _ => readMode_agrees type) _ _
      hvalues hvalues'

/-- Another slot has the same template. -/
theorem templateAt_agrees (hr : Readable readings) (hr' : Readable others)
    (h : List.Forall₂ (Reading.AgreesBut slot) readings others) {s : Slot} (hne : s ≠ slot)
    {t : Template} (ht : templateAt readings s = .ok t) : templateAt others s = .ok t := by
  obtain ⟨r, hmem, hid, hmode⟩ := (templateAt_eq_ok hr).mp ht
  obtain ⟨r', hmem', hagrees⟩ := exists_right h hmem
  obtain ⟨⟨mode, t'⟩, hp, hname, hsame⟩ := exists_right hagrees.values hmode
  obtain rfl : s.mode = mode := hname
  obtain rfl : t = t' := hsame (by rwa [hid])
  exact (templateAt_eq_ok hr').mpr ⟨r', hmem', by rw [← hagrees.draft.id_eq, hid], hp⟩

/-! ## Values -/

/-- A slot that does not lead to the one where the readings differ has the same value. -/
theorem value_agrees (hr : Readable readings) (hr' : Readable others)
    (hgood : ∀ p ∈ allHoles readings, WellTargeted readings p.2) (hacyclic : Acyclic readings)
    (hv : Resolved readings values) (hv' : Resolved others values')
    (h : List.Forall₂ (Reading.AgreesBut slot) readings others) {s : Slot} {d : Data}
    (hs : valueAt values s = .ok d) (hreach : ¬ Relation.ReflTransGen (Refers readings) s slot) :
    valueAt values' s = .ok d := by
  refine hv.induction hr hgood hacyclic
    (P := fun s d => ¬ Relation.ReflTransGen (Refers readings) s slot → valueAt values' s = .ok d)
    ?_ s d ((valueAt_eq_ok hv.nodup).mp hs) hreach
  intro s t d ht hfill htargets hreach
  have hne : s ≠ slot := by
    rintro rfl
    exact hreach .refl
  refine hv'.valueAt_eq hr' (templateAt_agrees hr hr' h hne ht) ?_
  rw [← hfill]
  refine Template.fill_congr fun g hg => ?_
  -- what the template refers to does not lead to the slot either
  obtain ⟨c, hc, hsame⟩ := htargets g hg
  have hrefers : Refers readings s (slotOf g.reference) :=
    ⟨g, mem_allHoles_of_templateAt hr ht hg, rfl⟩
  rw [hc, targetValue, hsame fun hlead => hreach (.head hrefers hlead)]

/-! ## Tables -/

theorem token_agreesAt (hr : Readable readings) {P : Slot → Prop}
    (hP : ∀ s ∈ readings.flatMap slotsOf, P s → s ≠ slot ∧ valueAt values s = valueAt values' s)
    {r r' : Reading} (hmem : r ∈ readings) (h : r.AgreesBut slot r') {tok tok' : Token}
    (htok : token values r = .ok tok) (htok' : token values' r' = .ok tok') :
    tok.AgreesAt P tok' := by
  obtain ⟨type, htype⟩ := hr.typed r hmem
  obtain ⟨modes, hmodes, rfl⟩ := (token_eq_ok htype).mp htok
  obtain ⟨modes', hmodes', rfl⟩ := (token_eq_ok (h.draft.type_eq ▸ htype)).mp htok'
  refine ⟨h.draft.id_eq, rfl, ?_, h.draft.group_eq, h.draft.span_eq, h.draft.description_eq,
    h.draft.extensions_eq⟩
  refine forall₂_square h.values hmodes hmodes' ?_
  rintro p hin q _ _ ⟨hname, hsame⟩ hp hq
  obtain ⟨d, hd, v, hv, rfl⟩ := modeEntry_eq_ok.mp hp
  obtain ⟨d', hd', v', hv', rfl⟩ := modeEntry_eq_ok.mp hq
  refine ⟨hname, fun hslot => ?_⟩
  -- the same template with the same value has the same renditions
  obtain ⟨hne, hvalue⟩ : (⟨r.draft.id, p.1⟩ : Slot) ≠ slot ∧
      valueAt values ⟨r.draft.id, p.1⟩ = valueAt values' ⟨r.draft.id, p.1⟩ :=
    hP _ (mem_flatMap_slotsOf.mpr ⟨r, hmem, rfl, List.mem_map_of_mem hin⟩) hslot
  rw [← h.draft.id_eq, ← hname, ← hvalue, hd] at hd'
  obtain rfl := Except.ok.inj hd'
  obtain rfl := Except.ok.inj (hv.symm.trans hv')
  rw [hsame hne]

/-- Readings that agree but for one slot have tables that agree on all slots with the same value. -/
theorem tableOf_agreesAt (hr : Readable readings)
    (h : List.Forall₂ (Reading.AgreesBut slot) readings others) {P : Slot → Prop}
    (hP : ∀ s ∈ readings.flatMap slotsOf, P s → s ≠ slot ∧ valueAt values s = valueAt values' s)
    {groups : List Group} {t u : Table} (ht : tableOf values readings groups = .ok t)
    (hu : tableOf values' others groups = .ok u) : t.AgreesAt P u := by
  obtain ⟨tokens, htokens, rfl⟩ := tableOf_eq_ok.mp ht
  obtain ⟨tokens', htokens', rfl⟩ := tableOf_eq_ok.mp hu
  refine ⟨?_, rfl⟩
  rw [List.forall₂_map_left_iff, List.forall₂_map_right_iff]
  refine forall₂_square h htokens htokens' fun r hmem r' tok tok' hagrees htok htok' => ?_
  have hsame := token_agreesAt hr hP hmem hagrees htok htok'
  exact ⟨hsame.id_eq, hsame⟩

theorem slots_agree (h : List.Forall₂ (Reading.AgreesBut slot) readings others) :
    readings.flatMap slotsOf = others.flatMap slotsOf := by
  induction h with
  | nil => rfl
  | @cons r r' _ _ hagrees _ ih =>
    have hslots : slotsOf r = slotsOf r' := by
      rw [slotsOf, slotsOf, hagrees.draft.id_eq]
      exact forall₂_map_eq.mp (hagrees.values.imp fun p q hpq => by rw [hpq.1])
    rw [List.flatMap_cons, List.flatMap_cons, hslots, ih]

/-! ## Documents -/

/-- The type of a token in a table is the one that its draft leads to. -/
theorem type_of_leadsTo {d : Document} (hd : d.root.WellKeyed) (s : d.Steps)
    (hr : Readable s.readings) {groups : List Group} {t : Table}
    (ht : tableOf values s.readings groups = .ok t) {tok : Token} {e : Draft}
    (he : e ∈ s.found.drafts) (htok : (e.id, tok) ∈ t.tokens) {n : Nat} {type : TokenType}
    (hlead : Inference.LeadsTo s.found.drafts n e type) : tok.type = type := by
  have hids := Discovery.ids_nodup hd s.found_eq
  obtain ⟨r, hmem, hid, hrt⟩ := (mem_tokens hr ht).mp htok
  obtain ⟨found, hfound⟩ := hr.typed r hmem
  obtain ⟨modes, -, rfl⟩ := (token_eq_ok hfound).mp hrt
  obtain ⟨e', he', m, type', heq, hlead'⟩ :=
    exists_left (Inference.infer_leadsTo hids s.drafts_eq) (s.values_of_reading hmem).1
  -- the draft that was found under the path of the token is this one
  obtain rfl : e' = e := List.inj_on_of_nodup_map hids he' he (by rw [← hid, heq])
  obtain ⟨-, rfl⟩ := hlead.unique hlead'
  rw [heq] at hfound
  exact (Option.some.inj hfound).symm

/-- The tables of two documents that differ in the value of one slot have the same groups and the
same tokens, up to the entries of slots from which the references of both tables lead to that slot,
as long as its token has the same type. -/
theorem table_differing {d e : Document} {names : List String} {mode target : String}
    (hd : d.root.WellKeyed) (he : e.root.WellKeyed) (h : d.root.DifferInSlot mode names e.root)
    (htarget : Path.under none names = some target) {t u : Table} (ht : d.table = .ok t)
    (hu : e.table = .ok u) {tok tok' : Token} (htok : t.token target = .ok tok)
    (htok' : u.token target = .ok tok') (htype : tok.type = tok'.type) :
    t.AgreesAt (fun s => ¬ Relation.ReflTransGen (EntryRefers t) s ⟨target, mode⟩ ∨
      ¬ Relation.ReflTransGen (EntryRefers u) s ⟨target, mode⟩) u := by
  obtain ⟨s, hr, hgood, hacyclic, values, hv, htable⟩ := Document.exists_resolved hd ht
  obtain ⟨s', hr', hgood', hacyclic', values', hv', htable'⟩ := Document.exists_resolved he hu
  have hr := hr.toReadable
  have hr' := hr'.toReadable
  have hmem := (token_lookup (names_tokens hr htable ▸ hr.ids_nodup)).mp htok
  have hmem' := (token_lookup (names_tokens hr' htable' ▸ hr'.ids_nodup)).mp htok'
  -- what is found, the types that are inferred and what is read, in both documents
  have hfound := Discovery.inDocument_differing hd he h htarget _ _ s.found_eq s'.found_eq
  have hdrafts : List.Forall₂ (Draft.AgreesBut ⟨target, mode⟩) s.drafts s'.drafts := by
    refine Inference.infer_differing (Discovery.ids_nodup hd s.found_eq) hfound.drafts ?_
      s.drafts_eq s'.drafts_eq
    rintro x hx y hy rfl hyid n m type type' hlead hlead'
    have hyid : y.id = x.id := hyid
    rw [← type_of_leadsTo hd s hr htable hx hmem hlead, htype,
      type_of_leadsTo he s' hr' htable' hy (hyid ▸ hmem') hlead']
  have hreadings : List.Forall₂ (Reading.AgreesBut ⟨target, mode⟩) s.readings s'.readings :=
    Agreeing.mapM hdrafts (fun _ _ => readDraft_agrees) _ _ s.readings_eq s'.readings_eq
  rw [← hfound.groups_eq] at htable'
  refine tableOf_agreesAt hr hreadings (fun a ha hreach => ⟨?_, ?_⟩) htable htable'
  · rintro rfl
    exact hreach.elim (· .refl) (· .refl)
  · rcases hreach with hreach | hreach
    · obtain ⟨p, hp, rfl⟩ := List.mem_map.mp ((hv.mem_iff a).mpr ha)
      have hvalue := (valueAt_eq_ok hv.nodup).mpr hp
      rw [hvalue, value_agrees hr hr' hgood hacyclic hv hv' hreadings hvalue fun hlead =>
        hreach (Relation.ReflTransGen.mono (fun _ _ => entryRefers_of_refers hr htable) _ _ hlead)]
    · -- the same from the other document
      have hflip := hreadings.flip.imp fun _ _ => Reading.AgreesBut.symm
      rw [slots_agree hreadings] at ha
      obtain ⟨p, hp, rfl⟩ := List.mem_map.mp ((hv'.mem_iff a).mpr ha)
      have hvalue := (valueAt_eq_ok hv'.nodup).mpr hp
      have hunread : ¬ Relation.ReflTransGen (Refers s'.readings) p.1 ⟨target, mode⟩ := fun hlead =>
        hreach (Relation.ReflTransGen.mono (fun _ _ => entryRefers_of_refers hr' htable') _ _ hlead)
      rw [hvalue, value_agrees hr' hr hgood' hacyclic' hv' hv hflip hvalue hunread]

/-- A document with a length that has a second mode, references to both modes, and a length that has
nothing to do with it. -/
def sized (length : String) : Document where
  root := (Data.object [
    ("size", .object [("$type", .text "dimension"), ("$value", .text length),
      ("$extensions", .object [("mode", .object [("dark", .text "9px")])])]),
    ("copy", .object [("$value", .text "\x7bsize\x7d")]),
    ("night", .object [("$value", .text "\x7bsize#dark\x7d")]),
    ("gap", .object [("$type", .text "dimension"), ("$value", .text "1px")])]).tree
  source := ""
  format := .data
  filename := Document.dataName

def sizeIn (d : Document) : Option (Table × Token) :=
  d.table.toOption.bind fun t => (t.token "size").toOption.map fun tok => (t, tok)

theorem sizeIn_spec {d : Document} {t : Table} {tok : Token} (h : sizeIn d = some (t, tok)) :
    d.table = .ok t ∧ t.token "size" = .ok tok := by
  obtain ⟨t', ht, h⟩ := Option.bind_eq_some_iff.mp h
  obtain ⟨tok', htok, heq⟩ := Option.map_eq_some_iff.mp h
  obtain ⟨rfl, rfl⟩ := Prod.mk.inj heq
  exact ⟨toOption_eq_some.mp ht, toOption_eq_some.mp htok⟩

theorem table_differing_sized : ∃ t u tok tok',
    (sized "4px").root.WellKeyed ∧ (sized "6px").root.WellKeyed ∧
      (sized "4px").root.DifferInSlot defaultMode ["size"] (sized "6px").root ∧
      (sized "4px").table = .ok t ∧ (sized "6px").table = .ok u ∧ t.token "size" = .ok tok ∧
      u.token "size" = .ok tok' ∧ tok.type = tok'.type ∧
      t.AgreesAt (fun s => ¬ Relation.ReflTransGen (EntryRefers t) s ⟨"size", defaultMode⟩ ∨
        ¬ Relation.ReflTransGen (EntryRefers u) s ⟨"size", defaultMode⟩) u := by
  have hd : (sized "4px").root.WellKeyed := by decide +kernel
  have he : (sized "6px").root.WellKeyed := by decide +kernel
  have hdiffer : (sized "4px").root.DifferInSlot defaultMode ["size"] (sized "6px").root := by
    refine .member [] _ ⟨"size", .origin⟩ .origin (by decide) (.token (by decide +kernel) ?_)
    exact .member [_] [_] ⟨"$value", .origin⟩ .origin (.here _ _)
  have htypes : (sizeIn (sized "4px")).map (·.2.type) = some .dimension ∧
      (sizeIn (sized "6px")).map (·.2.type) = some .dimension := by decide +kernel
  obtain ⟨⟨t, tok⟩, hfirst, htok⟩ := Option.map_eq_some_iff.mp htypes.1
  obtain ⟨⟨u, tok'⟩, hsecond, htok'⟩ := Option.map_eq_some_iff.mp htypes.2
  obtain ⟨ht, hin⟩ := sizeIn_spec hfirst
  obtain ⟨hu, hin'⟩ := sizeIn_spec hsecond
  have htype : tok.type = tok'.type := htok.trans htok'.symm
  exact ⟨t, u, tok, tok', hd, he, hdiffer, ht, hu, hin, hin', htype,
    table_differing hd he hdiffer rfl ht hu hin hin' htype⟩

end Resolution

end DesignTokens
