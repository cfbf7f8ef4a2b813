import DesignTokens.Proofs.Css.Places
import DesignTokens.Proofs.Css.Uses

/-!
# Reading custom properties back

The uses in the value of a custom property can be replaced by the values of what they use, and so on
until no use is left.  The text that is left is the one that the value would have without references
(`readsPlain`), when every name stands for what its token declares and no target is written in
another way than the place where the reference to it stands.
-/

namespace DesignTokens.Css

open Outcome Output Resolution Relation

/-! ## Values without references -/

/-- The custom property for a part of a value; of several ones the last counts. -/
def partIn (ps : List Property) (name : String) : Option Property :=
  (ps.filter Property.isCommon).reverse.find? (·.part = some name)

/-- The text that pieces become when every part that is used is replaced by the value of its custom
property. -/
inductive Reads (ps : List Property) : List Piece → String → Prop where
  | nil : Reads ps [] ""
  | text (s : String) {pieces : List Piece} {rest : String} :
    Reads ps pieces rest → Reads ps (.text s :: pieces) (s ++ rest)
  | part {name : String} {p : Property} {pieces : List Piece} {s rest : String} :
    partIn ps name = some p → Reads ps p.value s → Reads ps pieces rest →
    Reads ps (.part name :: pieces) (s ++ rest)

theorem partIn_eq_some {ps : List Property} {name : String} {p : Property}
    (h : partIn ps name = some p) : p ∈ ps ∧ p.isCommon = true ∧ p.part = some name := by
  have hmem := List.mem_of_find?_eq_some h
  obtain ⟨hmem, hcommon⟩ := List.mem_filter.mp (List.mem_reverse.mp hmem)
  exact ⟨hmem, hcommon, by simpa using List.find?_some h⟩

theorem exists_partIn {ps : List Property} {p : Property} (hp : p ∈ ps)
    (hcommon : p.isCommon = true) {name : String} (hname : p.part = some name) :
    ∃ q, partIn ps name = some q := by
  refine Option.isSome_iff_exists.mp (List.find?_isSome.mpr ⟨p, ?_, by simpa using hname⟩)
  exact List.mem_reverse.mpr (List.mem_filter.mpr ⟨hp, hcommon⟩)

section

variable {o : Options} {id mode : String} (hdeclares : o.declares id = true) {ps : List Property}

include hdeclares

theorem cascade_alone {name : String} {p : Property} (h : partIn ps name = some p) :
    o.cascade (ps.map (⟨id, mode, ·⟩)) mode (partName (o.naming id) (some name)) =
      some (p.value.map (Piece.word o.naming (o.naming id))) := by
  have hfilter : (ps.map (⟨id, mode, ·⟩ : Property → Declaration)).filter (o.shows mode) =
      (ps.filter Property.isCommon).map (⟨id, mode, ·⟩) := by
    rw [List.filter_map]
    refine congrArg _ (List.filter_congr fun p _ => ?_)
    simp [Options.shows, hdeclares]
  have hname (p : Property) :
      (⟨id, mode, p⟩ : Declaration).name o.naming = partName (o.naming id) (some name) ↔
        p.part = some name :=
    (partName_injective _).eq_iff
  have hfind : (((ps.filter Property.isCommon).map (⟨id, mode, ·⟩ : Property → Declaration)).reverse).find?
      (·.name o.naming = partName (o.naming id) (some name)) = some ⟨id, mode, p⟩ := by
    rw [← List.map_reverse, List.find?_map]
    simp only [Function.comp_def, hname]
    rw [partIn] at h
    rw [h]
    rfl
  rw [Options.cascade, hfilter, valueIn, hfind]
  rfl

/-- The declarations of one mode of a token alone are expanded part by part. -/
theorem Reads.expands {pieces : List Piece} {s : String} (h : Reads ps pieces s) :
    Expands (o.cascade (ps.map (⟨id, mode, ·⟩)) mode)
      (pieces.map (Piece.word o.naming (o.naming id))) s := by
  induction h with
  | nil => exact .nil
  | text s _ ih => exact .text s ih
  | part hpart _ _ ihpart ih => exact .use (cascade_alone hdeclares hpart) ihpart ih

end

/-! ## Uses of other slots -/

/-- A custom property of one slot uses that of another one, which always is the default mode of a
token. -/
def UsesSlot (ds : List Declaration) (a b : Slot) : Prop :=
  b.mode = defaultMode ∧
    ∃ d ∈ ds, d.token = a.token ∧ d.mode = a.mode ∧ .token b.token ∈ d.property.value

/-- The references without a mode in an entry lead to tokens with a custom property for their whole
values, and its text is the one that is written in the places of the references. -/
structure WrittenAlike (t : Table) (type : TokenType) (e : Entry) : Prop where
  whole : ∀ r, Remembers e r → r.writtenMode = none → ∀ target, (r.target, target) ∈ t.tokens →
    HasWhole target
  places : ∀ tree steps r, e.references = some tree → (steps, r) ∈ tree.leaves →
    r.writtenMode = none → ∀ target other, LeadsTo t r target other →
    FitsPlace type steps target.type other.value

/-- In a scope the custom properties of a slot have the texts of the value without references. -/
def ReadsPlain (scope : String → Option (List Word)) (naming : Naming) (ds : List Declaration)
    (a : Slot) (type : TokenType) (e : Entry) : Prop :=
  ∃ qs, properties type e.plain = .ok qs ∧
    ∀ d ∈ ds, d.token = a.token → d.mode = a.mode → d.property.isCommon = true →
      ∃ q ∈ qs, q.isCommon = true ∧ q.part = d.property.part ∧
        ∃ s, Expands scope (d.words naming) s ∧ Reads qs q.value s

/-- What a slot declares is seen in a scope. -/
def Sees (scope : String → Option (List Word)) (naming : Naming) (ds : List Declaration)
    (a : Slot) : Prop :=
  ∀ d ∈ ds, d.token = a.token → d.mode = a.mode → d.property.isCommon = true →
    scope (d.name naming) = some (d.words naming)

theorem mode_of_unwritten {r : Reference} (h : r.writtenMode = none) : r.mode = defaultMode := by
  rw [Reference.mode, h]

section

variable {scope : String → Option (List Word)} {naming : Naming} {own : String}
  {references : Option ReferenceTree} {value : Data}
  {read : List Step → Data → Except Fault String}

/-- Pieces have the text of the pieces that stand in their places. -/
theorem exists_reads {qs : List Property} {as bs : List Piece}
    (h : List.Forall₂ (Stands references value read) as bs)
    (htoken : ∀ path, .token path ∈ as → ∀ s,
      Stands references value read (.token path) (.text s) → Expands scope [.use (naming path)] s)
    (hpart : ∀ name, .part name ∈ as → ∃ q s, partIn qs name = some q ∧ Reads qs q.value s ∧
      Expands scope [.use (partName own (some name))] s) :
    ∃ s, Expands scope (as.map (Piece.word naming own)) s ∧ Reads qs bs s := by
  induction h with
  | nil => exact ⟨"", .nil, .nil⟩
  | @cons a b as bs hab _ ih =>
    obtain ⟨rest, hrest, hreads⟩ := ih (fun path hpath => htoken path (List.mem_cons_of_mem _ hpath))
      fun name hname => hpart name (List.mem_cons_of_mem _ hname)
    cases hab with
    | text s => exact ⟨_, .text s hrest, .text s hreads⟩
    | part name =>
      obtain ⟨q, s, hq, hs, huse⟩ := hpart name List.mem_cons_self
      exact ⟨_, huse.append hrest, .part hq hs hreads⟩
    | use htree hleaf hmode hat hs =>
      exact ⟨_, (htoken _ List.mem_cons_self _ (.use htree hleaf hmode hat hs)).append hrest, .text _ hreads⟩

end

/-- No use stands in a slot of a list of font families. -/
theorem not_isSlot_of_textAt {type : TokenType} {steps : List Step} {d : Data} {s : String}
    (h : textAt type steps d = .ok s) : ¬ IsSlot type steps := by
  rintro ⟨base, i, hbase, rfl⟩
  cases type <;> simp [familiesPath] at hbase <;> subst hbase <;> simp [textAt] at h

section

variable {t : Table} (hl : Linked t) {ds : List Declaration} (hds : tableDeclarations t = .ok ds)
  {scope : String → Option (List Word)} {naming : Naming}

include hl hds

/-- The use of a token has the text of its whole value. -/
theorem expands_use {path : String} {target : Token} {other : Entry}
    (htarget : (path, target) ∈ t.tokens) (hother : (defaultMode, other) ∈ target.modes)
    (hwhole : HasWhole target) (hsees : Sees scope naming ds ⟨path, defaultMode⟩)
    (hreads : ReadsPlain scope naming ds ⟨path, defaultMode⟩ target.type other) :
    ∃ qs q s, properties target.type other.plain = .ok qs ∧ q ∈ qs ∧ q.isCommon = true ∧
      q.part = none ∧ Reads qs q.value s ∧ Expands scope [.use (naming path)] s := by
  obtain ⟨d, hd, htoken, hmode, hnone, hcommon⟩ := exists_declaration hl hds htarget hother
    (none_mem_entryParts hwhole hother)
  obtain ⟨qs, hqs, hall⟩ := hreads
  obtain ⟨q, hq, hqcommon, hqpart, s, hexpands, hqs'⟩ := hall d hd htoken hmode hcommon
  have hseen := hsees d hd htoken hmode hcommon
  rw [Declaration.name, hnone, htoken] at hseen
  exact ⟨qs, q, s, hqs, hq, hqcommon, hqpart.trans hnone, hqs', .ofUse hseen hexpands⟩

section

variable {p : String × Token} (hp : p ∈ t.tokens) {m : String × Entry} (hm : m ∈ p.2.modes)

include hp hm

/-- A slot declares the custom properties of its entry. -/
theorem mem_declarations_iff {ps : List Property} (hps : entryProperties p.2.type m.2 = .ok ps)
    {d : Declaration} (htoken : d.token = p.1) (hmode : d.mode = m.1) :
    d ∈ ds ↔ d.property ∈ ps := by
  rw [mem_tableDeclarations hds]
  constructor
  · rintro ⟨p', hp', hid, e, he, ps', hps', hin⟩
    have hname : p'.1 = p.1 := by rw [← hl.id_eq p' hp', ← hid, htoken]
    obtain rfl := List.inj_on_of_nodup_map hl.ids_nodup hp' hp hname
    have hentry := List.inj_on_of_nodup_map (hl.modes_nodup p' hp) he hm hmode
    obtain rfl : e = m.2 := congrArg Prod.snd hentry
    obtain rfl := Except.ok.inj (hps'.symm.trans hps)
    exact hin
  · intro hin
    exact ⟨p, hp, htoken.trans (hl.id_eq p hp).symm, m.2, hmode ▸ hm, ps, hps, hin⟩

variable (halike : WrittenAlike t p.2.type m.2)
  (hused : ∀ path, UsesSlot ds ⟨p.1, m.1⟩ ⟨path, defaultMode⟩ →
    Sees scope naming ds ⟨path, defaultMode⟩ ∧ ∀ target other, (path, target) ∈ t.tokens →
      (defaultMode, other) ∈ target.modes →
        ReadsPlain scope naming ds ⟨path, defaultMode⟩ target.type other)

include halike hused

/-- In the place of a reference the use of its target has the text of the value there. -/
theorem expands_stands {path s : String} (hpath : UsesSlot ds ⟨p.1, m.1⟩ ⟨path, defaultMode⟩)
    (h : Stands m.2.references m.2.value (textAt p.2.type) (.token path) (.text s)) :
    Expands scope [.use (naming path)] s := by
  cases h with
  | @use tree steps r d s htree hleaf hmode hat hs =>
    obtain ⟨target, other, hleads, hfits, hvalue⟩ := hl.parts p hp m hm tree htree steps r hleaf
    obtain rfl : d = other.value :=
      Option.some.inj (hat.symm.trans (hvalue.resolve_right (not_isSlot_of_textAt hs)))
    have hother : (defaultMode, other) ∈ target.modes := mode_of_unwritten hmode ▸ hleads.entry
    have hwhole := halike.whole r (.inr ⟨tree, steps, htree, hleaf⟩) hmode target hleads.token
    obtain ⟨hsees, hreads⟩ := hused _ hpath
    obtain ⟨qs, q, s', hqs, hq, hcommon, -, hreads', hexpands⟩ := expands_use hl hds hleads.token
      hother hwhole hsees (hreads target other hleads.token hother)
    -- the text of the target does not depend on where it is read
    have halone : Expands (Options.standard.cascade (qs.map (⟨"", "", ·⟩)) "")
        (q.value.map (Piece.word variableName (variableName ""))) s' := hreads'.expands rfl
    have hsame : s' = s := halone.unique
      (expands_target (e := other.plain) rfl (hl.variants _ hleads.token _ hleads.entry)
        (hl.written _ hleads.token _ hleads.entry)
        (halike.places tree steps r htree hleaf hmode target other hleads) hqs hq hcommon hfits hs)
    exact hsame ▸ hexpands

/-- An entry that is a reference as a whole has the texts of its target. -/
theorem readsPlain_reference {r : Reference} (hr : m.2.reference = some r)
    (hmode : r.writtenMode = none)
    (hps : entryProperties p.2.type m.2 = .ok [whole [.token r.target]]) :
    ReadsPlain scope naming ds ⟨p.1, m.1⟩ p.2.type m.2 := by
  obtain ⟨hnone, target, other, hleads, htype, hvalue⟩ := hl.whole p hp m hm r hr
  have hother : (defaultMode, other) ∈ target.modes := mode_of_unwritten hmode ▸ hleads.entry
  have hin (d : Declaration) (htoken : d.token = p.1) (hdmode : d.mode = m.1) :=
    mem_declarations_iff hl hds hp hm hps htoken hdmode
  have huses : UsesSlot ds ⟨p.1, m.1⟩ ⟨r.target, defaultMode⟩ :=
    ⟨rfl, ⟨p.1, m.1, whole [.token r.target]⟩,
      (hin _ rfl rfl).mpr (List.mem_singleton_self _), rfl, rfl, List.mem_singleton_self _⟩
  obtain ⟨hsees, hreads⟩ := hused _ huses
  obtain ⟨qs, q, s, hqs, hq, hcommon, hpart, hreads', hexpands⟩ := expands_use hl hds hleads.token
    hother (halike.whole r (.inl hr) hmode target hleads.token) hsees
    (hreads target other hleads.token hother)
  -- without references both entries are the same, so they have the same texts
  have hplain : m.2.plain = other.plain := by
    have hvariants : other.variants = m.2.variants := by
      have h := hl.variants _ hleads.token _ hleads.entry
      rw [htype, hvalue, hl.variants p hp m hm] at h
      exact (Except.ok.inj h).symm
    rw [Entry.plain, Entry.plain, hvalue, hvariants]
  refine ⟨qs, by rw [hplain, ← htype, hqs], fun d hd htoken hdmode _ => ?_⟩
  have hproperty := List.mem_singleton.mp ((hin d htoken hdmode).mp hd)
  refine ⟨q, hq, hcommon, by rw [hpart, hproperty]; rfl, s, ?_, hreads'⟩
  rw [Declaration.words, hproperty]
  exact hexpands

/-- An entry that is no use as a whole has the texts of its parts. -/
theorem readsPlain_parts (hown : Sees scope naming ds ⟨p.1, m.1⟩) {ps : List Property}
    (hps : entryProperties p.2.type m.2 = .ok ps) (hproperties : properties p.2.type m.2 = .ok ps) :
    ReadsPlain scope naming ds ⟨p.1, m.1⟩ p.2.type m.2 := by
  have hin {d : Declaration} (htoken : d.token = p.1) (hdmode : d.mode = m.1) :=
    mem_declarations_iff hl hds hp hm hps htoken hdmode
  obtain ⟨qs, hqs, hall⟩ := exists_plain (fun htype => hl.names_nodup p hp htype m hm) hproperties
  have htokens {a : Property} (ha : a ∈ ps) (path : String) (hpath : .token path ∈ a.value)
      (s : String) (hstands : Stands m.2.references m.2.value (textAt p.2.type) (.token path)
        (.text s)) : Expands scope [.use (naming path)] s :=
    expands_stands hl hds hp hm halike hused
      ⟨rfl, ⟨p.1, m.1, a⟩, (hin rfl rfl).mpr ha, rfl, rfl, hpath⟩ hstands
  have hcommon {a b : Property} (hab : Follows m.2.references m.2.value (textAt p.2.type) a b) :
      b.isCommon = a.isCommon := by
    rw [Property.isCommon, Property.isCommon, hab.variant_eq]
  refine ⟨qs, hqs, fun d hd htoken hdmode hdcommon => ?_⟩
  obtain ⟨q, hq, hdq⟩ := exists_right hall ((hin htoken hdmode).mp hd)
  refine ⟨q, hq, (hcommon hdq).trans hdcommon, hdq.part_eq, ?_⟩
  rw [Declaration.words, htoken]
  refine exists_reads hdq.pieces (htokens ((hin htoken hdmode).mp hd)) fun name hname => ?_
  -- the part has a custom property, which is declared and not put together itself
  obtain ⟨-, a, ha, hapart, hacommon, -⟩ :=
    part_of_properties hproperties ((hin htoken hdmode).mp hd) hname
  obtain ⟨b, hb, hab⟩ := exists_right hall ha
  obtain ⟨q', hq'⟩ := exists_partIn hb ((hcommon hab).trans hacommon) (hab.part_eq.trans hapart)
  obtain ⟨hq'mem, hq'common, hq'part⟩ := partIn_eq_some hq'
  obtain ⟨a', ha', haq'⟩ := exists_left hall hq'mem
  have hpartless : Partless a'.value := by
    intro other hother
    have hnone := (part_of_properties hproperties ha' hother).1
    rw [← haq'.part_eq, hq'part] at hnone
    cases hnone
  obtain ⟨s, hexpands, hreads⟩ := exists_reads haq'.pieces (htokens ha')
    fun other hother => absurd hother (hpartless other)
  have hseen := hown ⟨p.1, m.1, a'⟩ ((hin rfl rfl).mpr ha') rfl rfl
    ((hcommon haq').symm.trans hq'common)
  rw [Declaration.name, ← haq'.part_eq, hq'part] at hseen
  exact ⟨q', s, hq', hreads, .ofUse hseen hexpands⟩

end

/-! ## Following uses -/

/-- What a slot uses, its entry refers to. -/
theorem entryRefers_of_usesSlot {a b : Slot} (h : UsesSlot ds a b) : EntryRefers t a b := by
  obtain ⟨hmode, d, hd, htoken, hdmode, huse⟩ := h
  obtain ⟨p, hp, hid, e, he, ps, hps, hin⟩ := (mem_tableDeclarations hds).mp hd
  obtain ⟨r, hr, hwritten, htarget⟩ :=
    remembers_of_use (fun htype => hl.names_nodup p hp htype _ he) hps hin huse
  refine ⟨p.2, e, r, ?_, hdmode ▸ he, hr, ?_⟩
  · rw [← htoken, hid, hl.id_eq p hp]
    exact hp
  · rw [slotOf, htarget, mode_of_unwritten hwritten, ← hmode]

/-- When everything that a slot leads to is seen, its custom properties have the texts of its value. -/
theorem readsPlain (a : Slot) (hsees : ∀ b, ReflTransGen (UsesSlot ds) a b → Sees scope naming ds b)
    (halike : ∀ p ∈ t.tokens, ∀ m ∈ p.2.modes, ReflTransGen (UsesSlot ds) a ⟨p.1, m.1⟩ →
      WrittenAlike t p.2.type m.2) :
    ∀ p ∈ t.tokens, ∀ m ∈ p.2.modes, a = ⟨p.1, m.1⟩ →
      ReadsPlain scope naming ds a p.2.type m.2 := by
  -- references do not lead back to where they started
  induction a using hl.wellFounded.induction with
  | h a ih =>
    rintro p hp m hm rfl
    have hused (path : String) (huses : UsesSlot ds ⟨p.1, m.1⟩ ⟨path, defaultMode⟩) :
        Sees scope naming ds ⟨path, defaultMode⟩ ∧ ∀ target other, (path, target) ∈ t.tokens →
          (defaultMode, other) ∈ target.modes →
            ReadsPlain scope naming ds ⟨path, defaultMode⟩ target.type other := by
      refine ⟨hsees _ (.single huses), fun target other htarget hother => ?_⟩
      exact ih _ (entryRefers_of_usesSlot hl hds huses) (fun b hb => hsees b (.head huses hb))
        (fun q hq n hn hb => halike q hq n hn (.head huses hb)) _ htarget _ hother rfl
    obtain ⟨ps, hps⟩ := exists_entryProperties hds hp hm
    have hproperties := hps
    rw [entryProperties] at hproperties
    split at hproperties
    · rename_i piece hpiece
      obtain ⟨r, hr, huse⟩ := Option.bind_eq_some_iff.mp hpiece
      obtain ⟨hmode, rfl⟩ := useOf?_eq_some.mp huse
      obtain rfl := Except.ok.inj hproperties
      exact readsPlain_reference hl hds hp hm (halike p hp m hm .refl) hused hr hmode hps
    · exact readsPlain_parts hl hds hp hm (halike p hp m hm .refl) hused (hsees _ .refl) hps
        hproperties

end

end DesignTokens.Css
