import DesignTokens.Proofs.Css.Declarations
import DesignTokens.Proofs.Resolution.Links
import DesignTokens.Proofs.Tree.OfData

/-!
# Uses of custom properties

A value uses the custom properties of the tokens that it refers to, and a shorthand those of its own
parts.  In the block of the default mode whatever is used is declared (`uses_declared`), unless it
is the whole of a token with properties of a font: these have custom properties for their parts
only.
-/

namespace DesignTokens.Css

open Outcome Output Resolution

/-! ## What is used -/

theorem exists_stands {references : Option ReferenceTree} {value : Data}
    {read : List Step → Data → Except Fault String} {ps qs : List Property}
    (h : List.Forall₂ (Follows references value read) ps qs) {p : Property} (hp : p ∈ ps)
    {a : Piece} (ha : a ∈ p.value) : ∃ b, Stands references value read a b := by
  obtain ⟨q, -, hpq⟩ := exists_right h hp
  obtain ⟨b, -, hab⟩ := exists_right hpq.pieces ha
  exact ⟨b, hab⟩

/-- Every use of the custom property of a token comes from a reference to its default mode. -/
theorem remembers_of_use {type : TokenType} {e : Entry} {ps : List Property}
    (hnames : type = .typography → ∀ members, e.value = .object members →
      (Members.names members).Nodup)
    (h : entryProperties type e = .ok ps) {p : Property} (hp : p ∈ ps) {path : String}
    (hpath : .token path ∈ p.value) :
    ∃ r, Remembers e r ∧ r.writtenMode = none ∧ r.target = path := by
  rw [entryProperties] at h
  split at h
  · rename_i piece hpiece
    obtain rfl := Except.ok.inj h
    obtain ⟨r, hr, huse⟩ := Option.bind_eq_some_iff.mp hpiece
    obtain ⟨hmode, rfl⟩ := useOf?_eq_some.mp huse
    rw [List.mem_singleton.mp hp, whole, List.mem_singleton] at hpath
    exact ⟨r, .inl hr, hmode, (Piece.token.inj hpath).symm⟩
  · obtain ⟨qs, -, hall⟩ := exists_plain hnames h
    obtain ⟨b, hstands⟩ := exists_stands hall hp hpath
    cases hstands with
    | use htree hleaf hmode => exact ⟨_, .inr ⟨_, _, htree, hleaf⟩, hmode, rfl⟩

/-- A part of a value that a shorthand uses is declared with it. -/
theorem exists_part {t : Table} {ds : List Declaration} (hds : tableDeclarations t = .ok ds)
    {d : Declaration} (hd : d ∈ ds) {name : String} (hname : .part name ∈ d.property.value) :
    ∃ other ∈ ds, other.token = d.token ∧ other.mode = d.mode ∧ other.property.part = some name ∧
      other.property.isCommon = true ∧ Partless other.property.value := by
  obtain ⟨p, hp, htoken, e, he, ps, hps, hin⟩ := (mem_tableDeclarations hds).mp hd
  have hps' := hps
  rw [entryProperties] at hps'
  split at hps'
  · rename_i piece hpiece
    -- the use of another custom property as a whole is no shorthand
    obtain ⟨r, -, huse⟩ := Option.bind_eq_some_iff.mp hpiece
    obtain ⟨-, rfl⟩ := useOf?_eq_some.mp huse
    obtain rfl := Except.ok.inj hps'
    rw [List.mem_singleton.mp hin, whole, List.mem_singleton] at hname
    cases hname
  · obtain ⟨-, q, hq, hpart, hcommon, hpartless⟩ := part_of_properties hps' hin hname
    exact ⟨⟨d.token, d.mode, q⟩, (mem_tableDeclarations hds).mpr
      ⟨p, hp, htoken, e, he, ps, hps, hq⟩, rfl, rfl, hpart, hcommon, hpartless⟩

section

variable {t : Table} (hl : Linked t) {ds : List Declaration} (hds : tableDeclarations t = .ok ds)

include hl hds

/-- The tokens whose custom properties are used are there. -/
theorem exists_used {d : Declaration} (hd : d ∈ ds) {path : String}
    (hpath : .token path ∈ d.property.value) : ∃ tok, (path, tok) ∈ t.tokens := by
  obtain ⟨p, hp, -, e, he, ps, hps, hin⟩ := (mem_tableDeclarations hds).mp hd
  obtain ⟨r, hr, -, rfl⟩ :=
    remembers_of_use (fun htype => hl.names_nodup p hp htype (d.mode, e) he) hps hin hpath
  rcases hr with hwhole | ⟨tree, steps, htree, hleaf⟩
  · obtain ⟨-, target, other, hleads, -⟩ := hl.whole p hp (d.mode, e) he r hwhole
    exact ⟨target, hleads.token⟩
  · obtain ⟨target, other, hleads, -⟩ := hl.parts p hp (d.mode, e) he tree htree steps r hleaf
    exact ⟨target, hleads.token⟩

/-- A part that an entry has a custom property for is declared for each of its modes. -/
theorem exists_declaration {id : String} {tok : Token} (htok : (id, tok) ∈ t.tokens) {mode : String}
    {e : Entry} (he : (mode, e) ∈ tok.modes) {part : Option String}
    (hpart : part ∈ entryParts tok.type e) :
    ∃ d ∈ ds, d.token = id ∧ d.mode = mode ∧ d.property.part = part ∧
      d.property.isCommon = true := by
  obtain ⟨ps, hps⟩ := exists_entryProperties hds htok he
  rw [← parts_entryProperties hps] at hpart
  obtain ⟨p, hp, rfl⟩ := List.mem_map.mp hpart
  obtain ⟨hp, hcommon⟩ := List.mem_filter.mp hp
  refine ⟨⟨id, mode, p⟩, ?_, rfl, rfl, rfl, hcommon⟩
  exact (mem_tableDeclarations hds).mpr ⟨(id, tok), htok, (hl.id_eq _ htok).symm, e, he, ps, hps, hp⟩

end

/-! ## What is declared -/

/-- Whether a token has a custom property for its whole value: not when its default value is an
object with the properties of a font, unless this is the value of another token as a whole. -/
def HasWhole (tok : Token) : Prop :=
  ∀ e members, (defaultMode, e) ∈ tok.modes → tok.type = .typography → e.value = .object members →
    (e.reference.bind useOf?).isSome = true

theorem none_mem_entryParts {tok : Token} (h : HasWhole tok) {e : Entry}
    (he : (defaultMode, e) ∈ tok.modes) : none ∈ entryParts tok.type e := by
  rw [entryParts]
  split
  · exact List.mem_singleton_self _
  · rename_i hnone
    unfold literalParts
    split
    · exact List.mem_cons_self
    · exact List.mem_cons_self
    · rename_i htype hvalue
      exact absurd (h e _ he htype hvalue) hnone
    · exact List.mem_singleton_self _

theorem use_of_words {naming : Naming} {d : Declaration} {name : String}
    (h : .use name ∈ d.words naming) :
    (∃ path, .token path ∈ d.property.value ∧ name = naming path) ∨
      ∃ part, .part part ∈ d.property.value ∧ name = partName (naming d.token) (some part) := by
  obtain ⟨piece, hpiece, hword⟩ := List.mem_map.mp h
  cases piece with
  | text s => cases hword
  | part part => exact .inr ⟨part, hpiece, (Word.use.inj hword).symm⟩
  | token path => exact .inl ⟨path, hpiece, (Word.use.inj hword).symm⟩

/-- The style sheet of a document with distinct keys has in the block of the default mode lines for
custom properties, and a custom property that a line uses has a line there too, provided that the
tokens whose custom properties are used have one for their whole values. -/
theorem uses_declared {d : Document} (hd : d.root.WellKeyed) {t : Table} (ht : d.table = .ok t)
    {ds : List Declaration} (hds : tableDeclarations t = .ok ds)
    (hwhole : ∀ used ∈ ds, used.mode = defaultMode → ∀ path tok,
      .token path ∈ used.property.value → (path, tok) ∈ t.tokens → HasWhole tok) :
    ∃ lines others, build [plugin .standard] t =
        .ok [⟨Options.standard.filename, sheetText (.block rootSelector lines :: others)⟩] ∧
      ∀ line ∈ lines, ∃ shown ∈ ds, line = shown.item variableName ∧
        ∀ name, .use name ∈ shown.words variableName → ∃ text, .declaration name text ∈ lines := by
  have hl := exists_linked hd ht
  refine ⟨Options.standard.block (sheetStore [.standard] ds) defaultMode, _,
    build_single .standard hds, fun line hline => ?_⟩
  obtain ⟨shown, hshown, hshows, rfl⟩ := mem_block variableName_ne_empty hline
  obtain ⟨hmode, -, -⟩ := Options.shows_iff.mp hshows
  refine ⟨shown, hshown, rfl, fun name hname => ?_⟩
  -- a custom property of the default mode has its line, because no token is excluded
  have hdeclared : ∀ other ∈ ds, other.mode = defaultMode → other.property.isCommon = true →
      ∃ text, .declaration (other.name variableName) text ∈
        Options.standard.block (sheetStore [.standard] ds) defaultMode :=
    fun other hother hmode hcommon =>
      exists_mem_block variableName_ne_empty hother (Options.shows_iff.mpr ⟨hmode, hcommon, rfl⟩)
  rcases use_of_words hname with ⟨path, hpath, rfl⟩ | ⟨part, hpart, rfl⟩
  · obtain ⟨tok, htok⟩ := exists_used hl hds hshown hpath
    obtain ⟨e, he⟩ := hl.default _ htok
    obtain ⟨other, hother, rfl, hother', hnone, hcommon⟩ := exists_declaration hl hds htok he
      (none_mem_entryParts (hwhole shown hshown hmode path tok hpath htok) he)
    obtain ⟨text, htext⟩ := hdeclared other hother hother' hcommon
    exact ⟨text, by rwa [Declaration.name, hnone] at htext⟩
  · obtain ⟨other, hother, htoken, hother', hpart', hcommon, -⟩ := exists_part hds hshown hpart
    obtain ⟨text, htext⟩ := hdeclared other hother (hother'.trans hmode) hcommon
    exact ⟨text, by rwa [Declaration.name, hpart', htoken] at htext⟩

/-- A document with a time, a movement that refers to it, and a token that is this movement. -/
def movement : Document where
  root := (Data.object [
    ("time", .object [("$type", .text "duration"), ("$value", .text "2s")]),
    ("fade", .object [("$type", .text "transition"), ("$value", .object [
      ("duration", .text "\x7btime\x7d"),
      ("timingFunction", .list [.int 0, .int 0, .int 1, .int 1])])]),
    ("appear", .object [("$type", .text "transition"), ("$value", .text "\x7bfade\x7d")])]).tree
  source := ""
  format := .data
  filename := Document.dataName

/-- For instance, the custom properties of a time and of a movement are used and declared. -/
theorem uses_declared_movement : ∃ t ds, movement.root.WellKeyed ∧ movement.table = .ok t ∧
    tableDeclarations t = .ok ds ∧ (∃ used ∈ ds, .token "fade" ∈ used.property.value) ∧
    ∃ lines others, build [plugin .standard] t =
        .ok [⟨Options.standard.filename, sheetText (.block rootSelector lines :: others)⟩] ∧
      ∀ line ∈ lines, ∃ shown ∈ ds, line = shown.item variableName ∧
        ∀ name, .use name ∈ shown.words variableName → ∃ text, .declaration name text ∈ lines := by
  have hkeyed : movement.root.WellKeyed := by decide +kernel
  obtain ⟨t, ds, ht, hds, htypes, hused⟩ := exists_declared movement (fun t ds =>
    (∀ p ∈ t.tokens, p.2.type ≠ .typography) ∧
      ∃ used ∈ ds, .token "fade" ∈ used.property.value) (by decide +kernel)
  refine ⟨t, ds, hkeyed, ht, hds, hused, uses_declared hkeyed ht hds ?_⟩
  exact fun _ _ _ path tok _ htok _ _ _ htype => absurd htype (htypes _ htok)

/-- A document with properties of a font, and a token that is them as a whole. -/
def heading : Document where
  root := (Data.object [
    ("heading", .object [("$type", .text "typography"),
      ("$value", .object [("fontSize", .text "12px")])]),
    ("copy", .object [("$type", .text "typography"), ("$value", .text "\x7bheading\x7d")])]).tree
  source := ""
  format := .data
  filename := Document.dataName

/-- The copy uses a custom property for the heading as a whole, and there is none. -/
theorem not_declared_heading : ∃ t ds, heading.root.WellKeyed ∧ heading.table = .ok t ∧
    tableDeclarations t = .ok ds ∧
    let lines := Options.standard.block (sheetStore [.standard] ds) defaultMode
    (∃ text, .declaration "--copy" text ∈ lines) ∧
      (∃ shown ∈ ds, shown.mode = defaultMode ∧ shown.name variableName = "--copy" ∧
        shown.words variableName = [.use "--heading"]) ∧
      ∀ text, .declaration "--heading" text ∉ lines := by
  have hkeyed : heading.root.WellKeyed := by decide +kernel
  obtain ⟨t, ds, ht, hds, hnone, d, hd, hshows, hname, hwords⟩ := exists_declared heading
    (fun _ ds => (∀ d ∈ ds, d.name variableName ≠ "--heading") ∧
      ∃ d ∈ ds, Options.standard.shows defaultMode d = true ∧
        d.name variableName = "--copy" ∧ d.words variableName = [.use "--heading"])
    (by decide +kernel)
  refine ⟨t, ds, hkeyed, ht, hds, ?_, ?_, ?_⟩
  · rw [← hname]
    exact exists_mem_block variableName_ne_empty hd hshows
  · exact ⟨d, hd, (Options.shows_iff.mp hshows).1, hname, hwords⟩
  · intro text htext
    obtain ⟨d, hd, -, hitem⟩ := mem_block variableName_ne_empty htext
    rw [Declaration.item, Item.declaration.injEq] at hitem
    exact hnone d hd hitem.1.symm

end DesignTokens.Css
