import DesignTokens.Document
import DesignTokens.Proofs.Resolution.Repeating
import DesignTokens.Proofs.Table.Placing
import DesignTokens.Proofs.Table.Tokens
import DesignTokens.Proofs.Table.Values
import DesignTokens.Proofs.Value.Rereading

/-!
# Tables that are written and read again

A table that is written as a document is the table of that document, with all its tokens at the
origin, and so it is written as the same document once more (`round_trip`).
-/

namespace DesignTokens

open Outcome Resolution Discovery

namespace Resolution

/-! ## Readings as they are written -/

/-- A reading of a token of a type, whose values are normal and have the default mode first. -/
structure Faithful (r : Reading) (type : TokenType) (first : Template) (rest : Members Template) :
    Prop where
  type_eq : r.draft.type = some type
  values_eq : r.values = (defaultMode, first) :: rest
  default_not_mem : defaultMode ∉ rest.names
  mode_not_mem : modeField ∉ r.draft.extensions.names
  normal : ∀ p ∈ r.values, Grammar.Normal type p.2

/-- The value of the default mode as it is written. -/
def Reading.firstData (r : Reading) : Data :=
  match r.values with
  | [] => .null
  | (_, t) :: _ => t.written

/-- The values of the other modes as they are written. -/
def Reading.otherData (r : Reading) : Members Data :=
  r.values.tail.map fun p => (p.1, p.2.written)

/-- What is said about the token of a reading. -/
def Reading.members (r : Reading) : Members Data :=
  tokenMembers (r.draft.type.getD .string) r.draft.description r.firstData r.draft.extensions
    r.otherData

/-- The draft of a token that is written. -/
def Reading.rewritten (r : Reading) : Draft :=
  draftOf r.draft.id r.draft.group (r.draft.type.getD .string) r.draft.description r.firstData
    r.draft.extensions r.otherData

/-- The reading of a token that is written. -/
def Reading.again (r : Reading) : Reading :=
  ⟨r.rewritten, r.values.map fun p => (p.1, p.2.atOrigin)⟩

variable {r : Reading} {type : TokenType} {first : Template} {rest : Members Template}

theorem Faithful.firstData_eq (h : Faithful r type first rest) : r.firstData = first.written := by
  rw [Reading.firstData, h.values_eq]

theorem Faithful.otherData_eq (h : Faithful r type first rest) :
    r.otherData = rest.map fun p => (p.1, p.2.written) := by
  rw [Reading.otherData, h.values_eq, List.tail_cons]

theorem Faithful.names_otherData (h : Faithful r type first rest) :
    r.otherData.names = rest.names := by
  rw [h.otherData_eq, Members.names, Members.names, List.map_map]
  rfl

theorem Faithful.repeats (h : Faithful r type first rest) : Repeats r r.again where
  id_eq := rfl
  type_eq := by
    rw [Reading.again, Reading.rewritten, draftOf, h.type_eq]
    rfl
  group_eq := rfl
  description_eq := rfl
  extensions_eq := rfl
  span_eq := by
    rw [Reading.again, Reading.rewritten, draftOf, Data.tree]
    rfl
  values_eq := rfl

/-- What is written of a reading is read as the reading at the origin. -/
theorem Faithful.readDraft_eq (h : Faithful r type first rest) :
    readDraft r.rewritten = .ok r.again := by
  have hfirst : Grammar.Normal type first := h.normal (defaultMode, first) (by simp [h.values_eq])
  -- the other modes are read in the order in which they are written
  have hrest : (r.otherData.map fun m => (m.1, m.2.tree)).mapM (fun m : String × Tree => do
      return (m.1, ← Grammar.value type m.2)) =
        (.ok (rest.map fun p => (p.1, p.2.atOrigin)) : Except Failure (Members Template)) := by
    rw [h.otherData_eq, List.map_map, mapM_eq_ok_iff, List.forall₂_map_left_iff,
      List.forall₂_map_right_iff, List.forall₂_same]
    intro p hp
    have hnormal : Grammar.Normal type p.2 := h.normal p (by simp [h.values_eq, hp])
    simp [Grammar.value_written hnormal]
  refine readDraft_eq_ok.mpr ⟨rfl, ?_⟩
  rw [Draft.values]
  simp only [Reading.rewritten, draftOf, h.type_eq, Option.getD_some, h.firstData_eq,
    Grammar.value_written hfirst, bind, Except.bind, pure, Except.pure] at hrest ⊢
  rw [hrest, Reading.again, h.values_eq]
  rfl

/-! ## Documents as they are written -/

/-- The data of the token of a path. -/
def nodeOf (readings : List Reading) (id : String) : Data :=
  match find? id readings with
  | some r => .object r.members
  | none => .null

/-- The draft of the token of a path as it is written. -/
def draftAt (readings : List Reading) (p : String × Option String) : Draft :=
  match find? p.1 readings with
  | some r => r.rewritten
  | none => draftOf p.1 p.2 .string none .null [] []

variable {readings : List Reading}

theorem nodeOf_eq (hr : Readable readings) (hmem : r ∈ readings) :
    nodeOf readings r.draft.id = .object r.members := by
  rw [nodeOf, hr.find?_eq_some_iff.mpr ⟨hmem, rfl⟩]

theorem draftAt_eq (hr : Readable readings) (hmem : r ∈ readings) (group : Option String) :
    draftAt readings (r.draft.id, group) = r.rewritten := by
  rw [draftAt, hr.find?_eq_some_iff.mpr ⟨hmem, rfl⟩]

/-- The tokens that are written are found. -/
theorem finds_readings (hr : Readable readings)
    (hfaithful : ∀ r ∈ readings, ∃ type first rest, Faithful r type first rest) :
    Outline.Finds (nodeOf readings) (draftAt readings)
      (readings.map fun r => (r.draft.id, r.draft.group)) := by
  intro p hp
  obtain ⟨r, hmem, rfl⟩ := List.mem_map.mp hp
  obtain ⟨type, first, rest, h⟩ := hfaithful r hmem
  rw [draftAt_eq hr hmem, nodeOf_eq hr hmem]
  exact ⟨rfl, rfl, gatherChild_token _ _ _ _ _ h.mode_not_mem
    (h.names_otherData ▸ h.default_not_mem)⟩

end Resolution

namespace Document.Steps

variable {d : Document}

/-- The readings of a document stand in a forest with its groups. -/
theorem exists_forest (s : d.Steps) (hd : d.root.WellKeyed) :
    ∃ os, Outline.Forest none none os ∧
      s.readings.map (fun r => (r.draft.id, r.draft.group)) = Outline.tokensOf none os ∧
      s.found.groups = Outline.groupsOf os := by
  obtain ⟨os, hos, hdrafts, hgroups, -⟩ := inDocument_spec hd s.found_eq
  refine ⟨os, hos, ?_, hgroups⟩
  have hreadings : s.readings.map (fun r => (r.draft.id, r.draft.group)) =
      s.drafts.map fun e => (e.id, e.group) := by
    rw [← s.drafts_of_readings, List.map_map]
    rfl
  rw [hreadings, ← hdrafts]
  -- inference keeps paths and groups
  have hext := (s.extends_found hd).1
  generalize s.drafts = drafts at hext
  generalize s.found.drafts = found at hext
  induction hext with
  | nil => rfl
  | cons he _ ih => rw [List.map_cons, List.map_cons, ih, he.eq]

/-- Every reading of a document is written faithfully. -/
theorem faithful (s : d.Steps) (hd : d.root.WellKeyed) :
    ∀ r ∈ s.readings, ∃ type first rest, Faithful r type first rest := by
  intro r hr
  have hgenuine := s.genuine hd
  obtain ⟨type, htype⟩ := hgenuine.typed r hr
  obtain ⟨names, hnames⟩ := hgenuine.default_first r hr
  have hnodup := hgenuine.modes_nodup r hr
  -- the first value is that of the default mode
  obtain ⟨p, rest, hvalues⟩ : ∃ p rest, r.values = p :: rest := by
    refine List.exists_cons_of_ne_nil fun hnil => ?_
    rw [hnil] at hnames
    cases hnames
  rw [hvalues, Members.names, List.map_cons] at hnames hnodup
  obtain ⟨hp, -⟩ := List.cons.inj hnames
  obtain ⟨mode, first⟩ := p
  obtain rfl : mode = defaultMode := hp
  refine ⟨type, first, rest, htype, hvalues, (List.nodup_cons.mp hnodup).1,
    (s.draft_sound hd _ (s.values_of_reading hr).1).mode_not_mem, fun q hq => ?_⟩
  obtain ⟨node, hkeyed, hread⟩ := hgenuine.read r hr type htype q hq
  exact Grammar.normal_of_value hkeyed hread

/-- The document that is written of the readings of another one is read as they were. -/
theorem exists_again (s : d.Steps) (hd : d.root.WellKeyed) {os : List Outline}
    (hos : Outline.Forest none none os)
    (hreadings : s.readings.map (fun r => (r.draft.id, r.draft.group)) = Outline.tokensOf none os)
    (hgroups : s.found.groups = Outline.groupsOf os) {again : Document}
    (hroot : again.root = (Data.object (Outline.dataOf (nodeOf s.readings) none os)).tree) :
    ∃ s' : again.Steps, s'.readings = s.readings.map Reading.again ∧
      s'.found.groups = s.found.groups := by
  have hr := (s.genuine hd).toReadable
  have hfaithful := s.faithful hd
  have hfound := inDocument_data hos (hreadings ▸ finds_readings hr hfaithful)
  -- the drafts that are found stand in the order of the readings
  have hdrafts : (Outline.tokensOf none os).map (draftAt s.readings) =
      s.readings.map Reading.rewritten := by
    rw [← hreadings, List.map_map]
    exact List.map_congr_left fun r hmem => draftAt_eq hr hmem _
  rw [hdrafts] at hfound
  refine ⟨⟨⟨s.readings.map Reading.rewritten, Outline.groupsOf os⟩,
    s.readings.map Reading.rewritten, s.readings.map Reading.again, hroot ▸ hfound,
    Inference.infer_of_typed ?_, ?_⟩, rfl, hgroups.symm⟩
  · -- every draft has its type written out, so there is nothing to infer
    intro e he
    obtain ⟨r, -, rfl⟩ := List.mem_map.mp he
    exact ⟨_, rfl⟩
  · rw [mapM_eq_ok_iff, List.forall₂_map_left_iff, List.forall₂_map_right_iff, List.forall₂_same]
    intro r hmem
    obtain ⟨type, first, rest, h⟩ := hfaithful r hmem
    exact h.readDraft_eq

end Document.Steps

/-! ## Tables as they are written -/

theorem Table.target_atOrigin (t : Table) (r : Reference) : t.atOrigin.target r = t.target r := by
  have htoken : t.atOrigin.token r.target = Token.atOrigin <$> t.token r.target := by
    rw [Table.token, Table.token, Table.atOrigin, Members.get?_map]
    cases Members.get? r.target t.tokens <;> rfl
  rw [Table.target, Table.target, htoken]
  cases t.token r.target <;> rfl

variable {readings : List Reading} {values : Values} {groups : List Group} {t u : Table}

/-- The token of a reading is written as the reading is, in every table in which its references
reach their targets. -/
theorem Resolution.tokenNode_of_reading (hr : Genuine readings) (hv : Resolved readings values)
    {r : Reading} (hmem : r ∈ readings) {type : TokenType} {first : Template}
    {rest : Members Template} (h : Faithful r type first rest)
    (hreaches : ∀ p ∈ r.values, u.Reaches (targetValue values) p.2) {tok : Token}
    (htok : token values r = .ok tok) :
    tok.id = r.draft.id ∧ u.tokenNode tok = .ok (Written.ofData (.object r.members)) := by
  obtain ⟨modes, hmodes, rfl⟩ := (token_eq_ok h.type_eq).mp htok
  refine ⟨rfl, ?_⟩
  -- every entry is written as the template that it comes from
  have hwritten : List.Forall₂ (fun (p : String × Template) (q : String × Entry) =>
      q.1 = p.1 ∧ u.asWritten type q.2 = .ok (Written.ofData p.2.written)) r.values modes := by
    refine forall₂_imp hmodes fun p hp q hq => ?_
    obtain ⟨d, hd, v, -, rfl⟩ := modeEntry_eq_ok.mp hq
    have htemplate : (∃ g, p.2 = .hole g) ∨ Grammar.Literal type p.2 :=
      (hr.template hmem h.type_eq hp).imp_left fun ⟨g, hg, _⟩ => ⟨g, hg⟩
    have hfill := hv.fill_eq hr.toReadable hmem hp hd
    exact ⟨rfl, Table.asWritten_entry htemplate (hreaches p hp) hfill v⟩
  rw [h.values_eq] at hwritten
  have hnode : u.tokenNode (finish r.draft type modes) = _ :=
    Table.tokenNode_eq hwritten h.default_not_mem h.mode_not_mem
  rw [hnode, Reading.members, h.firstData_eq, h.otherData_eq, h.type_eq]
  rfl

theorem Table.Reaches.atOrigin {value : Reference → Except Fault Data} {template : Template}
    (h : t.Reaches value template) : t.atOrigin.Reaches value template where
  target_eq g hg := by rw [t.target_atOrigin, h.target_eq g hg]
  families := h.families

/-- The table of readings that stand in a forest is written as the data of the forest, and so is the
table with all its tokens at the origin. -/
theorem Resolution.document_of_readings (hr : Genuine readings)
    (hgood : ∀ p ∈ allHoles readings, WellTargeted readings p.2) (hacyclic : Acyclic readings)
    (hv : Resolved readings values) (ht : tableOf values readings groups = .ok t)
    (hfaithful : ∀ r ∈ readings, ∃ type first rest, Faithful r type first rest)
    {os : List Outline} (hos : Outline.Forest none none os)
    (hreadings : readings.map (fun r => (r.draft.id, r.draft.group)) = Outline.tokensOf none os)
    (hgroups : groups = Outline.groupsOf os) :
    t.document = .ok (Written.ofData (.object (Outline.dataOf (nodeOf readings) none os))) ∧
      t.atOrigin.document =
        .ok (Written.ofData (.object (Outline.dataOf (nodeOf readings) none os))) := by
  have hnames : t.tokens.names = (Outline.tokensOf none os).map Prod.fst := by
    rw [names_tokens hr.toReadable ht, ← hreadings, List.map_map]
    rfl
  have hgroups' : t.groups = (Outline.groupsOf os).map fun g => (g.id, g) := by
    obtain ⟨tokens, -, rfl⟩ := tableOf_eq_ok.mp ht
    rw [hgroups]
  -- both tables write the same nodes, since the targets are the same in both
  have hnode : ∀ u : Table, (∀ r ∈ readings, ∀ p ∈ r.values, u.Reaches (targetValue values) p.2) →
      ∀ p ∈ t.tokens, p.2.id = p.1 ∧
        u.tokenNode p.2 = .ok (Written.ofData (nodeOf readings p.1)) := by
    rintro u hreaches ⟨id, tok⟩ hp
    obtain ⟨r, hmem, rfl, htok⟩ := (mem_tokens hr.toReadable ht).mp hp
    obtain ⟨type, first, rest, h⟩ := hfaithful r hmem
    rw [nodeOf_eq hr.toReadable hmem]
    exact tokenNode_of_reading hr hv hmem h (hreaches r hmem) htok
  constructor
  · exact Table.document_eq hos hnames (hnode t fun r hmem p hp =>
      reaches_of_reading hr hgood hacyclic hv ht hmem hp) hgroups'
  · refine Table.document_eq hos ?_ ?_ hgroups'
    · rw [← hnames, Table.atOrigin, Members.names, List.map_map]
      rfl
    · rintro p hp
      obtain ⟨q, hq, rfl⟩ := List.mem_map.mp hp
      exact hnode t.atOrigin (fun r hmem p hp =>
        (reaches_of_reading hr hgood hacyclic hv ht hmem hp).atOrigin) q hq

/-- The table of a document with distinct keys is written as data.  As long as the data does not
exceed the limits it is a document whose table is the same with all tokens at the origin, and that
table is written as the same data. -/
theorem round_trip {d : Document} (hd : d.root.WellKeyed) {t : Table} (ht : d.table = .ok t) :
    ∃ data, t.toData = .ok data ∧ t.atOrigin.toData = .ok data ∧
      ∀ limits, data.Within limits → ∃ again, Document.ofData limits data = .ok again ∧
        again.table = .ok t.atOrigin := by
  obtain ⟨s, hresolve⟩ := Document.table_eq_ok.mp ht
  have hr := s.genuine hd
  obtain ⟨hgood, hacyclic, values, hv, htable⟩ := (resolve_eq_ok hr.toReadable).mp hresolve
  have hfaithful := s.faithful hd
  obtain ⟨os, hos, hreadings, hgroups⟩ := s.exists_forest hd
  obtain ⟨hdocument, horigin⟩ := document_of_readings hr hgood hacyclic hv htable hfaithful hos
    hreadings hgroups
  refine ⟨.object (Outline.dataOf (nodeOf s.readings) none os), ?_, ?_, fun limits hlimits => ?_⟩
  · rw [Table.toData, hdocument, Except.map, Written.data_ofData]
  · rw [Table.toData, horigin, Except.map, Written.data_ofData]
  · let again : Document :=
      ⟨(Data.object (Outline.dataOf (nodeOf s.readings) none os)).tree, "", .data,
        Document.dataName⟩
    have hroot : again.root = (Data.object (Outline.dataOf (nodeOf s.readings) none os)).tree := rfl
    obtain ⟨s', hagain, hsame⟩ := s.exists_again hd hos hreadings hgroups hroot
    refine ⟨again, by rw [Document.ofData, Tree.ofData_eq_ok hlimits]; rfl, ?_⟩
    -- the readings of the data repeat those of the document
    have hrepeats : List.Forall₂ Repeats s.readings s'.readings := by
      rw [hagain, List.forall₂_map_right_iff, List.forall₂_same]
      intro r hmem
      obtain ⟨type, first, rest, h⟩ := hfaithful r hmem
      exact h.repeats
    exact Document.table_eq_ok.mpr
      ⟨s', hsame ▸ resolve_repeats hr.toReadable hrepeats hresolve⟩

/-- A document with references as a whole, inside values and in lists of families, with a mode, with
a type that is inherited and with a group that has no tokens. -/
def brand : Document where
  root := (Data.object [
    ("font", .object [("$type", .text "fontFamily"), ("$description", .text "Families"),
      ("body", .object [("$value", .list [.text "Inter", .text "Arial"]),
        ("$extensions", .object [("tool", .int 1),
          ("mode", .object [("paper", .text "Times")])])]),
      ("all", .object [("$value", .list [.text "\x7bfont.body\x7d", .text "serif"])])]),
    ("size", .object [("$value", .int 0), ("$type", .text "dimension")]),
    ("copy", .object [("$value", .text "\x7bsize\x7d"), ("$description", .text "The same")]),
    ("title", .object [("$type", .text "typography"), ("$value", .object [
      ("fontFamily", .list [.text "\x7bfont.body#paper\x7d", .text "\x7bfont.all\x7d"]),
      ("fontSize", .text "\x7bcopy\x7d")])]),
    ("later", .object [])]).tree
  source := ""
  format := .data
  filename := Document.dataName

/-- For instance, that document is written, and read again within limits that are just enough. -/
theorem round_trip_brand : ∃ t data again, brand.root.WellKeyed ∧ brand.table = .ok t ∧
    t.toData = .ok data ∧ Document.ofData ⟨0, data.nodes, data.height⟩ data = .ok again ∧
    again.table = .ok t.atOrigin ∧ t.atOrigin.toData = .ok data := by
  have hkeyed : brand.root.WellKeyed := by decide +kernel
  have hsome : brand.table.toOption.isSome = true := by decide +kernel
  obtain ⟨t, ht⟩ := Option.isSome_iff_exists.mp hsome
  have htable : brand.table = .ok t := toOption_eq_some.mp ht
  obtain ⟨data, hdata, horigin, hagain⟩ := round_trip hkeyed htable
  obtain ⟨again, hread, hsame⟩ := hagain ⟨0, data.nodes, data.height⟩ ⟨le_refl _, le_refl _⟩
  exact ⟨t, data, again, hkeyed, htable, hdata, hread, hsame, horigin⟩

end DesignTokens
