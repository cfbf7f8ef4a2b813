import DesignTokens.Pipeline
import DesignTokens.Proofs.Draft.Inference
import DesignTokens.Proofs.Draft.Positions
import DesignTokens.Proofs.Resolution.Values

/-!
# From documents to tables, step by step

A table comes from a document by way of readings.  The readings of a document with distinct keys
can be resolved one by one, and every template in them was read from a node of the document.
-/

namespace DesignTokens

open DesignTokens.Outcome Resolution

/-! ## Reading drafts -/

/-- The values of a draft are those of its nodes, the default mode first. -/
theorem Draft.values_spec {d : Draft} (hd : d.Sound) {values : Members Template}
    (h : d.values = .ok values) :
    ∃ type, d.type = some type ∧ values.names = defaultMode :: d.modes.map Prod.fst ∧
      ∀ p ∈ values, ∃ node : Tree, node.WellKeyed ∧ d.HasValue p.1 node ∧
        Grammar.value type node = .ok p.2 := by
  unfold Draft.values at h
  split at h
  · simp at h
  · rename_i type htype
    simp only [bind_eq_ok, pure_eq_ok] at h
    obtain ⟨first, hfirst, rest, hrest, rfl⟩ := h
    refine ⟨type, htype, ?_, ?_⟩
    · rw [Members.names, List.map_cons]
      congr 1
      -- every value keeps its mode
      refine map_eq_map_of_mapM ?_ hrest
      rintro ⟨mode, node⟩ p hp
      simp only [bind_eq_ok, pure_eq_ok] at hp
      obtain ⟨t, -, rfl⟩ := hp
      rfl
    · intro p hp
      rcases List.mem_cons.mp hp with rfl | hp
      · exact ⟨d.value, hd.value_wellKeyed, .inl ⟨rfl, rfl⟩, hfirst⟩
      · obtain ⟨⟨mode, node⟩, hmem, hread⟩ := exists_of_mem_mapM hrest hp
        simp only [bind_eq_ok, pure_eq_ok] at hread
        obtain ⟨t, ht, rfl⟩ := hread
        exact ⟨node, hd.modes_wellKeyed _ hmem, .inr hmem, ht⟩

namespace Resolution

/-- Readings of a document: every one has the default mode first, and its templates were read as
values of its type. -/
structure Genuine (readings : List Reading) : Prop extends Readable readings where
  default_first : ∀ r ∈ readings, ∃ rest, r.values.names = defaultMode :: rest
  read : ∀ r ∈ readings, ∀ type, r.draft.type = some type → ∀ p ∈ r.values,
    ∃ node : Tree, node.WellKeyed ∧ Grammar.value type node = .ok p.2

def readDraft (d : Draft) : Except Failure Reading := do return ⟨d, ← d.values⟩

theorem readDraft_eq_ok {d : Draft} {r : Reading} :
    readDraft d = .ok r ↔ r.draft = d ∧ d.values = .ok r.values := by
  simp only [readDraft, bind_eq_ok, pure_eq_ok]
  constructor
  · rintro ⟨values, hvalues, rfl⟩
    exact ⟨rfl, hvalues⟩
  · rintro ⟨rfl, hvalues⟩
    exact ⟨r.values, hvalues, rfl⟩

end Resolution

/-! ## The steps -/

/-- What comes between a document and its table. -/
structure Document.Steps (d : Document) where
  /-- What was found. -/
  found : Discovery.Found
  /-- The drafts with types. -/
  drafts : List Draft
  /-- The readings of the drafts. -/
  readings : List Resolution.Reading
  found_eq : Discovery.inDocument d.root = .ok found
  drafts_eq : Inference.infer found.drafts = (drafts, none)
  readings_eq : drafts.mapM readDraft = .ok readings

/-- A table is what the readings of its document resolve to. -/
theorem Document.table_eq_ok {d : Document} {t : Table} :
    d.table = .ok t ↔ ∃ s : d.Steps, resolve s.readings s.found.groups = .ok t := by
  constructor
  · intro h
    simp only [Document.table, bind_eq_ok] at h
    obtain ⟨found, hfound, h⟩ := h
    split at h
    · simp at h
    · rename_i drafts hdrafts
      simp only [bind_eq_ok] at h
      obtain ⟨readings, hreadings, h⟩ := h
      exact ⟨⟨found, drafts, readings, hfound, hdrafts, hreadings⟩, h⟩
  · rintro ⟨⟨found, drafts, readings, hfound, hdrafts, hreadings⟩, h⟩
    -- what is read is written out, for the steps to be recognized
    have hread : (drafts.mapM fun draft => do
        return (⟨draft, ← draft.values⟩ : Resolution.Reading)) = .ok readings := hreadings
    simp only [Document.table, bind_eq_ok]
    refine ⟨found, hfound, ?_⟩
    rw [hdrafts]
    simp only [bind_eq_ok]
    exact ⟨readings, hread, h⟩

namespace Document.Steps

variable {d : Document}

theorem extends_found (s : d.Steps) (hd : d.root.WellKeyed) :
    List.Forall₂ Inference.Extends s.found.drafts s.drafts ∧
      ∀ e ∈ s.drafts, ∃ type, e.type = some type :=
  Inference.infer_spec (Discovery.ids_nodup hd s.found_eq) s.drafts_eq

theorem drafts_of_readings (s : d.Steps) : s.readings.map Resolution.Reading.draft = s.drafts := by
  have h := map_eq_map_of_mapM (p := fun e : Draft => e) (q := Resolution.Reading.draft)
    (fun e r h => (readDraft_eq_ok.mp h).1) s.readings_eq
  rwa [List.map_id'] at h

theorem draft_sound (s : d.Steps) (hd : d.root.WellKeyed) : ∀ e ∈ s.drafts, e.Sound := by
  intro e he
  obtain ⟨os, -, -, -, hsound⟩ := Discovery.inDocument_spec hd s.found_eq
  obtain ⟨f, hf, hfe⟩ := exists_left (s.extends_found hd).1 he
  obtain ⟨hvalue, hmodes, hnodup, hdefault, hmode⟩ := hsound f hf
  rw [hfe.eq]
  exact ⟨hvalue, hmodes, hnodup, hdefault, hmode⟩

theorem values_of_reading (s : d.Steps) {r : Resolution.Reading} (hr : r ∈ s.readings) :
    r.draft ∈ s.drafts ∧ r.draft.values = .ok r.values := by
  obtain ⟨e, he, her⟩ := exists_of_mem_mapM s.readings_eq hr
  obtain ⟨rfl, hvalues⟩ := readDraft_eq_ok.mp her
  exact ⟨he, hvalues⟩

/-- The readings of a document with distinct keys are genuine. -/
theorem genuine (s : d.Steps) (hd : d.root.WellKeyed) : Genuine s.readings := by
  have hvalues : ∀ r ∈ s.readings, r.draft.Sound ∧ r.draft.values = .ok r.values := fun r hr =>
    ⟨s.draft_sound hd _ (s.values_of_reading hr).1, (s.values_of_reading hr).2⟩
  have hnames : ∀ r ∈ s.readings, r.values.names = defaultMode :: r.draft.modes.map Prod.fst := by
    intro r hr
    obtain ⟨hsound, hread⟩ := hvalues r hr
    obtain ⟨-, -, hnames, -⟩ := Draft.values_spec hsound hread
    exact hnames
  refine ⟨⟨?_, ?_, ?_⟩, fun r hr => ⟨_, hnames r hr⟩, ?_⟩
  · -- inference does not touch the paths
    have hids : s.readings.map (fun r => r.draft.id) = s.found.drafts.map Draft.id := by
      rw [← Inference.ids_eq (s.extends_found hd).1, ← s.drafts_of_readings, List.map_map]
      rfl
    rw [hids]
    exact Discovery.ids_nodup hd s.found_eq
  · intro r hr
    exact (s.extends_found hd).2 _ (s.values_of_reading hr).1
  · intro r hr
    rw [hnames r hr]
    -- the default mode is none of the other modes
    exact List.nodup_cons.mpr ⟨(hvalues r hr).1.default_not_mem, (hvalues r hr).1.modes_nodup⟩
  · intro r hr type htype p hp
    obtain ⟨hsound, hread⟩ := hvalues r hr
    obtain ⟨type', htype', -, hall⟩ := Draft.values_spec hsound hread
    obtain rfl : type = type' := Option.some.inj (htype.symm.trans htype')
    exact (hall p hp).imp fun node h => ⟨h.1, h.2.2⟩

/-- The value of a mode was read from the node to which its names lead in the document. -/
theorem exists_written (s : d.Steps) (hd : d.root.WellKeyed) {r : Resolution.Reading}
    (hr : r ∈ s.readings) {type : TokenType} (htype : r.draft.type = some type)
    {p : String × Template} (hp : p ∈ r.values) :
    ∃ node, d.root.at? ((Path.names r.draft.id ++ Discovery.valuePath p.1).map .field) =
      some node ∧ node.WellKeyed ∧ Grammar.value type node = .ok p.2 := by
  obtain ⟨hdraft, hread⟩ := s.values_of_reading hr
  obtain ⟨type', htype', -, hall⟩ := Draft.values_spec (s.draft_sound hd _ hdraft) hread
  obtain rfl : type = type' := Option.some.inj (htype.symm.trans htype')
  obtain ⟨node, hkeyed, hvalue, hnode⟩ := hall p hp
  refine ⟨node, ?_, hkeyed, hnode⟩
  -- the draft stands at a position, and inference has left its values as they were
  obtain ⟨f, hf, hextends⟩ := exists_left (s.extends_found hd).1 hdraft
  obtain ⟨q, hq, hstands, hnames, -⟩ :=
    (Discovery.inDocument_covers hd s.found_eq).exists_position hf
  have hat := Tree.at?_of_mem_positions hd hq
  rw [hextends.eq] at hvalue ⊢
  rw [hnames, List.map_append, Tree.at?_append, hat, Option.bind_some]
  exact Discovery.at?_value hstands (hd.at? hat) hvalue

end Document.Steps

/-- The table of a document with distinct keys comes from genuine readings, whose references are
well targeted and without cycles, by way of their resolved values. -/
theorem Document.exists_resolved {d : Document} (hd : d.root.WellKeyed) {t : Table}
    (ht : d.table = .ok t) :
    ∃ s : d.Steps, Genuine s.readings ∧ (∀ p ∈ allHoles s.readings, WellTargeted s.readings p.2) ∧
      Acyclic s.readings ∧ ∃ values, Resolved s.readings values ∧
        tableOf values s.readings s.found.groups = .ok t := by
  obtain ⟨s, hresolve⟩ := Document.table_eq_ok.mp ht
  have hr := s.genuine hd
  exact ⟨s, hr, (resolve_eq_ok hr.toReadable).mp hresolve⟩

end DesignTokens
