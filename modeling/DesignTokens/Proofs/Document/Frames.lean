import DesignTokens.Proofs.Document.Failure
import DesignTokens.Proofs.Resolution.Places
import DesignTokens.Proofs.Tree.OfGraph
import DesignTokens.Proofs.Tree.Unfolding

/-!
# Frames of diagnostics

The nodes and the keys of a document that was read are at places of its text, and so is whatever is
reported about it.  A frame counts lines by line feeds.  So where line feeds alone end lines, the
frame of a diagnostic marks the line of its place and has the caret below it.

## Main statement

* `Setup.diagnostic_shown`: a diagnostic of an input has the offset of a place of its text, and its
  frame shows this place where line feeds alone end the lines before it.
-/

namespace DesignTokens

open Outcome Yaml

/-! ## Places of trees -/

namespace Tree

variable {text : List Char} {t u : Tree}

/-- All nodes and keys of a tree are at places of a text. -/
structure In (text : List Char) (t : Tree) : Prop where
  node : ∀ n : Tree, n.Inside t → n.span.In text
  key : ∀ k, t.HasKey k → k.span.In text

theorem In.span_of_pointsInto {i : Issue} (h : t.In text) (hi : i.PointsInto t) :
    i.span.In text := by
  obtain ⟨n, hn, hspan, -⟩ | ⟨k, hk, hspan, -⟩ := hi
  · exact hspan ▸ h.node n hn
  · exact hspan ▸ h.key k hk

section Graph

variable {g : Graph} {version : Version} {limits : Limits} {number root : Nat}

theorem span_of_ofScalar {tag : ScalarTag} {content : String} {span : Span}
    (h : ofScalar version tag content span = .ok t) : t.span = span ∧ t.members = [] := by
  unfold ofScalar at h
  split at h <;> cases h <;> exact ⟨rfl, rfl⟩

/-- What stands inside the expansion of a node is the expansion of a node. -/
theorem exists_expands_of_inside (hu : u.Inside t) (ht : Expands g version number t) :
    ∃ number, Expands g version number u := by
  induction hu generalizing number with
  | here => exact ⟨number, ht⟩
  | item hmem _ ih =>
    -- a scalar has no items
    cases ht with
    | scalar _ hscalar => unfold ofScalar at hscalar; split at hscalar <;> cases hscalar
    | sequence _ hitems =>
      obtain ⟨_, -, hitem⟩ := exists_left hitems hmem
      exact ih hitem
  | member hmem _ ih =>
    cases ht with
    | scalar _ hscalar => unfold ofScalar at hscalar; split at hscalar <;> cases hscalar
    | mapping _ _ _ hvalues =>
      obtain ⟨_, -, hvalue⟩ := exists_left hvalues (List.mem_map_of_mem hmem)
      exact ih hvalue

/-- An expansion has the place of its node. -/
theorem Expands.span_eq (h : Expands g version number t) : t.span = nodeSpan (g.node number) := by
  cases h with
  | scalar _ hscalar => exact (span_of_ofScalar hscalar).1
  | sequence | mapping => rfl

/-- A key has the place of its node. -/
theorem Expands.key_span (h : Expands g version number t) {k : Key} {v : Tree}
    (hk : (k, v) ∈ t.members) : ∃ number, k.span = nodeSpan (g.node number) := by
  cases h with
  | scalar _ hscalar => simp [(span_of_ofScalar hscalar).2] at hk
  | sequence => simp [members, members?] at hk
  | mapping _ hkeys =>
    obtain ⟨number, -, -, -, hspan⟩ := exists_left hkeys (List.mem_map_of_mem hk)
    exact ⟨number, hspan⟩

/-- A graph whose nodes are at places of a text expands to trees that are. -/
theorem in_of_expands (hg : PlacedIn g text) (h : Expands g version number t) : t.In text where
  node n hn := by
    obtain ⟨b, hb⟩ := exists_expands_of_inside hn h
    exact hb.span_eq ▸ hg b
  key k hk := by
    obtain ⟨n, v, hn, hv⟩ := hk
    obtain ⟨b, hb⟩ := exists_expands_of_inside hn h
    obtain ⟨c, hc⟩ := hb.key_span hv
    exact hc ▸ hg c

/-- What is unfolded was visited, so the limit allows for at least one node. -/
theorem nodes_nonneg_of_ofGraph (h : ofGraph g version limits root = .ok t) : 0 ≤ limits.nodes := by
  have hvisit (span : Span) : Yields (visit limits span) fun _ => 0 ≤ limits.nodes :=
    ends_get fun count _ => .bind (ends_set fun _ => trivial) fun _ =>
      (yields_lift fun n hn => (limits.countNode_le hn).2).bind fun n hn =>
        yields_pure (Int.le_trans (Int.natCast_nonneg n) hn)
  -- with or without levels left, the first step is a visit
  have hunfold : Yields (unfold g version limits limits.levels root) fun _ => 0 ≤ limits.nodes := by
    cases limits.levels <;>
      · rw [unfold]
        exact (hvisit _).bind fun _ hn => yields_of hn
  exact Ends.of_ok hunfold trivial h

theorem in_of_ofGraph (hg : PlacedIn g text) (h : ofGraph g version limits root = .ok t) :
    t.In text :=
  in_of_expands hg (expands_of_ofGraph (nodes_nonneg_of_ofGraph h) h).1

end Graph

section Data

variable {d : Data}

/-- What stands inside the tree of data is the tree of data. -/
theorem exists_tree_of_inside (hu : u.Inside d.tree) : ∃ e : Data, u = e.tree := by
  generalize ht : d.tree = t at hu
  induction hu generalizing d with
  | here => exact ⟨d, ht.symm⟩
  | item hmem _ ih =>
    cases d with
    | list ds =>
      cases ht
      rw [Data.treeItems_eq_map] at hmem
      obtain ⟨e, -, he⟩ := List.mem_map.mp hmem
      exact ih he
    | null | scalar | object => cases ht
  | member hmem _ ih =>
    cases d with
    | object ms =>
      cases ht
      rw [Data.treeMembers_eq_map] at hmem
      obtain ⟨m, -, hm⟩ := List.mem_map.mp hmem
      exact ih (Prod.mk.inj hm).2
    | null | scalar | list => cases ht

/-- The tree of data is at the origin, which is a place of every text. -/
theorem in_tree (d : Data) (text : List Char) : d.tree.In text where
  node n hn := by
    obtain ⟨e, rfl⟩ := exists_tree_of_inside hn
    cases e <;> exact Span.in_origin text
  key k hk := by
    obtain ⟨n, v, hn, hv⟩ := hk
    obtain ⟨e, rfl⟩ := exists_tree_of_inside hn
    cases e with
    | object ms =>
      have hmem : (k, v) ∈ Data.treeMembers ms := hv
      rw [Data.treeMembers_eq_map] at hmem
      obtain ⟨m, -, hm⟩ := List.mem_map.mp hmem
      rw [← (Prod.mk.inj hm).1]
      exact Span.in_origin text
    | null | scalar | list => simp [Data.tree, members, members?] at hv

end Data

end Tree

/-! ## Documents -/

namespace Document

variable {limits : Limits} {version : Version} {text : String} {d : Document}

theorem in_of_treeOfText {format : Format} {t : Tree}
    (h : (treeOfText limits version format text).1 = .ok t) : t.In text.toList := by
  unfold treeOfText at h
  split at h
  · cases h
  · cases h
    exact Tree.in_tree (.object []) _
  · rename_i g root v hgraph
    exact Tree.in_of_ofGraph (Tree.placedIn_of_readGraph (congrArg Prod.fst hgraph)) h

/-- A document whose tree is at places of its text. -/
def IsPlaced (text : String) (d : Document) : Prop := d.source = text ∧ d.root.In text.toList

theorem FromText.isPlaced (h : d.FromText limits version text) : d.IsPlaced text := by
  obtain ⟨hsource, format, htree⟩ := h
  exact ⟨hsource, in_of_treeOfText htree⟩

end Document

/-- The tree of an input that is read is at places of the text that problems refer to. -/
theorem Input.isPlaced_of_read {limits : Limits} {version : Version} {i : Input} {d : Document}
    (h : (i.read limits version).1 = .ok d) (color : Bool) : d.IsPlaced (i.source color).text := by
  obtain htext | ⟨content, rfl⟩ := i.hasText_or
  · exact (Input.fromText_of_read htext h color).isPlaced
  · -- structured data has no text, and its tree is at the origin
    obtain ⟨t, ht, rfl⟩ := exceptMap_eq_ok.mp h
    obtain rfl := Tree.tree_of_ofData ht
    exact ⟨rfl, Tree.in_tree content _⟩

/-! ## Diagnostics -/

/-- A diagnostic is about a place of a text: its offset counts the characters before the place.
Where line feeds alone end the lines before it, its line and its column count them, and its frame
marks the line of the place and has the caret below the place. -/
def Diagnostic.ShownIn (color : Bool) (text : String) (diag : Diagnostic) : Prop :=
  diag.rendered = Frame.withMessage color diag.message text diag.span ∧
    ∃ before after, text.toList = before ++ after ∧ diag.span.offset = before.length ∧
      (Document.FeedsOnly before after →
        diag.span.line = (Document.placeAfter before).1 ∧
          diag.span.column = (Document.placeAfter before).2 ∧
          (text ≠ "" → Frame.Shows color text.toList (Frame.render color text diag.span)
            (before.count '\n') (Frame.lastLine before) (Frame.firstLine after)))

theorem Source.shownIn_diagnose (s : Source) {i : Issue} (hi : i.span.In s.text.toList) :
    (s.diagnose i).ShownIn s.color s.text := by
  obtain ⟨before, after, htext, hoffset, hplace⟩ := hi.inFile s.filename
  refine ⟨rfl, before, after, htext, hoffset, fun hfeeds => ?_⟩
  obtain ⟨hline, hcolumn⟩ := hplace hfeeds
  refine ⟨hline, hcolumn, fun hne => ?_⟩
  rw [Document.placeAfter_eq] at hline hcolumn
  exact Frame.render_shows s.color htext hne hline hcolumn

namespace Setup

variable {s : Setup} {version : Version} {i : Input} {diag : Diagnostic}

theorem read_eq (s : Setup) (version : Version) (i : Input) :
    (s.read version i).1 = (i.read s.limits version).1.mapError (i.source s.color).explain := rfl

theorem parse_eq (s : Setup) (version : Version) (i : Input) :
    (s.parse version i).1 = (s.read version i).1 >>= s.table := rfl

theorem shownIn_of_read (h : (s.read version i).1 = .error (.diagnostic diag)) :
    diag.ShownIn s.color (i.source s.color).text := by
  have hcolor : (i.source s.color).color = s.color := by cases i <;> rfl
  rw [read_eq, Source.mapError_explain_eq_diagnostic] at h
  obtain ⟨issue, hissue, rfl⟩ := h
  obtain ⟨_, -, hspan⟩ | ⟨fault, hfault, -⟩ := i.failsOnly_read s.limits version s.color _ hissue
  · have hshown := (i.source s.color).shownIn_diagnose hspan
    rwa [hcolor] at hshown
  · cases hfault

theorem shownIn_of_table {d : Document} {text : String} (hd : d.IsPlaced text)
    (h : s.table d = .error (.diagnostic diag)) : diag.ShownIn s.color text := by
  obtain ⟨rfl, hroot⟩ := hd
  obtain ⟨issue, htable, rfl⟩ := Source.mapError_explain_eq_diagnostic.mp h
  have hpoints := (Document.places_of_table htable).1
  exact (d.problemSource s.color).shownIn_diagnose (hroot.span_of_pointsInto hpoints)

/-- Whatever is reported about an input, when it is read or when its table is made, is about a place
of its text, and is shown there where line feeds alone end the lines before the place. -/
theorem diagnostic_shown (s : Setup) (version : Version) (i : Input) (diag : Diagnostic)
    (h : (s.read version i).1 = .error (.diagnostic diag) ∨
      (s.parse version i).1 = .error (.diagnostic diag)) :
    diag.ShownIn s.color (i.source s.color).text := by
  obtain h | h := h
  · exact shownIn_of_read h
  · -- a table fails with what reading failed with, or with an issue of the document
    rw [parse_eq] at h
    cases hread : (s.read version i).1 with
    | error e =>
      rw [hread] at h
      cases h
      exact shownIn_of_read hread
    | ok d =>
      rw [hread] at h
      exact shownIn_of_table (i.isPlaced_of_read (mapError_eq_ok.mp hread) s.color) h

/-- The place of the diagnostic that an operation fails with. -/
def span? {α : Type} (r : Except Error α) : Option Span :=
  match r with
  | .error (.diagnostic diag) => some diag.span
  | _ => none

theorem exists_of_span? {α : Type} {r : Except Error α} {span : Span} (h : span? r = some span) :
    ∃ diag, r = .error (.diagnostic diag) ∧ diag.span = span := by
  unfold span? at h
  split at h
  · exact ⟨_, rfl, Option.some.inj h⟩
  · cases h

/-- A bracket on the second line closes nothing. -/
def bracketInput : Input := .text Document.textName "a: 1\n\x7d\n"

theorem span_bracketInput :
    span? (Setup.read ⟨.standard, false⟩ .v12 bracketInput).1 =
      some ⟨2, 1, 5, 0, some Document.textName⟩ := by
  decide +kernel

/-- For instance, the bracket is marked, as only line feeds end lines. -/
theorem diagnostic_shown_bracket :
    Document.FeedsOnly "a: 1\n".toList "\x7d\n".toList ∧
      ∃ diag, (Setup.read ⟨.standard, false⟩ .v12 bracketInput).1 = .error (.diagnostic diag) ∧
        diag.span = ⟨2, 1, 5, 0, some Document.textName⟩ ∧
        diag.ShownIn false (bracketInput.source false).text := by
  obtain ⟨diag, hread, hspan⟩ := exists_of_span? span_bracketInput
  exact ⟨by decide, diag, hread, hspan, diagnostic_shown ⟨.standard, false⟩ _ _ diag (.inl hread)⟩

/-- The same text with a lone carriage return, and a line after it. -/
def returnInput : Input := .text Document.textName "a: 1\r\x7d\nb: 2\n"

theorem span_returnInput :
    span? (Setup.read ⟨.standard, false⟩ .v12 returnInput).1 =
      some ⟨2, 1, 5, 0, some Document.textName⟩ := by
  decide +kernel

/-- Lines and columns of diagnostics do not always count line feeds: a carriage return that stands
alone ends a line for YAML, and then the frame marks a later line. -/
theorem not_counts_feeds :
    ¬ ∀ (s : Setup) (version : Version) (i : Input) (diag : Diagnostic),
      (s.read version i).1 = .error (.diagnostic diag) →
      ∃ before after, (i.source s.color).text.toList = before ++ after ∧
        diag.span.offset = before.length ∧ diag.span.line = (Document.placeAfter before).1 ∧
        diag.span.column = (Document.placeAfter before).2 := by
  intro h
  obtain ⟨diag, hread, hspan⟩ := exists_of_span? span_returnInput
  obtain ⟨before, after, htext, hoffset, hline, -⟩ := h _ _ _ diag hread
  rw [hspan] at hoffset hline
  change (5 : Int) = before.length at hoffset
  -- before the bracket there is no line feed
  have hbefore : before = "a: 1\r".toList := by
    have htake := congrArg (List.take 5) htext
    rw [List.take_left' (by omega)] at htake
    exact htake.symm
  rw [hbefore] at hline
  exact absurd hline (by decide)

end Setup

end DesignTokens
