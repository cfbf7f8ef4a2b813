import DesignTokens.Proofs.Draft.Places
import DesignTokens.Proofs.Pipeline

/-!
# Places of issues of documents

Every issue on the way from a document to its table points at a node or at a key of the document.
An issue of a value points into that value.  An issue of a reference points at a text inside the
token with the reference, and this text is the reference.

## Main statement

* `Setup.table_places`: a diagnostic of a table has the place of a node or of a key of the document,
  and names what stands there.
-/

namespace DesignTokens

open DesignTokens.Outcome Resolution

/-! ## Texts of references -/

/-- An issue of a reference points at the text of this reference inside the token with it. -/
def Issue.Cites (i : Issue) (drafts : List Draft) : Prop :=
  ∀ r, i.problem.reference? = some r → ∃ d ∈ drafts,
    (∀ id, i.problem.referrer? = some id → d.id = id) ∧ i.site = .node .string ∧
      ∃ s, (Tree.scalar (.text s) i.span).Inside d.node ∧ Reference.parse? s = some r

theorem Issue.cites_of_none {i : Issue} {drafts : List Draft} (h : i.problem.reference? = none) :
    i.Cites drafts := by
  intro r hr
  rw [h] at hr
  cases hr

/-- What is cited in drafts with types is cited in the drafts before. -/
theorem Issue.Cites.of_extends {i : Issue} {drafts drafts' : List Draft}
    (h : i.Cites drafts') (hext : List.Forall₂ Inference.Extends drafts drafts') :
    i.Cites drafts := by
  intro r hr
  obtain ⟨d', hd', hcites⟩ := h r hr
  obtain ⟨d, hd, hdd'⟩ := exists_left hext hd'
  rw [hdd'.eq] at hcites
  exact ⟨d, hd, hcites⟩

theorem Draft.StandsIn.of_extends {d d' : Draft} {t : Tree} (h : d.StandsIn t)
    (hext : Inference.Extends d d') : d'.StandsIn t := by
  rw [hext.eq]
  exact ⟨h.node, h.value, h.modes⟩

/-! ## Inference -/

namespace Inference

theorem places_of_issues {drafts : List Draft} {t : Tree} (hdrafts : ∀ d ∈ drafts, d.StandsIn t)
    {i : Issue} (h : Issues drafts i) : i.PointsInto t ∧ i.Cites drafts := by
  obtain ⟨d, hd, hissue⟩ := h
  obtain ⟨hnode, hvalue, -⟩ := hdrafts d hd
  obtain ⟨hnone, hat⟩ | ⟨r, hproblem, hat, hr⟩ := hissue
  · exact ⟨.inl ⟨_, hvalue.trans hnode, hat⟩, Issue.cites_of_none hnone⟩
  · refine ⟨.inl ⟨_, hvalue.trans hnode, hat⟩, fun r' hr' => ⟨d, hd, ?_⟩⟩
    rw [hproblem] at hr' ⊢
    obtain rfl : r = r' := Option.some.inj hr'
    obtain ⟨s, hs, hparse⟩ := Option.bind_eq_some_iff.mp hr
    obtain ⟨hspan, hsite⟩ := hat
    obtain ⟨span, hscalar⟩ := Tree.eq_scalar_of_text? hs
    rw [hscalar] at hspan hsite hvalue
    refine ⟨fun id hid => Option.some.inj hid, hsite, s, ?_, hparse⟩
    rwa [hspan]

end Inference

/-! ## Values -/

namespace Resolution

/-- The values of a draft in order, the default mode first. -/
def modesOf (d : Draft) : List (String × Tree) := (defaultMode, d.value) :: d.modes

/-- Reads the value of one mode. -/
def readMode (type : TokenType) (m : String × Tree) : Except Failure (String × Template) := do
  return (m.1, ← Grammar.value type m.2)

theorem values_eq (d : Draft) {type : TokenType} (htype : d.type = some type) :
    d.values = (modesOf d).mapM (readMode type) := by
  unfold Draft.values
  rw [htype, modesOf, List.mapM_cons, readMode]
  simp only [bind_assoc, pure_bind]
  rfl

/-- The holes of a reading come from texts inside the node of its token. -/
theorem reports_readDraft {d : Draft} {t : Tree} (hd : d.StandsIn t) :
    Placed t (readDraft d) fun r => r.draft = d ∧ ∀ p ∈ r.values, p.2.ComesFrom d.node := by
  cases htype : d.type with
  | none =>
    have hvalues : d.values = .error (.fault (.untyped d.id)) := by
      unfold Draft.values
      rw [htype]
    rw [readDraft, hvalues]
    exact reports_fault trivial
  | some type =>
    have hmodes : ∀ m ∈ modesOf d, m.2.Inside d.node :=
      List.forall_mem_cons.mpr ⟨hd.value, hd.modes⟩
    rw [readDraft, values_eq d htype]
    refine (Placed.inside (reports_mapM fun m hm => ?_) hd.node).bind fun values hvalues =>
      reports_ok ⟨rfl, hvalues⟩
    exact (Grammar.Traced.placed ((Grammar.traces_value type m.2).inside (hmodes m hm))).bind
      fun _ hv => reports_ok hv

/-! ## References -/

/-- Every hole of readings comes from a text inside the token that it stands in. -/
def Rooted (readings : List Reading) (drafts : List Draft) : Prop :=
  ∀ p ∈ allHoles readings, ∃ d ∈ drafts, d.id = p.1.token ∧ p.2.ComesFrom d.node

/-- An issue at a hole that comes from a token points at a text there. -/
theorem pointsAt_hole {h : Hole} {t : Tree} (hh : h.ComesFrom t) (problem : Problem) :
    (⟨problem, h.span, .node .string⟩ : Issue).PointsInto t := by
  obtain ⟨s, hs, -⟩ := hh
  exact .inl ⟨_, hs, rfl, rfl⟩

/-- A reference that is wrong is reported at its hole. -/
theorem reports_check (readings : List Reading) (referrer : String) (h : Hole) :
    Reports (fun i => ∃ problem : Problem, i = ⟨problem, h.span, .node .string⟩ ∧
        problem.reference? = some h.reference ∧
        ∀ id, problem.referrer? = some id → referrer = id) (fun _ => True)
      (check readings referrer h) fun _ => True := by
  unfold check
  split
  · exact reports_issue ⟨_, rfl, rfl, fun _ => Option.some.inj⟩
  · split
    · exact reports_issue ⟨_, rfl, rfl, fun _ => Option.some.inj⟩
    · split
      · exact reports_ok trivial
      · split
        · exact reports_issue ⟨_, rfl, rfl, by simp [Problem.referrer?]⟩
        · exact reports_fault trivial

/-- The graph of references is labelled with holes of the readings. -/
theorem reports_dependencies {readings : List Reading} {drafts : List Draft} {t : Tree}
    (hrooted : Rooted readings drafts) (hdrafts : ∀ d ∈ drafts, d.StandsIn t) :
    Reports (fun i => i.PointsInto t ∧ i.Cites drafts) (fun _ => True) (dependencies readings)
      fun g => ∀ e ∈ g.edges, ∃ slot, (slot, e.label) ∈ allHoles readings := by
  rw [dependencies_eq]
  refine reports_foldlM ?_ fun p hp g hg => ?_
  · rw [(slotGraph_spec readings).2.1]
    simp
  · obtain ⟨d, hd, hid, hhole⟩ := hrooted p hp
    refine .bind ((reports_check readings p.1.token p.2).imp ?_ fun _ => id) fun _ _ =>
      reports_ok ?_
    · rintro _ ⟨problem, rfl, href, hreferrer⟩
      refine ⟨(pointsAt_hole hhole problem).inside (hdrafts d hd).node, fun r hr => ?_⟩
      obtain rfl : p.2.reference = r := Option.some.inj (href.symm.trans hr)
      obtain ⟨s, hs, hparse⟩ := hhole
      exact ⟨d, hd, fun id h => hid.trans (hreferrer id h), rfl, s, hs, hparse⟩
    · rw [Dependencies.addEdge]
      split
      · exact hg
      · -- the only new reference is labelled with the hole that was checked
        intro e he
        rw [List.mem_append, Dependencies.edges_touch, Dependencies.edges_touch,
          List.mem_singleton] at he
        rcases he with he | rfl
        · exact hg e he
        · exact ⟨p.1, hp⟩

theorem reports_orFault {α : Type} {I : Issue → Prop} (x : Except Fault α) :
    Reports I (fun _ => True) (orFault x) fun _ => True := by
  cases x with
  | error fault => exact reports_fault trivial
  | ok a => exact reports_ok trivial

theorem reports_resolve {readings : List Reading} {drafts : List Draft} {t : Tree}
    (hrooted : Rooted readings drafts) (hdrafts : ∀ d ∈ drafts, d.StandsIn t)
    (groups : List Group) :
    Reports (fun i => i.PointsInto t ∧ i.Cites drafts) (fun _ => True) (resolve readings groups)
      fun _ => True := by
  refine (reports_dependencies hrooted hdrafts).bind fun g hg => ?_
  split
  · rename_i cycle h hcycle
    -- a cycle is reported at one of its references
    obtain ⟨_, _, _, e, -, -, he, -, rfl⟩ := Dependencies.exists_of_findCycle hcycle
    obtain ⟨slot, hslot⟩ := hg e (List.mem_of_find?_eq_some he)
    obtain ⟨d, hd, -, hhole⟩ := hrooted _ hslot
    exact reports_issue ⟨(pointsAt_hole hhole _).inside (hdrafts d hd).node,
      Issue.cites_of_none rfl⟩
  · exact (reports_orFault _).bind fun _ _ => (reports_orFault _).bind fun _ _ =>
      reports_ok trivial

end Resolution

/-! ## Documents -/

namespace Document

/-- What is found in a document stands in its tree, also after inference. -/
theorem standsIn_drafts {d : Document} {found : Discovery.Found} {drafts : List Draft}
    (hfound : Discovery.inDocument d.root = .ok found)
    (hdrafts : Inference.infer found.drafts = (drafts, none)) :
    List.Forall₂ Inference.Extends found.drafts drafts ∧ ∀ e ∈ drafts, e.StandsIn d.root := by
  have hext := (Inference.inferAll_spec hdrafts).1
  refine ⟨hext, fun e he => ?_⟩
  obtain ⟨f, hf, hfe⟩ := exists_left hext he
  exact (Discovery.placed_inDocument.answer found hfound f hf).of_extends hfe

theorem Steps.rooted {d : Document} (s : d.Steps) : Rooted s.readings s.drafts := by
  obtain ⟨-, hstands⟩ := standsIn_drafts s.found_eq s.drafts_eq
  intro p hp
  obtain ⟨r, hr, q, hq, ⟨way, h⟩, hh, hslot, hhole⟩ := mem_allHoles.mp hp
  obtain ⟨e, he, hread⟩ := exists_of_mem_mapM s.readings_eq hr
  obtain ⟨rfl, hvalues⟩ := (reports_readDraft (hstands e he)).answer r hread
  exact ⟨r.draft, he, by rw [hslot], hhole ▸ hvalues q hq h ⟨_, hh, rfl⟩⟩

/-- The value of a mode of a token is refused: everything before it was read, and the value itself
has an issue. -/
def RefusesMode (d : Document) (draft : Draft) (mode : String) (node : Tree) (i : Issue) : Prop :=
  ∃ found drafts, Discovery.inDocument d.root = .ok found ∧
    Inference.infer found.drafts = (drafts, none) ∧
    ∃ before after, drafts = before ++ draft :: after ∧
      (∀ b ∈ before, ∃ values, b.values = .ok values) ∧
      ∃ type, draft.type = some type ∧
        ∃ earlier later, modesOf draft = earlier ++ (mode, node) :: later ∧
          (∀ m ∈ earlier, ∃ v, Grammar.value type m.2 = .ok v) ∧
          Grammar.value type node = .error (.issue i)

theorem readMode_eq_error {type : TokenType} {m : String × Tree} {e : Failure} :
    readMode type m = .error e ↔ Grammar.value type m.2 = .error e := by
  unfold readMode
  cases Grammar.value type m.2 <;> simp [bind, Except.bind, pure, Except.pure]

theorem readMode_ok {type : TokenType} {m : String × Tree} :
    (∃ p, readMode type m = .ok p) ↔ ∃ v, Grammar.value type m.2 = .ok v := by
  unfold readMode
  cases Grammar.value type m.2 <;> simp [bind, Except.bind, pure, Except.pure]

theorem readDraft_eq_error {e : Draft} {f : Failure} :
    readDraft e = .error f ↔ e.values = .error f := by
  unfold readDraft
  cases e.values <;> simp [bind, Except.bind, pure, Except.pure]

theorem readDraft_ok {e : Draft} : (∃ r, readDraft e = .ok r) ↔ ∃ values, e.values = .ok values := by
  unfold readDraft
  cases e.values <;> simp [bind, Except.bind, pure, Except.pure]

/-- Drafts whose values cannot all be read have a first value that is refused. -/
theorem mapM_readDraft_eq_error {drafts : List Draft} {i : Issue} :
    drafts.mapM readDraft = .error (.issue i) ↔
      ∃ draft before after, drafts = before ++ draft :: after ∧
        (∀ b ∈ before, ∃ values, b.values = .ok values) ∧
        ∃ type, draft.type = some type ∧ ∃ mode node earlier later,
          modesOf draft = earlier ++ (mode, node) :: later ∧
          (∀ m ∈ earlier, ∃ v, Grammar.value type m.2 = .ok v) ∧
          Grammar.value type node = .error (.issue i) := by
  simp only [mapM_eq_error_iff, readDraft_ok, readDraft_eq_error]
  constructor
  · rintro ⟨before, draft, after, hsplit, hbefore, hvalues⟩
    refine ⟨draft, before, after, hsplit, hbefore, ?_⟩
    cases htype : draft.type with
    | none =>
      unfold Draft.values at hvalues
      rw [htype] at hvalues
      cases hvalues
    | some type =>
      rw [values_eq draft htype, mapM_eq_error_iff] at hvalues
      obtain ⟨earlier, m, later, hmodes, hearlier, hm⟩ := hvalues
      exact ⟨type, rfl, m.1, m.2, earlier, later, hmodes,
        fun m hm => readMode_ok.mp (hearlier m hm), readMode_eq_error.mp hm⟩
  · rintro ⟨draft, before, after, hsplit, hbefore, type, htype, mode, node, earlier, later, hmodes,
      hearlier, hnode⟩
    refine ⟨before, draft, after, hsplit, hbefore, ?_⟩
    rw [values_eq draft htype, mapM_eq_error_iff]
    exact ⟨earlier, _, later, hmodes, fun m hm => readMode_ok.mpr (hearlier m hm),
      readMode_eq_error.mpr hnode⟩

theorem table_of_found {d : Document} {found : Discovery.Found}
    (hfound : Discovery.inDocument d.root = .ok found) :
    d.table = match Inference.infer found.drafts with
      | (_, some failure) => throw failure
      | (drafts, none) => drafts.mapM readDraft >>= fun readings =>
          resolve readings found.groups := by
  unfold table
  rw [hfound]
  rfl

/-- An issue of a document comes up when its tokens are found, when their types are inferred, when
the value of a mode is read, or when the references are resolved. -/
theorem stage_of_table {d : Document} {i : Issue} (h : d.table = .error (.issue i)) :
    Discovery.inDocument d.root = .error (.issue i) ∨
      (∃ found drafts, Discovery.inDocument d.root = .ok found ∧
        Inference.infer found.drafts = (drafts, some (.issue i))) ∨
      (∃ draft mode node, d.RefusesMode draft mode node i) ∨
      ∃ s : d.Steps, resolve s.readings s.found.groups = .error (.issue i) := by
  cases hfound : Discovery.inDocument d.root with
  | error e =>
    unfold table at h
    rw [hfound] at h
    cases h
    exact .inl rfl
  | ok found =>
    rw [table_of_found hfound] at h
    rcases hinfer : Inference.infer found.drafts with ⟨drafts, _ | failure⟩
    · rw [hinfer] at h
      dsimp only at h
      -- with all types known, values are read draft by draft
      cases hreadings : drafts.mapM readDraft with
      | error e =>
        rw [hreadings] at h
        cases h
        obtain ⟨draft, before, after, hsplit, hbefore, type, htype, mode, node, earlier, later,
          hvalue⟩ := mapM_readDraft_eq_error.mp hreadings
        exact .inr (.inr (.inl ⟨draft, mode, node, found, drafts, hfound, hinfer, before, after,
          hsplit, hbefore, type, htype, earlier, later, hvalue⟩))
      | ok readings =>
        rw [hreadings] at h
        exact .inr (.inr (.inr ⟨⟨found, drafts, readings, hfound, hinfer, hreadings⟩, h⟩))
    · rw [hinfer] at h
      cases h
      exact .inr (.inl ⟨found, drafts, rfl, hinfer⟩)

/-- The issue of a value that is refused is the issue of the document. -/
theorem RefusesMode.table_eq {d : Document} {draft : Draft} {mode : String} {node : Tree}
    {i : Issue} (h : d.RefusesMode draft mode node i) : d.table = .error (.issue i) := by
  obtain ⟨found, drafts, hfound, hinfer, before, after, hsplit, hbefore, type, htype, earlier,
    later, hvalue⟩ := h
  have hreadings : drafts.mapM readDraft = .error (.issue i) :=
    mapM_readDraft_eq_error.mpr ⟨draft, before, after, hsplit, hbefore, type, htype, mode, node,
      earlier, later, hvalue⟩
  rw [table_of_found hfound, hinfer]
  dsimp only
  rw [hreadings]
  rfl

/-- The place of the issue of a document, and the text of the reference that it is about. -/
theorem places_of_table {d : Document} {i : Issue} (h : d.table = .error (.issue i)) :
    i.PointsInto d.root ∧ ∀ r, i.problem.reference? = some r →
      ∃ found, Discovery.inDocument d.root = .ok found ∧ ∃ t ∈ found.drafts,
        t.node.Inside d.root ∧ (∀ id, i.problem.referrer? = some id → t.id = id) ∧
        i.site = .node .string ∧
        ∃ s, (Tree.scalar (.text s) i.span).Inside t.node ∧ Reference.parse? s = some r := by
  -- what is cited in tokens that were found is what is stated
  have hcited : ∀ found, Discovery.inDocument d.root = .ok found → i.Cites found.drafts →
      ∀ r, i.problem.reference? = some r →
      ∃ found, Discovery.inDocument d.root = .ok found ∧ ∃ t ∈ found.drafts,
        t.node.Inside d.root ∧ (∀ id, i.problem.referrer? = some id → t.id = id) ∧
        i.site = .node .string ∧
        ∃ s, (Tree.scalar (.text s) i.span).Inside t.node ∧ Reference.parse? s = some r := by
    intro found hfound hcites r hr
    obtain ⟨t, ht, hcites⟩ := hcites r hr
    exact ⟨found, hfound, t, ht, (Discovery.placed_inDocument.answer found hfound t ht).node, hcites⟩
  obtain hfound | ⟨found, drafts, hfound, hinfer⟩ | ⟨draft, mode, node, hrefuses⟩ | ⟨s, hs⟩ :=
    stage_of_table h
  · obtain ⟨hnone, hpoints⟩ := Discovery.placed_inDocument.issue i hfound
    exact ⟨hpoints, fun r hr => by simp [hnone] at hr⟩
  · obtain ⟨hpoints, hcites⟩ := Inference.places_of_issues
      (Discovery.placed_inDocument.answer found hfound) (Inference.issues_of_inferAll hinfer)
    exact ⟨hpoints, hcited found hfound hcites⟩
  · obtain ⟨found, drafts, hfound, hinfer, before, after, hsplit, -, type, htype, earlier, later,
      hmodes, -, hnode⟩ := hrefuses
    obtain ⟨-, hstands⟩ := standsIn_drafts hfound hinfer
    have hdraft := hstands draft (by simp [hsplit])
    have hinside : node.Inside draft.node := by
      have hmem : (mode, node) ∈ modesOf draft := by simp [hmodes]
      rcases List.mem_cons.mp hmem with heq | hmem
      · cases heq
        exact hdraft.value
      · exact hdraft.modes _ hmem
    obtain ⟨hnone, hpoints⟩ := (Grammar.traces_value type node).issue i hnode
    exact ⟨Issue.PointsInto.inside (.inl hpoints) (hinside.trans hdraft.node),
      fun r hr => by simp [hnone] at hr⟩
  · obtain ⟨hext, hstands⟩ := standsIn_drafts s.found_eq s.drafts_eq
    obtain ⟨hpoints, hcites⟩ := (reports_resolve s.rooted hstands s.found.groups).issue i hs
    exact ⟨hpoints, hcited s.found s.found_eq (hcites.of_extends hext)⟩

/-- The issue of a value that is refused points into the value. -/
theorem RefusesMode.inside {d : Document} {draft : Draft} {mode : String} {node : Tree}
    {i : Issue} (h : d.RefusesMode draft mode node i) :
    ∃ n : Tree, n.Inside node ∧ i.PointsAt n := by
  obtain ⟨found, drafts, hfound, hinfer, before, after, hsplit, hbefore, type, htype, earlier,
    later, hmodes, hearlier, hvalue⟩ := h
  exact ((Grammar.traces_value type node).issue i hvalue).2

end Document

/-! ## Reports -/

theorem Span.withoutFile_of_inFile (name : Option String) (s : Span) :
    (s.inFile name).withoutFile = s.withoutFile := by
  unfold Span.inFile
  split
  · split <;> rfl
  · rfl

/-- What is reported is an issue. -/
theorem Source.mapError_explain_eq_diagnostic {α : Type} {s : Source} {x : Except Failure α}
    {diag : Diagnostic} : x.mapError s.explain = .error (.diagnostic diag) ↔
      ∃ i, x = .error (.issue i) ∧ s.diagnose i = diag := by
  match x with
  | .ok _ => simp [Except.mapError]
  | .error (.issue i) => simp [Except.mapError, Source.explain]
  | .error (.fault f) => simp [Except.mapError, Source.explain]

/-- A diagnostic of a table has the place of a node or of a key of the document, up to the name of
the file, and names what stands there.  When a value of a mode is refused, the node stands in this
value.  When a reference leads nowhere, to a mode that is not there or to a wrong type, the node is
a text inside the token with this reference, and the text is the reference. -/
theorem Setup.table_places (s : Setup) {d : Document} {diag : Diagnostic}
    (h : s.table d = .error (.diagnostic diag)) :
    ∃ i : Issue, d.table = .error (.issue i) ∧
      diag.kind = i.problem.kind ∧ diag.message = i.problem.message ∧
      diag.site = i.site.name ∧ diag.span.withoutFile = i.span.withoutFile ∧
      diag.span.file =
        (if d.filename ≠ "" ∧ i.span.file = none then some d.filename else i.span.file) ∧
      ((∃ n : Tree, n.Inside d.root ∧ i.span = n.span ∧ i.site = .node n.kind) ∨
        ∃ n : Tree, n.Inside d.root ∧ ∃ k v, (k, v) ∈ n.members ∧ i.span = k.span ∧
          i.site = .member) ∧
      (∀ draft mode node, d.RefusesMode draft mode node i →
        ∃ n : Tree, n.Inside node ∧ i.span = n.span ∧ i.site = .node n.kind) ∧
      ∀ r, i.problem.reference? = some r →
        ∃ found, Discovery.inDocument d.root = .ok found ∧ ∃ t ∈ found.drafts,
          t.node.Inside d.root ∧ (∀ id, i.problem.referrer? = some id → t.id = id) ∧
          i.site = .node .string ∧
          ∃ text, (Tree.scalar (.text text) i.span).Inside t.node ∧
            Reference.parse? text = some r := by
  obtain ⟨i, htable, rfl⟩ := Source.mapError_explain_eq_diagnostic.mp h
  obtain ⟨hpoints, hcites⟩ := Document.places_of_table htable
  refine ⟨i, htable, rfl, rfl, rfl, Span.withoutFile_of_inFile _ _, ?_, ?_,
    fun draft mode node hrefuses => hrefuses.inside, hcites⟩
  · change (i.span.inFile (some d.filename)).file = _
    simp only [Span.inFile, Option.isNone_iff_eq_none, Bool.and_eq_true, decide_eq_true_eq]
    split <;> rfl
  · obtain hnode | ⟨k, ⟨n, v, hn, hk⟩, hi⟩ := hpoints
    · exact .inl hnode
    · exact .inr ⟨n, hn, k, v, hk, hi⟩

/-- A line whose colour is a reference that leads nowhere. -/
def inklessLine : Document where
  root := .mapping [(⟨"line", ⟨2, 3, 4, 6, none⟩⟩, .mapping [
      (⟨"$type", ⟨3, 5, 18, 7, none⟩⟩, .scalar (.text "border") ⟨3, 14, 27, 8, none⟩),
      (⟨"$value", ⟨4, 5, 41, 8, none⟩⟩, .mapping [
        (⟨"color", ⟨5, 7, 59, 7, none⟩⟩, .scalar (.text "\x7bink\x7d") ⟨5, 16, 68, 7, none⟩),
        (⟨"width", ⟨6, 7, 83, 7, none⟩⟩, .scalar (.int 0) ⟨6, 16, 92, 1, none⟩),
        (⟨"style", ⟨7, 7, 101, 7, none⟩⟩, .scalar (.text "solid") ⟨7, 16, 110, 7, none⟩)]
      ⟨4, 15, 51, 72, none⟩)] ⟨2, 11, 12, 115, none⟩)] ⟨1, 1, 0, 129, none⟩
  source := ""
  format := .json
  filename := "tokens.json"

/-- For instance, a reference that leads nowhere is reported at its text, in the file of the
document. -/
theorem table_places_inkless :
    ∃ diag, Setup.table ⟨.standard, false⟩ inklessLine = .error (.diagnostic diag) ∧
      diag.site = "String" ∧ diag.span.file = some "tokens.json" ∧
      ∃ t text : Tree, t.Inside inklessLine.root ∧ text.Inside t ∧
        diag.span.withoutFile = text.span ∧
        text.text?.bind Reference.parse? = some ⟨"ink", none⟩ := by
  have htable : inklessLine.table = .error (.issue ⟨.unknownTarget ⟨"ink", none⟩ "line",
      ⟨5, 16, 68, 7, none⟩, .node .string⟩) := rfl
  have hreport : Setup.table ⟨.standard, false⟩ inklessLine = .error (.diagnostic
      ((inklessLine.problemSource false).diagnose ⟨.unknownTarget ⟨"ink", none⟩ "line",
        ⟨5, 16, 68, 7, none⟩, .node .string⟩)) := by
    rw [Setup.table, htable]
    rfl
  obtain ⟨i, hi, -, -, hsite, hspan, hfile, -, -, hcites⟩ := Setup.table_places _ hreport
  obtain rfl := Failure.issue.inj (Except.error.inj (htable.symm.trans hi))
  obtain ⟨-, -, t, -, ht, -, -, text, htext, hparse⟩ := hcites _ rfl
  exact ⟨_, hreport, hsite, hfile, t.node, _, ht, htext, hspan.trans rfl, hparse⟩

end DesignTokens
