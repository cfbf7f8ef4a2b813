import DesignTokens.Proofs.Resolution.Typing

/-!
# When references are resolved

Resolving succeeds exactly when every reference is well targeted and none lead back to where they
started, as long as colours can be converted.  Otherwise it ends with a problem of references, and
which one is fixed by the order of the document (`resolve_exactly`).
-/

namespace DesignTokens.Resolution

open DesignTokens.Outcome

/-! ## Colours -/

/-- Every colour that is written in the readings has renditions. -/
def ColorsConvert (readings : List Reading) : Prop :=
  ∀ r ∈ readings, r.draft.type = some .color → ∀ p ∈ r.values, p.2.Solid →
    ∃ v, Color.variants p.2.written = .ok v

/-- When the colours that are written have renditions, those that are referred to have them too. -/
theorem exists_variants {readings : List Reading} (hr : Genuine readings)
    (hgood : ∀ p ∈ allHoles readings, WellTargeted readings p.2) (hacyclic : Acyclic readings)
    (hcolors : ColorsConvert readings) {values : Values} (hv : Resolved readings values) :
    ∀ r ∈ readings, ∀ type, r.draft.type = some type → ∀ mode d,
      valueAt values ⟨r.draft.id, mode⟩ = .ok d → ∃ v, variantsOf type d = .ok v := by
  refine hr.induction hgood hacyclic hv ?_
  intro r hmem type htype p hp d hliteral hfill _
  by_cases hcolor : type = .color
  · subst hcolor
    -- a colour is never filled, so it is one that is written in the readings
    have hsolid := Grammar.solid_of_isColor hliteral
    rw [Template.fill_of_solid hsolid] at hfill
    obtain rfl := Except.ok.inj hfill
    exact hcolors r hmem htype p hp hsolid
  · exact ⟨[], if_neg hcolor⟩

/-! ## Tables -/

/-- Resolved values make a table when colours have renditions. -/
theorem exists_tableOf {readings : List Reading} (hr : Genuine readings)
    (hgood : ∀ p ∈ allHoles readings, WellTargeted readings p.2) (hacyclic : Acyclic readings)
    (hcolors : ColorsConvert readings) {values : Values} (hv : Resolved readings values)
    (groups : List Group) : ∃ t, tableOf values readings groups = .ok t := by
  have htoken : ∀ r ∈ readings, ∃ token, Resolution.token values r = .ok token := by
    intro r hmem
    obtain ⟨type, htype⟩ := hr.typed r hmem
    have hentry : ∀ p ∈ r.values, ∃ e, modeEntry values r.draft.id type p = .ok e := by
      intro p hp
      -- every mode has a value, which is all that an entry needs besides the renditions
      have hslot : (⟨r.draft.id, p.1⟩ : Slot) ∈ readings.flatMap slotsOf :=
        mem_flatMap_slotsOf.mpr ⟨r, hmem, rfl, List.mem_map_of_mem hp⟩
      obtain ⟨q, hq, hqslot⟩ := List.mem_map.mp ((hv.mem_iff _).mpr hslot)
      have hvalue : ((⟨r.draft.id, p.1⟩ : Slot), q.2) ∈ values := hqslot ▸ hq
      have hq' := (valueAt_eq_ok hv.nodup).mpr hvalue
      obtain ⟨v, hvariants⟩ :=
        exists_variants hr hgood hacyclic hcolors hv r hmem type htype p.1 q.2 hq'
      exact ⟨_, modeEntry_eq_ok.mpr ⟨q.2, hq', v, hvariants, rfl⟩⟩
    obtain ⟨modes, hmodes⟩ := exists_forall₂ hentry
    refine ⟨finish r.draft type modes, ?_⟩
    rw [token_eq htype, mapM_eq_ok_iff.mpr hmodes]
    rfl
  obtain ⟨tokens, htokens⟩ := exists_forall₂ htoken
  exact ⟨_, by rw [tableOf, mapM_eq_ok_iff.mpr htokens]; rfl⟩

/-! ## Success and failure -/

/-- The readings of a document are resolved exactly when every reference leads to a token that is
there, in a mode that it has, with a type that fits, and no references lead back to where they
started.  Every failure is a problem of references.  It is that of the first reference that is not
well targeted, in the order of tokens, of modes with the default mode first, and of positions; a
cycle is reported only when there is no such reference. -/
theorem resolve_exactly {d : Document} (s : d.Steps) (hd : d.root.WellKeyed)
    (hcolors : ColorsConvert s.readings) :
    ((∃ t, resolve s.readings s.found.groups = .ok t) ↔
      (∀ p ∈ allHoles s.readings, WellTargeted s.readings p.2) ∧ Acyclic s.readings) ∧
    (∀ e, resolve s.readings s.found.groups = .error e →
      ∃ i, e = .issue i ∧ i.problem.kind = .reference) ∧
    (∀ before slot h after, allHoles s.readings = before ++ (slot, h) :: after →
      (∀ p ∈ before, WellTargeted s.readings p.2) → ¬ WellTargeted s.readings h →
      ∃ problem, resolve s.readings s.found.groups = failAt problem h ∧
        Misses s.readings slot.token h problem) ∧
    (∀ i cycle, resolve s.readings s.found.groups = .error (.issue i) →
      i.problem = .circular cycle → ∀ p ∈ allHoles s.readings, WellTargeted s.readings p.2) ∧
    ∀ r ∈ s.readings, ∃ others, r.values.names = defaultMode :: others := by
  have hr := s.genuine hd
  refine ⟨⟨?_, ?_⟩, ?_, ?_, ?_, hr.default_first⟩
  · rintro ⟨t, ht⟩
    obtain ⟨hgood, hacyclic, -⟩ := (resolve_eq_ok hr.toReadable).mp ht
    exact ⟨hgood, hacyclic⟩
  · rintro ⟨hgood, hacyclic⟩
    obtain ⟨values, hv, -⟩ := resolve_eq_tableOf hr.toReadable hgood hacyclic s.found.groups
    obtain ⟨t, ht⟩ := exists_tableOf hr hgood hacyclic hcolors hv s.found.groups
    exact ⟨t, (resolve_eq_ok hr.toReadable).mpr ⟨hgood, hacyclic, values, hv, ht⟩⟩
  · intro e he
    by_cases hgood : ∀ p ∈ allHoles s.readings, WellTargeted s.readings p.2
    · by_cases hacyclic : Acyclic s.readings
      · -- with good references and no cycle there is a table, so there is no failure
        obtain ⟨values, hv, hresolve⟩ :=
          resolve_eq_tableOf hr.toReadable hgood hacyclic s.found.groups
        obtain ⟨t, ht⟩ := exists_tableOf hr hgood hacyclic hcolors hv s.found.groups
        rw [hresolve, ht] at he
        simp [orFault, Except.mapError] at he
      · obtain ⟨cycle, h, hfail⟩ := resolve_of_cycle hr.toReadable s.found.groups hgood hacyclic
        rw [hfail] at he
        exact ⟨_, (Except.error.inj he).symm, rfl⟩
    · obtain ⟨before, slot, h, after, hsplit, hbefore, hbad⟩ := exists_first_bad hgood
      obtain ⟨problem, hfail, hmiss⟩ :=
        resolve_of_bad hr.toReadable s.found.groups hsplit hbefore hbad
      rw [hfail] at he
      exact ⟨_, (Except.error.inj he).symm, hmiss.kind_eq⟩
  · intro before slot h after hsplit hbefore hbad
    exact resolve_of_bad hr.toReadable s.found.groups hsplit hbefore hbad
  · intro i cycle hi hcircular
    -- otherwise the first bad reference would have been reported
    by_contra hgood
    obtain ⟨before, slot, h, after, hsplit, hbefore, hbad⟩ := exists_first_bad hgood
    obtain ⟨problem, hfail, hmiss⟩ :=
      resolve_of_bad hr.toReadable s.found.groups hsplit hbefore hbad
    rw [hfail, failAt, Except.error.injEq, Failure.issue.injEq] at hi
    subst hi
    -- a cycle is none of the problems of a single reference
    rw [show problem = .circular cycle from hcircular] at hmiss
    cases hmiss

/-- A document with a number and a reference to it. -/
def numberAndCopy : Document where
  root := (Data.object [
    ("size", .object [("$type", .text "number"), ("$value", .int 4)]),
    ("copy", .object [("$value", .text "\x7bsize\x7d")])]).tree
  source := ""
  format := .data
  filename := Document.dataName

/-- The steps of that document to its readings. -/
def numberAndCopySteps : numberAndCopy.Steps where
  found := (Discovery.inDocument numberAndCopy.root).toOption.getD .empty
  drafts := (Inference.infer
    ((Discovery.inDocument numberAndCopy.root).toOption.getD .empty).drafts).1
  readings := (((Inference.infer
    ((Discovery.inDocument numberAndCopy.root).toOption.getD .empty).drafts).1.mapM
      readDraft).toOption.getD [])
  found_eq := rfl
  drafts_eq := rfl
  readings_eq := rfl

/-- For instance, a number and a reference to it are resolved exactly when they are well targeted
without a cycle. -/
theorem resolve_exactly_numberAndCopy : ∃ s : numberAndCopy.Steps,
    numberAndCopy.root.WellKeyed ∧ ColorsConvert s.readings ∧
    ((∃ t, resolve s.readings s.found.groups = .ok t) ↔
      (∀ p ∈ allHoles s.readings, WellTargeted s.readings p.2) ∧ Acyclic s.readings) := by
  have hkeyed : numberAndCopy.root.WellKeyed := by decide +kernel
  have hcolors : ColorsConvert numberAndCopySteps.readings := by
    intro r hr hcolor
    have hnone : ∀ r ∈ numberAndCopySteps.readings, r.draft.type ≠ some .color := by
      decide +kernel
    exact absurd hcolor (hnone r hr)
  exact ⟨numberAndCopySteps, hkeyed, hcolors,
    (resolve_exactly numberAndCopySteps hkeyed hcolors).1⟩

end DesignTokens.Resolution
