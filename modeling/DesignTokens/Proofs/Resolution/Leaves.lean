import DesignTokens.Proofs.Resolution.Acceptance
import DesignTokens.Proofs.Value.Leaves

/-!
# No reference is left

The values of a finished table are plain data, in which there is no place for a reference
(`Template.fill` leaves none), and no text of theirs opens like one (`texts_closed`).  The texts
that references bring in are covered too, since they come from values of the same table.
-/

namespace DesignTokens.Resolution

open Grammar

/-- No text in a resolved value opens like a reference. -/
theorem Genuine.leaves_closed {readings : List Reading} {values : Values} (hr : Genuine readings)
    (hgood : ∀ p ∈ allHoles readings, WellTargeted readings p.2) (hacyclic : Acyclic readings)
    (hv : Resolved readings values) :
    ∀ r ∈ readings, ∀ type, r.draft.type = some type → ∀ mode d,
      valueAt values ⟨r.draft.id, mode⟩ = .ok d → ∀ s, .text s ∈ d.leaves → Closed s := by
  refine hr.induction hgood hacyclic hv (P := fun _ d => ∀ s, .text s ∈ d.leaves → Closed s) ?_
  intro r _ type _ p _ d hliteral hfill hstands s hs
  rcases Template.leaf_of_fill hfill hs with hscalar | ⟨h, hh, c, hc, hleaf⟩
  · exact unopened_of_literal hliteral s hscalar
  · -- the text comes from the value that a reference stands for
    obtain ⟨c', found, hc', -, htexts⟩ := hstands h hh
    obtain rfl : c = c' := Except.ok.inj (hc.symm.trans hc')
    exact htexts s hleaf

/-- In the table of a document with distinct keys no text of a value opens like a reference. -/
theorem texts_closed {d : Document} (hd : d.root.WellKeyed) {t : Table} (ht : d.table = .ok t)
    {id mode : String} {tok : Token} {e : Entry} (htok : (id, tok) ∈ t.tokens)
    (he : (mode, e) ∈ tok.modes) {s : String} (hs : .text s ∈ e.value.leaves) :
    Reference.isOpenedBy s = false := by
  obtain ⟨steps, hr, hgood, hacyclic, values, hv, htable⟩ := Document.exists_resolved hd ht
  obtain ⟨r, hmem, rfl, htype, template, -, c, hc, v, -, rfl⟩ :=
    entry_spec hr.toReadable htable htok he
  rw [value_entryOf] at hs
  exact hr.leaves_closed hgood hacyclic hv r hmem tok.type htype mode c hc s hs

/-- For instance, the text of a dash that a reference brought in. -/
theorem texts_closed_dash : ∃ t tok e, (dashed (.text "2px")).root.WellKeyed ∧
    (dashed (.text "2px")).table = .ok t ∧ ("line", tok) ∈ t.tokens ∧
    (defaultMode, e) ∈ tok.modes ∧ .text "2px" ∈ e.value.leaves ∧
    Reference.isOpenedBy "2px" = false := by
  have hkeyed : (dashed (.text "2px")).root.WellKeyed := by decide +kernel
  have hsome : ((dashedLine (.text "2px")).bind fun p =>
      if .text "2px" ∈ p.2.2.value.leaves then some p else none).isSome = true := by
    decide +kernel
  obtain ⟨⟨t, tok, e⟩, hfound⟩ := Option.isSome_iff_exists.mp hsome
  obtain ⟨⟨t', tok', e'⟩, hline, hleaf⟩ := Option.bind_eq_some_iff.mp hfound
  simp only [Option.ite_none_right_eq_some, Option.some.injEq, Prod.mk.injEq] at hleaf
  obtain ⟨hleaf, rfl, rfl, rfl⟩ := hleaf
  obtain ⟨ht, htok, he⟩ := dashedLine_spec hline
  exact ⟨t', tok', e', hkeyed, ht, htok, he, hleaf, texts_closed hkeyed ht htok he hleaf⟩

end DesignTokens.Resolution
