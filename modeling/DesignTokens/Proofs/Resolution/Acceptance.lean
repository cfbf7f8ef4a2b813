import DesignTokens.Proofs.Resolution.Tables
import DesignTokens.Proofs.Resolution.Typing
import DesignTokens.Proofs.Value.Acceptance

/-!
# Values of a finished table by type

What a reference brings in could nearly always have been written in its place: a value of a
finished table is accepted as a value of its type, unless a dash of it is a bare zero or an unknown
property of a font is no text and no number (`values_accepted`).  Such values exist, since a
reference to a length may stand for zero, and one in an unknown property may lead to any token.
-/

namespace DesignTokens.Resolution

open Outcome Grammar

/-- Every resolved value is written by a literal of its type, unless it is one of the exceptions. -/
theorem Genuine.writes {readings : List Reading} {values : Values} (hr : Genuine readings)
    (hgood : ∀ p ∈ allHoles readings, WellTargeted readings p.2) (hacyclic : Acyclic readings)
    (hv : Resolved readings values) :
    ∀ r ∈ readings, ∀ type, r.draft.type = some type → ∀ mode d,
      valueAt values ⟨r.draft.id, mode⟩ = .ok d → Plain type d → Writes (Literal type) d := by
  -- along the references: what the holes of a literal stand for is known already
  refine hr.induction hgood hacyclic hv ?_
  intro r _ type _ p _ d hliteral hfill hstands hplain
  exact writes_literal hliteral hstands hfill hplain

/-- In the table of a document with distinct keys a value is accepted as one of its type, and kept
as it is, exactly when no dash is a bare zero and every unknown property is a text or a number. -/
theorem values_accepted {d : Document} (hd : d.root.WellKeyed) {t : Table} (ht : d.table = .ok t)
    {id mode : String} {tok : Token} {e : Entry} (htok : (id, tok) ∈ t.tokens)
    (he : (mode, e) ∈ tok.modes) : Accepts tok.type e.value ↔ Plain tok.type e.value := by
  obtain ⟨s, hr, hgood, hacyclic, values, hv, htable⟩ := Document.exists_resolved hd ht
  obtain ⟨r, hmem, rfl, htype, template, -, c, hc, v, -, rfl⟩ :=
    entry_spec hr.toReadable htable htok he
  rw [value_entryOf]
  constructor
  · exact plain_of_accepts
  · intro hplain
    exact accepts_of_writes (hr.writes hgood hacyclic hv r hmem tok.type htype mode c hc hplain)

/-- A document with a length, and a line whose only dash refers to it. -/
def dashed (length : Data) : Document where
  root := (Data.object [
    ("gap", .object [("$type", .text "dimension"), ("$value", length)]),
    ("line", .object [("$type", .text "strokeStyle"),
      ("$value", .object [("lineCap", .text "butt"),
        ("dashArray", .list [.text "\x7bgap\x7d"])])])]).tree
  source := ""
  format := .data
  filename := Document.dataName

def dashedLine (length : Data) : Option (Table × Token × Entry) :=
  (dashed length).table.toOption.bind fun t =>
    (Members.get? "line" t.tokens).bind fun tok =>
      (Members.get? defaultMode tok.modes).bind fun e => some (t, tok, e)

theorem dashedLine_spec {length : Data} {t : Table} {tok : Token} {e : Entry}
    (h : dashedLine length = some (t, tok, e)) :
    (dashed length).table = .ok t ∧ ("line", tok) ∈ t.tokens ∧ (defaultMode, e) ∈ tok.modes := by
  obtain ⟨t', ht, h⟩ := Option.bind_eq_some_iff.mp h
  obtain ⟨tok', htok, h⟩ := Option.bind_eq_some_iff.mp h
  obtain ⟨e', he, h⟩ := Option.bind_eq_some_iff.mp h
  simp only [Option.some.injEq, Prod.mk.injEq] at h
  obtain ⟨rfl, rfl, rfl⟩ := h
  exact ⟨toOption_eq_some.mp ht, Members.mem_of_get? htok, Members.mem_of_get? he⟩

/-- For instance, a dash with a unit could have been written in the place of its reference. -/
theorem values_accepted_dash : ∃ t tok e, (dashed (.text "2px")).root.WellKeyed ∧
    (dashed (.text "2px")).table = .ok t ∧ ("line", tok) ∈ t.tokens ∧
    (defaultMode, e) ∈ tok.modes ∧ (Accepts tok.type e.value ↔ Plain tok.type e.value) := by
  have hkeyed : (dashed (.text "2px")).root.WellKeyed := by decide +kernel
  have hsome : (dashedLine (.text "2px")).isSome = true := by decide +kernel
  obtain ⟨⟨t, tok, e⟩, hline⟩ := Option.isSome_iff_exists.mp hsome
  obtain ⟨ht, htok, he⟩ := dashedLine_spec hline
  exact ⟨t, tok, e, hkeyed, ht, htok, he, values_accepted hkeyed ht htok he⟩

/-- A bare zero that a reference brings into dashes could not have been written there. -/
theorem not_accepted_zero : ∃ t tok e, (dashed (.int 0)).root.WellKeyed ∧
    (dashed (.int 0)).table = .ok t ∧ ("line", tok) ∈ t.tokens ∧ (defaultMode, e) ∈ tok.modes ∧
    ¬ Accepts tok.type e.value := by
  have hkeyed : (dashed (.int 0)).root.WellKeyed := by decide +kernel
  have hsome : ((dashedLine (.int 0)).bind fun p =>
      if (value p.2.1.type p.2.2.value.tree).toOption.isNone then some p else none).isSome =
        true := by
    decide +kernel
  obtain ⟨⟨t, tok, e⟩, hfound⟩ := Option.isSome_iff_exists.mp hsome
  obtain ⟨⟨t', tok', e'⟩, hline, hnone⟩ := Option.bind_eq_some_iff.mp hfound
  simp only [Option.ite_none_right_eq_some, Option.some.injEq, Prod.mk.injEq] at hnone
  obtain ⟨hnone, rfl, rfl, rfl⟩ := hnone
  obtain ⟨ht, htok, he⟩ := dashedLine_spec hline
  refine ⟨t', tok', e', hkeyed, ht, htok, he, ?_⟩
  rintro ⟨u, hu, -⟩
  simp [hu, Except.toOption] at hnone

end DesignTokens.Resolution
