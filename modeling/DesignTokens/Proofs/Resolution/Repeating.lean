import DesignTokens.Proofs.Resolution.Content

/-!
# Resolving once more

Readings that repeat others, with everything at the origin, are resolved to the same table, with
everything at the origin (`resolve_repeats`).
-/

namespace DesignTokens.Resolution

open Outcome

/-- A reading that repeats another one, with everything at the origin. -/
structure Repeats (r r' : Reading) : Prop where
  id_eq : r'.draft.id = r.draft.id
  type_eq : r'.draft.type = r.draft.type
  group_eq : r'.draft.group = r.draft.group
  description_eq : r'.draft.description = r.draft.description
  extensions_eq : r'.draft.extensions = r.draft.extensions
  span_eq : r'.draft.node.span = .origin
  values_eq : r'.values = r.values.map fun p => (p.1, p.2.atOrigin)

theorem Repeats.sameContent {r r' : Reading} (h : Repeats r r') : SameContent r r' where
  id_eq := h.id_eq.symm
  type_eq := h.type_eq.symm
  group_eq := h.group_eq.symm
  description_eq := h.description_eq.symm
  extensions_eq := h.extensions_eq.symm
  values := by
    rw [h.values_eq, List.forall₂_map_right_iff, List.forall₂_same]
    exact fun p _ => .intro p.1 (Template.atOrigin_atOrigin p.2).symm

variable {readings readings' : List Reading} {values : Values} {groups : List Group} {t : Table}

/-- The tokens of readings that stand at the origin are there. -/
theorem atOrigin_tableOf (hr : Readable readings)
    (hspans : ∀ r ∈ readings, r.draft.node.span = .origin)
    (ht : tableOf values readings groups = .ok t) : t.atOrigin = t := by
  obtain ⟨tokens, htokens, rfl⟩ := tableOf_eq_ok.mp ht
  have hsame : ∀ tok ∈ tokens, (tok.id, tok.atOrigin) = (tok.id, tok) := by
    intro tok htok
    obtain ⟨r, hmem, htok⟩ := exists_left htokens htok
    obtain ⟨type, htype⟩ := hr.typed r hmem
    obtain ⟨modes, -, rfl⟩ := (token_eq_ok htype).mp htok
    rw [Token.atOrigin, ← hspans r hmem]
    rfl
  rw [Table.atOrigin, List.map_map, Function.comp_def, List.map_congr_left hsame]

/-- Readings that repeat others are resolved when those are, to the same table at the origin. -/
theorem resolve_repeats (hr : Readable readings) (h : List.Forall₂ Repeats readings readings')
    (ht : resolve readings groups = .ok t) : resolve readings' groups = .ok t.atOrigin := by
  have hsame : List.Forall₂ SameContent readings readings' :=
    h.imp fun _ _ => Repeats.sameContent
  obtain ⟨t', ht', htt⟩ := resolve_content hr hsame t ht
  have hr' := readable_content hr hsame
  obtain ⟨-, -, values, -, htable⟩ := (resolve_eq_ok hr').mp ht'
  have hspans : ∀ r' ∈ readings', r'.draft.node.span = .origin := by
    intro r' hr'
    obtain ⟨r, -, hrr⟩ := exists_left h hr'
    exact hrr.span_eq
  rw [ht', htt, atOrigin_tableOf hr' hspans htable]

end DesignTokens.Resolution
