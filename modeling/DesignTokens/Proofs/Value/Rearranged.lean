import DesignTokens.Proofs.Tree.Rearranged
import DesignTokens.Proofs.Value.Filling

/-!
# Templates in another order

The properties of a font may come in another order.  They have the same holes then, the same
references in another order, and filled with data in another order they are data in another order.
-/

namespace DesignTokens

open Outcome

/-- Trees of references that are the same up to the order of the parts of a value. -/
inductive ReferenceTree.Rearranged : ReferenceTree → ReferenceTree → Prop where
  | same (tree : ReferenceTree) : Rearranged tree tree
  | parts {children others : List (Step × ReferenceTree)} : children.Perm others →
      Rearranged (.parts children) (.parts others)

namespace Template

/-- Templates of a type that differ at most in the order of the properties of a font. -/
inductive Rearranged : TokenType → Template → Template → Prop where
  /-- The templates of most types are the same. -/
  | same (type : TokenType) (t : Template) : Rearranged type t t
  /-- The properties of a font are in another order. -/
  | properties {ms ns : List (String × Template)} : ms.Perm ns →
      Rearranged .typography (.object ms) (.object ns)

variable {type : TokenType} {t u : Template}

/-! ## Holes and references -/

theorem Rearranged.hasHole_iff (h : Rearranged type t u) {hole : Hole} :
    t.HasHole hole ↔ u.HasHole hole := by
  cases h with
  | same => exact Iff.rfl
  | properties hperm => simp only [hasHole_object, hperm.mem_iff]

theorem memberReferences_eq_filterMap (ms : List (String × Template)) :
    memberReferences ms = ms.filterMap fun m => m.2.references?.map fun r => (.field m.1, r) := by
  induction ms with
  | nil => rfl
  | cons m ms ih =>
    obtain ⟨k, t⟩ := m
    rw [memberReferences, List.filterMap_cons, ih]
    cases t.references? <;> rfl

/-- The references of an object whose members are in another order are in another order. -/
theorem references?_object_perm {ms ns : List (String × Template)} (h : ms.Perm ns) :
    Option.Rel ReferenceTree.Rearranged (object ms).references? (object ns).references? := by
  have hperm : (memberReferences ms).Perm (memberReferences ns) := by
    rw [memberReferences_eq_filterMap, memberReferences_eq_filterMap]
    exact h.filterMap _
  rw [references?, references?]
  split
  · rename_i hnil
    rw [hnil, List.nil_perm] at hperm
    rw [hperm]
    exact .none
  · rename_i hne
    split
    · rename_i hnil
      rw [hnil, List.perm_nil] at hperm
      exact absurd hperm hne
    · exact .some (.parts hperm)

theorem Rearranged.references? (h : Rearranged type t u) :
    Option.Rel ReferenceTree.Rearranged t.references? u.references? := by
  cases h with
  | same =>
    cases t.references? with
    | none => exact .none
    | some tree => exact .some (.same tree)
  | properties hperm => exact references?_object_perm hperm

/-! ## Filling -/

section

variable {value other : Reference → Except Fault Data}

theorem contribution_rearranged (t : Template) {c d : Data} (h : c.Rearranged d) :
    List.Forall₂ Data.Rearranged (contribution t c) (contribution t d) := by
  cases t with
  | hole g =>
    rw [contribution, contribution]
    split
    · -- a list adds its items, which are in the same order
      cases h with
      | list hall => exact hall
      | null => exact .cons .null .nil
      | scalar s => exact .cons (.scalar s) .nil
      | object hall hperm => exact .cons (.object hall hperm) .nil
    · exact .cons h .nil
  | _ => exact .cons h .nil

theorem fillItems_rearranged {items : List Template}
    (h : ∀ t ∈ items, CarriesOver Data.Rearranged (fill value t) (fill other t)) :
    CarriesOver (List.Forall₂ Data.Rearranged) (fillItems value items) (fillItems other items) := by
  induction items with
  | nil => exact .ok .nil
  | cons t ts ih =>
    rw [fillItems_cons, fillItems_cons]
    refine .bind (h t List.mem_cons_self) fun c d hcd => ?_
    refine .bind (ih fun u hu => h u (List.mem_cons_of_mem _ hu)) fun cs ds hall => ?_
    exact .ok (List.rel_append (contribution_rearranged t hcd) hall)

theorem fillMembers_eq_mapM (ms : List (String × Template)) :
    fillMembers value ms = ms.mapM fun m => do return (m.1, ← fill value m.2) := by
  induction ms with
  | nil => rfl
  | cons m ms ih =>
    obtain ⟨k, t⟩ := m
    rw [fillMembers, List.mapM_cons, ih]
    simp only [bind_assoc, pure_bind]

/-- An object whose members are in another order is filled in another order. -/
theorem fill_object_perm {ms ns : List (String × Template)} (hperm : ms.Perm ns)
    (h : ∀ m ∈ ms, CarriesOver Data.Rearranged (fill value m.2) (fill other m.2)) :
    CarriesOver Data.Rearranged (fill value (.object ms)) (fill other (.object ns)) := by
  rw [fill, fill, fillMembers_eq_mapM, fillMembers_eq_mapM, map_eq_pure_bind, map_eq_pure_bind]
  have hmatched : Matched Eq ms ns := ⟨ms, List.forall₂_same.mpr fun _ _ => rfl, hperm⟩
  refine .bind (hmatched.mapM fun m hm n hmn => ?_) fun _ _ hall => .ok (.of_matched hall)
  subst hmn
  exact .bind (h m hm) fun _ _ hcd => .ok (.intro m.1 hcd)

/-- A template whose holes stand for data in another order is filled in another order. -/
theorem fill_rearranged (t : Template)
    (h : ∀ g, t.HasHole g → CarriesOver Data.Rearranged (value g.reference) (other g.reference)) :
    CarriesOver Data.Rearranged (fill value t) (fill other t) := by
  induction t using Template.induction with
  | hole g => exact h g (by simp)
  | scalar s => exact .ok (.scalar s)
  | list items ih =>
    rw [fill, fill, map_eq_pure_bind, map_eq_pure_bind]
    refine .bind (fillItems_rearranged fun t ht => ?_) fun _ _ hall => .ok (.list hall)
    exact ih t ht fun g hg => h g (hasHole_list.mpr ⟨t, ht, hg⟩)
  | object members ih =>
    refine fill_object_perm (.refl members) fun m hm => ?_
    exact ih m hm fun g hg => h g (hasHole_object.mpr ⟨m, hm, hg⟩)

/-- The same of templates that are themselves in another order. -/
theorem Rearranged.fill (hr : Rearranged type t u)
    (h : ∀ g, t.HasHole g → CarriesOver Data.Rearranged (value g.reference) (other g.reference)) :
    CarriesOver Data.Rearranged (fill value t) (fill other u) := by
  cases hr with
  | same => exact fill_rearranged t h
  | properties hperm =>
    refine fill_object_perm hperm fun m hm => fill_rearranged m.2 fun g hg => ?_
    exact h g (hasHole_object.mpr ⟨m, hm, hg⟩)

end

end Template

end DesignTokens
