import DesignTokens.Draft.Inference
import DesignTokens.Proofs.Members
import DesignTokens.Proofs.Outcome

/-!
# What inference changes

Inference gives types to tokens and changes nothing else of them.  When it ends without an issue
every token has a type.
-/

namespace DesignTokens.Inference

open DesignTokens.Outcome (exists_left)

/-- A draft that is the same up to its type, and that has a type if it had one before. -/
structure Extends (d d' : Draft) : Prop where
  eq : d' = { d with type := d'.type }
  typed : d.type ≠ none → d'.type ≠ none

theorem Extends.refl (d : Draft) : Extends d d := ⟨rfl, id⟩

theorem Extends.trans {a b c : Draft} (hab : Extends a b) (hbc : Extends b c) : Extends a c where
  eq := by
    have hb := hab.eq
    have hc := hbc.eq
    rw [hb] at hc
    exact hc
  typed := fun h => hbc.typed (hab.typed h)

theorem Extends.id_eq {d d' : Draft} (h : Extends d d') : d'.id = d.id := by
  rw [h.eq]

theorem ids_eq {drafts drafts' : List Draft} (h : List.Forall₂ Extends drafts drafts') :
    drafts'.map Draft.id = drafts.map Draft.id := by
  induction h with
  | nil => rfl
  | cons hd _ ih => rw [List.map_cons, List.map_cons, hd.id_eq, ih]

theorem extends_trans {a b c : List Draft} (hab : List.Forall₂ Extends a b)
    (hbc : List.Forall₂ Extends b c) : List.Forall₂ Extends a c := by
  induction hab generalizing c with
  | nil => exact hbc
  | cons hd _ ih =>
    cases hbc with
    | cons he hrest => exact .cons (hd.trans he) (ih hrest)

/-! ## One token -/

/-- The tokens of the chain before stay in the chain. -/
theorem follow_chain {drafts : List Draft} {start : Draft} {fuel : Nat} {chain : List String}
    {current : Draft} {found : List String} {type : TokenType}
    (h : follow drafts start fuel chain current = .found found type) : chain ⊆ found := by
  induction fuel generalizing chain current with
  | zero => simp [follow] at h
  | succ fuel ih =>
    rw [follow] at h
    split at h
    · -- the chain ends at a type
      simp only [Outcome.found.injEq] at h
      exact h.1 ▸ List.Subset.refl _
    · split at h
      · simp at h
      · split at h
        · simp [issue] at h
        · split at h
          · simp [issue] at h
          · -- the target has joined the chain at its end
            exact List.Subset.trans (List.subset_append_left _ _) (ih h)

theorem extends_assign (chain : List String) (type : TokenType) (drafts : List Draft) :
    List.Forall₂ Extends drafts (assign chain type drafts) := by
  rw [assign, List.forall₂_map_right_iff, List.forall₂_same]
  intro d _
  split
  · exact ⟨rfl, by simp⟩
  · exact .refl d

/-! ## All tokens -/

/-- Without an issue every token of the paths that were looked at has a type. -/
theorem inferAll_spec {ids : List String} {drafts drafts' : List Draft}
    (h : inferAll ids drafts = (drafts', none)) :
    List.Forall₂ Extends drafts drafts' ∧
      ((drafts.map Draft.id).Nodup → ∀ d ∈ drafts', d.id ∈ ids → d.type ≠ none) := by
  -- the induction is on the paths that are left; later ones only add types
  induction ids generalizing drafts with
  | nil =>
    obtain rfl : drafts = drafts' := by simpa [inferAll] using h
    exact ⟨List.forall₂_same.mpr fun d _ => .refl d, by simp⟩
  | cons id rest ih =>
    rw [inferAll] at h
    split at h
    · rename_i hnone
      obtain ⟨hext, htyped⟩ := ih h
      refine ⟨hext, fun hnodup d hd hid => ?_⟩
      rcases List.mem_cons.mp hid with rfl | hid
      · -- no draft has the path, before and after
        have hids : d.id ∈ drafts.map Draft.id := ids_eq hext ▸ List.mem_map_of_mem hd
        obtain ⟨e, he, heq⟩ := List.mem_map.mp hids
        exact absurd heq (find?_key_eq_none_iff.mp hnone e he)
      · exact htyped hnodup d hd hid
    · rename_i draft hfind
      have hmem := List.mem_of_find?_eq_some hfind
      have hkey : draft.id = id := by simpa using List.find?_some hfind
      split at h
      · -- a draft with a type keeps it
        rename_i type htype
        obtain ⟨hext, htyped⟩ := ih h
        refine ⟨hext, fun hnodup d hd hid => ?_⟩
        rcases List.mem_cons.mp hid with rfl | hid
        · obtain ⟨e, he, hde⟩ := exists_left hext hd
          obtain rfl : e = draft :=
            List.inj_on_of_nodup_map hnodup he hmem (by rw [hkey, hde.id_eq])
          exact hde.typed (by rw [htype]; simp)
        · exact htyped hnodup d hd hid
      · split at h
        · rename_i chain type hfollow
          obtain ⟨hext, htyped⟩ := ih h
          -- the chain has the draft itself, so it gets the type of the chain
          have hassign := extends_assign chain type drafts
          refine ⟨extends_trans hassign hext, fun hnodup d hd hid => ?_⟩
          rcases List.mem_cons.mp hid with rfl | hid
          · obtain ⟨e, he, hde⟩ := exists_left hext hd
            refine hde.typed ?_
            obtain ⟨b, hb, rfl⟩ := List.mem_map.mp he
            have hb_id : b.id = draft.id := by
              rw [hkey, hde.id_eq]
              split <;> rfl
            have hin : b.id ∈ chain := hb_id ▸ follow_chain hfollow List.mem_cons_self
            simp [hin]
          · exact htyped (by rw [ids_eq hassign]; exact hnodup) d hd hid
        all_goals simp at h

/-- Without an issue inference extends all drafts to drafts with types. -/
theorem infer_spec {drafts drafts' : List Draft} (hnodup : (drafts.map Draft.id).Nodup)
    (h : infer drafts = (drafts', none)) :
    List.Forall₂ Extends drafts drafts' ∧ ∀ d ∈ drafts', ∃ type, d.type = some type := by
  obtain ⟨hext, htyped⟩ := inferAll_spec h
  refine ⟨hext, fun d hd => Option.ne_none_iff_exists'.mp (htyped hnodup d hd ?_)⟩
  rw [← ids_eq hext]
  exact List.mem_map_of_mem hd

/-- Drafts that have types stay as they are. -/
theorem infer_of_typed {drafts : List Draft} (h : ∀ d ∈ drafts, ∃ type, d.type = some type) :
    infer drafts = (drafts, none) := by
  have key : ∀ ids, inferAll ids drafts = (drafts, none) := by
    intro ids
    induction ids with
    | nil => rfl
    | cons id rest ih =>
      rw [inferAll]
      split
      · exact ih
      · rename_i draft hfind
        obtain ⟨type, htype⟩ := h draft (List.mem_of_find?_eq_some hfind)
        rw [htype]
        exact ih
  exact key _

end DesignTokens.Inference
