import DesignTokens.Proofs.Value.Parts
import DesignTokens.Proofs.Value.Writing
import DesignTokens.Table.Written

/-!
# Putting references back

The data of a steady template, with the references of the template put back where they stood, is
the template as it is written (`restores_of_fill`).
-/

namespace DesignTokens.Written

open Outcome Template

/-! ## Members at steps -/

theorem member?_append {step : Step} {before : List (Step × Written)}
    (h : member? step before = none) (rest : List (Step × Written)) :
    member? step (before ++ rest) = member? step rest := by
  induction before with
  | nil => rfl
  | cons p before ih =>
    obtain ⟨s, w⟩ := p
    rw [member?] at h
    split at h
    · simp at h
    · rename_i hne
      rw [List.cons_append, member?, if_neg hne, ih h]

theorem setMember_append {step : Step} {before : List (Step × Written)}
    (h : member? step before = none) (part : Written) (rest : List (Step × Written)) :
    setMember step part (before ++ rest) = before ++ setMember step part rest := by
  induction before with
  | nil => rfl
  | cons p before ih =>
    obtain ⟨s, w⟩ := p
    rw [member?] at h
    split at h
    · simp at h
    · rename_i hne
      rw [List.cons_append, setMember, if_neg hne, ih h, List.cons_append]

theorem setMember_of_none {step : Step} {ms : List (Step × Written)} (h : member? step ms = none)
    (part : Written) : setMember step part ms = ms ++ [(step, part)] := by
  have happend := setMember_append h part []
  rwa [List.append_nil] at happend

theorem ofMembers_eq_map (ms : Members Data) :
    ofMembers ms = ms.map fun m => (.field m.1, ofData m.2) := by
  induction ms with
  | nil => rfl
  | cons m ms ih =>
    obtain ⟨name, d⟩ := m
    rw [ofMembers, ih, List.map_cons]

theorem ofMembers_append (a b : Members Data) :
    ofMembers (a ++ b) = ofMembers a ++ ofMembers b := by
  rw [ofMembers_eq_map, ofMembers_eq_map, ofMembers_eq_map, List.map_append]

theorem member?_ofMembers (name : String) (ms : Members Data) :
    member? (.field name) (ofMembers ms) = (Members.get? name ms).map ofData := by
  induction ms with
  | nil => rfl
  | cons m ms ih =>
    obtain ⟨k, d⟩ := m
    rw [ofMembers, member?, Members.get?, ih]
    by_cases h : k = name <;> simp [h]

theorem member?_ofMembers_of_not_mem {name : String} {ms : Members Data} (h : name ∉ ms.names) :
    member? (.field name) (ofMembers ms) = none := by
  rw [member?_ofMembers, Members.get?_eq_none_iff.mpr h, Option.map_none]

/-! ## One part after the other -/

/-- A value with the references of one part put back. -/
def restoreAt (step : Step) (tree : ReferenceTree) (w : Written) : Except Fault Written :=
  match tree with
  | .reference r => replacePart step (.text r.text) w
  | .parts children => do
    let part ← partAt step w
    replacePart step (← restore (.parts children) part) w

theorem restoreParts_nil (w : Written) : restoreParts [] w = .ok w := by
  rw [restoreParts]

/-- References are put back into the first part, and then into the others. -/
theorem restoreParts_cons (step : Step) (tree : ReferenceTree)
    (rest : List (Step × ReferenceTree)) (w : Written) :
    restoreParts ((step, tree) :: rest) w = restoreAt step tree w >>= restoreParts rest := by
  cases tree with
  | reference r => rw [restoreParts, restoreAt]
  | parts children =>
    rw [restoreParts, restoreAt, bind_assoc]
    congr 1
    funext part
    rw [restore, bind_assoc]
    split <;> rfl

theorem restoreParts_append (first later : List (Step × ReferenceTree)) (w : Written) :
    restoreParts (first ++ later) w = restoreParts first w >>= restoreParts later := by
  induction first generalizing w with
  | nil => rw [restoreParts_nil]; rfl
  | cons p first ih =>
    rw [List.cons_append, restoreParts_cons, restoreParts_cons, bind_assoc]
    congr 1
    funext w'
    exact ih w'

/-- A part into which references are put back is replaced. -/
theorem restoreAt_eq {step : Step} {tree : ReferenceTree} {w part part' : Written}
    (hpart : partAt step w = .ok part) (h : restore tree part = .ok part') :
    restoreAt step tree w = replacePart step part' w := by
  cases tree with
  | reference r =>
    rw [restore] at h
    rw [restoreAt, ← Except.ok.inj h]
  | parts children =>
    rw [restoreAt, hpart]
    simp only [bind, Except.bind, h]

/-- Data is restored to a template when its references can be put back, or when there are none and
the data is what is written. -/
def Restores (t : Template) (d : Data) : Prop :=
  match t.references? with
  | none => d = t.written
  | some tree => restore tree (ofData d) = .ok (ofData t.written)

/-- The first part of a value is restored or left alone, and the other parts follow; `put` puts a
part in its place. -/
theorem restoreParts_part {step : Step} {t : Template} {d : Data} (hd : Restores t d)
    {rest : List (Step × ReferenceTree)} (put result : Written → Written)
    (hpart : partAt step (put (ofData d)) = .ok (ofData d))
    (hreplace : ∀ w, replacePart step w (put (ofData d)) = .ok (put w))
    (hrest : ∀ w, restoreParts rest (put w) = .ok (result w)) :
    restoreParts (match t.references? with
      | some tree => (step, tree) :: rest
      | none => rest) (put (ofData d)) = .ok (result (ofData t.written)) := by
  rw [Restores] at hd
  cases htree : t.references? with
  | none =>
    rw [htree] at hd
    exact hd ▸ hrest _
  | some tree =>
    rw [htree] at hd
    dsimp only
    rw [restoreParts_cons, restoreAt_eq hpart hd, hreplace]
    exact hrest _

/-- What can be done with each item of a list can be done with all of them. -/
theorem restoreParts_items {items : List Template} {ds : List Data}
    (h : List.Forall₂ Restores items ds) (before : List Written) :
    restoreParts (itemReferences before.length items) (.list (before ++ ofItems ds)) =
      .ok (.list (before ++ ofItems (items.map written))) := by
  induction h generalizing before with
  | nil => exact restoreParts_nil _
  | @cons t d ts ds hd _ ih =>
    rw [itemReferences, ofItems, List.map_cons, ofItems]
    refine restoreParts_part hd (fun w => .list (before ++ w :: ofItems ds))
      (fun w => .list (before ++ w :: ofItems (ts.map written))) ?_ (fun w => ?_) fun w => ?_
    -- the part that is looked up is the one behind those before it
    · simp [partAt]
    · simp [replacePart]
    · have hw := ih (before ++ [w])
      rwa [List.length_append, List.length_singleton, List.append_assoc, List.append_assoc] at hw

/-- The same for the members of an object, of which only some are looked at. -/
theorem restoreParts_members {members : List (String × Template)} {ds : Members Data}
    (h : List.Forall₂ (fun m d => d.1 = m.1 ∧ Restores m.2 d.2) members ds)
    (hnodup : (Members.names members).Nodup) (before after : List (Step × Written))
    (hnew : ∀ m ∈ members, member? (.field m.1) before = none) :
    restoreParts (memberReferences members) (.object (before ++ (ofMembers ds ++ after))) =
      .ok (.object (before ++
        (ofMembers (members.map fun m => (m.1, m.2.written)) ++ after))) := by
  induction h generalizing before with
  | nil => exact restoreParts_nil _
  | @cons m d ms ds hd _ ih =>
    obtain ⟨name, t⟩ := m
    obtain ⟨name', d⟩ := d
    obtain ⟨rfl, hd⟩ := hd
    obtain ⟨hfirst, hnodup⟩ := List.nodup_cons.mp hnodup
    have hname := hnew _ List.mem_cons_self
    dsimp only at hname hd hfirst
    rw [memberReferences, ofMembers, List.map_cons, ofMembers, List.cons_append, List.cons_append]
    refine restoreParts_part hd
      (fun w => .object (before ++ (.field name', w) :: (ofMembers ds ++ after)))
      (fun w => .object (before ++ (.field name', w) ::
        (ofMembers (ms.map fun m => (m.1, m.2.written)) ++ after))) ?_ (fun w => ?_) fun w => ?_
    -- no part before it has its name
    · rw [partAt, member?_append hname]
      simp [member?]
    · rw [replacePart, setMember_append hname]
      simp [setMember]
    · have hw := ih hnodup (before ++ [(.field name', w)]) fun m hm => by
        have hne : name' ≠ m.1 := by
          rintro rfl
          exact hfirst (List.mem_map_of_mem hm)
        rw [member?_append (hnew m (List.mem_cons_of_mem _ hm))]
        simp [member?, hne]
      rwa [List.append_assoc, List.append_assoc] at hw

/-! ## Steady templates -/

variable {value : Reference → Except Fault Data}

/-- Whether there are references to put back can be asked of the trees. -/
theorem restores_of_trees {t : Template} {d : Data} (hd : fill value t = .ok d)
    (h : ∀ tree, t.references? = some tree → restore tree (ofData d) = .ok (ofData t.written)) :
    Restores t d := by
  rw [Restores]
  split
  · rename_i hnone
    exact Except.ok.inj (hd.symm.trans (fill_of_solid (solid_of_references? hnone)))
  · rename_i tree htree
    exact h tree htree

/-- The data of a steady template is restored to it. -/
theorem restores_of_fill {t : Template} (ht : t.Steady) {d : Data} (hd : fill value t = .ok d) :
    Restores t d := by
  induction ht generalizing d with
  | hole h =>
    refine restores_of_trees hd fun tree htree => ?_
    rw [references?, Option.some.injEq] at htree
    rw [← htree, restore, written_hole]
    rfl
  | scalar s => exact restores_of_trees hd (by simp [references?])
  | list items hspliced _ ih =>
    refine restores_of_trees hd fun tree htree => ?_
    obtain ⟨ds, hds, rfl⟩ := map_eq_ok.mp hd
    -- without spliced items the data has one item for each item
    have hrestores : List.Forall₂ Restores items ds :=
      forall₂_imp ((fillItems_of_unspliced hspliced).mp hds) fun t ht d hfill => ih t ht hfill
    obtain ⟨-, rfl⟩ := references?_list_eq_some.mp htree
    rw [ofData, restore, written_list, ofData]
    exact restoreParts_items hrestores []
  | object members hnodup _ ih =>
    refine restores_of_trees hd fun tree htree => ?_
    obtain ⟨ds, hds, rfl⟩ := map_eq_ok.mp hd
    have hrestores : List.Forall₂ (fun m d => d.1 = m.1 ∧ Restores m.2 d.2) members ds :=
      forall₂_imp (fillMembers_eq_ok.mp hds) fun m hm d hfill => ⟨hfill.1, ih m hm hfill.2⟩
    have hobject := restoreParts_members hrestores hnodup [] [] fun _ _ => rfl
    rw [List.append_nil, List.append_nil] at hobject
    obtain ⟨-, rfl⟩ := references?_object_eq_some.mp htree
    rw [ofData, restore, written_object, ofData]
    exact hobject

end DesignTokens.Written
