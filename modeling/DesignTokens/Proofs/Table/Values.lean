import DesignTokens.Proofs.Table.Reaching
import DesignTokens.Proofs.Table.Restoring
import DesignTokens.Proofs.Table.Splicing
import DesignTokens.Table.ToData

/-!
# Values of a table as they were written

The entry of a template is written as the template is (`asWritten_entry`): references are put back
by their places, and in a list of font families, whose places have moved, slot by slot.
-/

namespace DesignTokens

open Outcome Template

/-! ## Finding the tree of a part -/

theorem not_mem_memberReferences {name : String} {members : List (String × Template)}
    (h : name ∉ Members.names members) {p : Step × ReferenceTree}
    (hp : p ∈ memberReferences members) : p.1 ≠ .field name := by
  induction members with
  | nil => simp [memberReferences] at hp
  | cons m ms ih =>
    obtain ⟨k, t⟩ := m
    rw [Members.names, List.map_cons, List.mem_cons, not_or] at h
    rw [memberReferences] at hp
    split at hp
    · rcases List.mem_cons.mp hp with rfl | hp
      · simpa using Ne.symm h.1
      · exact ih h.2 hp
    · exact ih h.2 hp

theorem find?_memberReferences {name : String} {members : List (String × Template)}
    (h : name ∉ Members.names members) :
    (memberReferences members).find? (·.1 = .field name) = none := by
  rw [List.find?_eq_none]
  intro p hp
  simpa using not_mem_memberReferences h hp

theorem memberReferences_append (a b : List (String × Template)) :
    memberReferences (a ++ b) = memberReferences a ++ memberReferences b := by
  induction a with
  | nil => rfl
  | cons m ms ih =>
    obtain ⟨k, t⟩ := m
    rw [List.cons_append, memberReferences, memberReferences, ih]
    split <;> rfl

/-- Without the references of one member those of the others are left. -/
theorem filter_memberReferences {before after : List (String × Template)} {name : String}
    (hbefore : name ∉ Members.names before) (hafter : name ∉ Members.names after) (t : Template) :
    (memberReferences (before ++ (name, t) :: after)).filter (·.1 ≠ .field name) =
      memberReferences before ++ memberReferences after := by
  have hkeep : ∀ ms : List (String × Template), name ∉ Members.names ms →
      (memberReferences ms).filter (·.1 ≠ .field name) = memberReferences ms := by
    intro ms hms
    rw [List.filter_eq_self]
    intro p hp
    simpa using not_mem_memberReferences hms hp
  rw [memberReferences_append, List.filter_append, hkeep before hbefore, memberReferences]
  split
  · rw [List.filter_cons_of_neg (by simp), hkeep after hafter]
  · rw [hkeep after hafter]

/-- The tree of a member is that of the template of its name. -/
theorem ReferenceTree.child?_memberReferences {members : List (String × Template)} {name : String}
    {t : Template} (hnodup : (Members.names members).Nodup) (h : (name, t) ∈ members) :
    (ReferenceTree.parts (memberReferences members)).child? (.field name) = t.references? := by
  obtain ⟨before, after, rfl⟩ := List.append_of_mem h
  obtain ⟨-, -, hbefore, hafter, -⟩ := Members.nodup_around hnodup
  rw [child?, memberReferences_append, List.find?_append, find?_memberReferences hbefore,
    Option.none_or, memberReferences]
  split
  · rename_i tree htree
    simp [htree]
  · rename_i htree
    rw [find?_memberReferences hafter, htree]
    rfl

/-- A tree that is found at a name is that of a member of the name. -/
theorem ReferenceTree.exists_of_child? {members : List (String × Template)} {name : String}
    {tree : ReferenceTree} (hnodup : (Members.names members).Nodup)
    (h : (ReferenceTree.parts (memberReferences members)).child? (.field name) = some tree) :
    ∃ t, (name, t) ∈ members ∧ t.references? = some tree := by
  by_cases hname : name ∈ Members.names members
  · obtain ⟨m, hm, hmname⟩ := List.mem_map.mp hname
    subst hmname
    exact ⟨m.2, hm, (child?_memberReferences hnodup hm).symm.trans h⟩
  · rw [child?, find?_memberReferences hname] at h
    simp at h

namespace Table

open Grammar Written

variable {t : Table} {value : Reference → Except Fault Data}

/-! ## Lists of font families -/

theorem familySlot_of_isFamily {u : Template} (h : IsFamily u) : u.FamilySlot := by
  obtain hhole | ⟨s, rfl, -⟩ := h
  · cases hhole
    exact .reference _ rfl
  · exact .name s

/-- A list of font families is written slot by slot. -/
theorem familiesAsWritten_eq {template : Template} (hfamilies : IsFamilies template)
    (hreaches : Reaches t value template) {tree : ReferenceTree}
    (htree : template.references? = some tree) {d : Data} (hd : fill value template = .ok d) :
    t.familiesAsWritten tree d = .ok (ofData template.written) := by
  obtain ⟨items, rfl, -, hitems⟩ := hfamilies
  obtain ⟨-, rfl⟩ := references?_list_eq_some.mp htree
  -- what a reference reaches is no empty list
  have hsupplies : ∀ h, .hole h ∈ items → t.Supplies value h.reference := by
    intro h hh
    obtain ⟨htarget, cs, hvalue, hne⟩ := hreaches.slot hitems hh
    exact ⟨htarget, by simpa [hvalue] using hne⟩
  exact familiesAsWritten_of_fill (fun u hu => familySlot_of_isFamily (hitems u hu)) hsupplies hd

/-! ## Properties of fonts -/

/-- A literal without spliced parts is restored, and so is a list of families without references. -/
theorem restores_property {name : String} {u : Template} {d : Data}
    (hu : OrHole (Members.get? name typographyTypes) (IsProperty name) u)
    (hd : fill value u = .ok d) (hfamilies : name = familyField → IsFamilies u →
      u.references? = none) : Restores u d := by
  rcases steady_of_property hu with hsteady | ⟨rfl, hlist⟩
  · exact restores_of_fill hsteady hd
  · exact restores_of_trees hd (by simp [hfamilies rfl hlist])

/-- A property with references inside is no reference itself. -/
theorem families_of_parts {u : Template}
    (hu : OrHole (Members.get? familyField typographyTypes) (IsProperty familyField) u)
    {children : List (Step × ReferenceTree)} (hchildren : u.references? = some (.parts children)) :
    IsFamilies u := by
  rcases hu with hhole | hfamilies
  · cases hhole
    simp [references?] at hchildren
  · exact hfamilies

theorem names_written (members : List (String × Template)) :
    Members.names (members.map fun m => (m.1, m.2.written)) = Members.names members := by
  rw [Members.names, List.map_map]
  rfl

theorem restores_properties {members : List (String × Template)} {ds : Members Data}
    (hall : ∀ m ∈ members, OrHole (Members.get? m.1 typographyTypes) (IsProperty m.1) m.2)
    (hfamilies : ∀ m ∈ members, m.1 = familyField → IsFamilies m.2 → m.2.references? = none)
    (hds : List.Forall₂ (fun m d => d.1 = m.1 ∧ fill value m.2 = .ok d.2) members ds) :
    List.Forall₂ (fun m d => d.1 = m.1 ∧ Restores m.2 d.2) members ds :=
  forall₂_imp hds fun m hm _ hd =>
    ⟨hd.1, restores_property (hall m hm) hd.2 (hfamilies m hm)⟩

/-- What stands before and after a list of families is restored place by place, and the list stays
as it is. -/
theorem restoreParts_around {before after : List (String × Template)} {fam : Template}
    (hnodup : (Members.names (before ++ (familyField, fam) :: after)).Nodup)
    (hall : ∀ m ∈ before ++ (familyField, fam) :: after,
      OrHole (Members.get? m.1 typographyTypes) (IsProperty m.1) m.2)
    {db da : Members Data} (w : Written)
    (hbefore : List.Forall₂ (fun m d => d.1 = m.1 ∧ fill value m.2 = .ok d.2) before db)
    (hafter : List.Forall₂ (fun m d => d.1 = m.1 ∧ fill value m.2 = .ok d.2) after da) :
    restoreParts ((memberReferences (before ++ (familyField, fam) :: after)).filter
        (·.1 ≠ .field familyField))
      (.object (ofMembers db ++ (.field familyField, w) :: ofMembers da)) =
        .ok (.object (ofMembers (before.map fun m => (m.1, m.2.written)) ++
          (.field familyField, w) :: ofMembers (after.map fun m => (m.1, m.2.written)))) := by
  obtain ⟨hbefore_nodup, hafter_nodup, hnot_before, hnot_after, hapart⟩ :=
    Members.nodup_around hnodup
  -- no other member has the name of the families
  have hfirst := restores_properties (fun m hm => hall m (List.mem_append_left _ hm))
    (fun m hm heq => absurd (heq ▸ List.mem_map_of_mem hm) hnot_before) hbefore
  have hlater := restores_properties
    (fun m hm => hall m (List.mem_append_right _ (List.mem_cons_of_mem _ hm)))
    (fun m hm heq => absurd (heq ▸ List.mem_map_of_mem hm) hnot_after) hafter
  have hfirst := restoreParts_members hfirst hbefore_nodup []
    ((.field familyField, w) :: ofMembers da) fun _ _ => rfl
  have hlater := restoreParts_members hlater hafter_nodup
    (ofMembers (before.map fun m => (m.1, m.2.written)) ++ [(.field familyField, w)])
    [] fun m hm => by
      have hin : m.1 ∈ Members.names after := List.mem_map_of_mem hm
      have hfamily : familyField ≠ m.1 := fun heq => hnot_after (heq ▸ hin)
      rw [member?_append (member?_ofMembers_of_not_mem (by
        rw [names_written]
        exact fun hmem => hapart _ hmem hin))]
      simp [member?, hfamily]
  rw [List.nil_append, List.nil_append] at hfirst
  rw [List.append_nil, List.append_nil, List.append_assoc, List.append_assoc] at hlater
  rw [filter_memberReferences hnot_before hnot_after, restoreParts_append, hfirst]
  exact hlater

/-- The properties of a font are written with the list of families slot by slot, and everything else
place by place. -/
theorem typographyAsWritten_eq {members : List (String × Template)}
    (hnodup : (Members.names members).Nodup)
    (hall : ∀ m ∈ members, OrHole (Members.get? m.1 typographyTypes) (IsProperty m.1) m.2)
    (hreaches : Reaches t value (.object members)) {ds : Members Data}
    (hds : List.Forall₂ (fun m d => d.1 = m.1 ∧ fill value m.2 = .ok d.2) members ds) :
    t.typographyAsWritten (memberReferences members) ds =
      .ok (ofData (Template.object members).written) := by
  rw [written_object, ofData, typographyAsWritten]
  split
  · -- the list of families stands somewhere among the members
    rename_i references hchild
    obtain ⟨fam, hmem, htree⟩ := ReferenceTree.exists_of_child? hnodup hchild
    have hfamilies : IsFamilies fam := families_of_parts (hall _ hmem) htree
    have hreach : Reaches t value fam := hreaches.member hmem
    obtain ⟨before, after, rfl⟩ := List.append_of_mem hmem
    obtain ⟨db, da, rfl, hbefore, hafter⟩ := exists_append hds
    rw [List.forall₂_cons_left_iff] at hafter
    obtain ⟨⟨_, dfam⟩, da, ⟨rfl, hfam⟩, hafter, rfl⟩ := hafter
    dsimp only at hfam
    have hrestored := restoreParts_around hnodup hall (ofData dfam) hbefore hafter
    have hds_names : Members.names (db ++ (familyField, dfam) :: da) =
        Members.names (before ++ (familyField, fam) :: after) := names_of_fillMembers hds
    have hget : Members.get? familyField (db ++ (familyField, dfam) :: da) = some dfam :=
      (Members.get?_eq_some_iff (hds_names ▸ hnodup)).mpr (by simp)
    have hwritten := familiesAsWritten_eq hfamilies hreach htree hfam
    -- the list takes the place of its data
    have hnone : familyField ∉ Members.names (before.map fun m => (m.1, m.2.written)) := by
      rw [names_written]
      exact (Members.nodup_around hnodup).2.2.1
    simp only [ofData, ofMembers_append, ofMembers, hrestored, bind, Except.bind, hget, hwritten,
      List.map_append, List.map_cons]
    rw [replacePart, setMember_append (member?_ofMembers_of_not_mem hnone), setMember, if_pos rfl]
  · rename_i hchild
    -- no list of families has references inside
    have hnone : ∀ m ∈ members, m.1 = familyField → IsFamilies m.2 → m.2.references? = none := by
      rintro ⟨name, u⟩ hm rfl ⟨items, rfl, -⟩
      by_contra hsome
      obtain ⟨tree, htree⟩ := Option.ne_none_iff_exists'.mp hsome
      obtain ⟨-, rfl⟩ := references?_list_eq_some.mp htree
      exact hchild _ ((ReferenceTree.child?_memberReferences hnodup hm).trans htree)
    have hrestores := restores_properties hall hnone hds
    have hobject := restoreParts_members hrestores hnodup [] [] fun _ _ => rfl
    rwa [List.append_nil, List.append_nil] at hobject

/-! ## Entries -/

/-- The tree of a template that is no reference as a whole has parts. -/
theorem exists_parts {template : Template} (hne : ∀ h, template ≠ .hole h) {tree : ReferenceTree}
    (htree : template.references? = some tree) :
    ∃ child children, tree = .parts (child :: children) := by
  cases template with
  | hole h => exact absurd rfl (hne h)
  | scalar s => simp [references?] at htree
  | list items =>
    obtain ⟨hne, rfl⟩ := references?_list_eq_some.mp htree
    obtain ⟨child, children, hcons⟩ := List.exists_cons_of_ne_nil hne
    exact ⟨child, children, by rw [hcons]⟩
  | object members =>
    obtain ⟨hne, rfl⟩ := references?_object_eq_some.mp htree
    obtain ⟨child, children, hcons⟩ := List.exists_cons_of_ne_nil hne
    exact ⟨child, children, by rw [hcons]⟩

/-- The entry of a value of a type is written as its template is. -/
theorem asWritten_entry {type : TokenType} {template : Template}
    (htemplate : (∃ h, template = .hole h) ∨ Literal type template)
    (hreaches : Reaches t value template) {d : Data} (hd : fill value template = .ok d)
    (variants : Members Data) :
    t.asWritten type (Resolution.entryOf template d variants) = .ok (ofData template.written) := by
  obtain ⟨h, rfl⟩ | hliteral := htemplate
  · rw [written_hole, ofData]
    rfl
  -- a literal is no reference as a whole
  have hentry : Resolution.entryOf template d variants =
      ⟨d, template.references?, none, variants⟩ := by
    cases template with
    | hole h => exact absurd hliteral not_literal_hole
    | _ => rfl
  rw [hentry, asWritten]
  cases htree : template.references? with
  | none =>
    -- without references the data is what was written
    have hsame := (fill_of_solid (solid_of_references? htree)).symm.trans hd
    rw [Except.ok.inj hsame]
  | some tree =>
    obtain ⟨child, children, rfl⟩ := exists_parts
      (fun h heq => not_literal_hole (heq ▸ hliteral : Literal type (.hole h))) htree
    dsimp only
    by_cases hfamilies : type = .fontFamily
    · subst hfamilies
      exact familiesAsWritten_eq hliteral hreaches htree hd
    by_cases htypography : type = .typography
    · subst htypography
      -- a short form has no references
      obtain ⟨s, rfl, -⟩ | ⟨members, rfl, hnodup, hall⟩ := hliteral
      · simp [references?] at htree
      · obtain ⟨ds, hds, rfl⟩ := map_eq_ok.mp hd
        obtain ⟨-, hchildren⟩ := references?_object_eq_some.mp htree
        rw [ReferenceTree.parts.inj hchildren]
        exact typographyAsWritten_eq hnodup hall hreaches (fillMembers_eq_ok.mp hds)
    · -- all other types are steady
      have hrestores := restores_of_fill (steady_of_literal hfamilies htypography hliteral) hd
      rw [Restores, htree] at hrestores
      split
      · exact absurd rfl hfamilies
      · exact absurd rfl htypography
      · exact hrestores

end Table

end DesignTokens
