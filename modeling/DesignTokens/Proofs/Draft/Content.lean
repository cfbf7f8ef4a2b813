import DesignTokens.Proofs.Draft.Rearranged
import DesignTokens.Proofs.Value.Content

/-!
# Finding tokens at other places

In trees with the same content the same tokens and the same groups are found
(`inDocument_content`), and references give the tokens the same types (`infer_content`).
-/

namespace DesignTokens

open Outcome

/-- Drafts that differ in nothing but the places of their nodes. -/
structure Draft.SameContent (d e : Draft) : Prop where
  id_eq : d.id = e.id
  type_eq : d.type = e.type
  node : d.node.SameContent e.node
  value : d.value.SameContent e.value
  modes : List.Forall₂ (Keyed Tree.SameContent) d.modes e.modes
  description_eq : d.description = e.description
  extensions_eq : d.extensions = e.extensions
  group_eq : d.group = e.group

namespace Discovery

open Grammar (Placeless)

/-! ## What stands beside a value -/

theorem placeless_givenType : Placeless Eq givenType := by
  intro t u h
  unfold givenType
  obtain ⟨ht, hu⟩ | ⟨v, w, ht, hu, hvw⟩ := rel_iff.mp (h.get? "$type") <;> rw [ht, hu]
  · exact .ok rfl
  · dsimp only
    rw [hvw.text?_eq]
    split
    · exact .error
    · split
      · exact .ok rfl
      · exact .error

theorem placeless_description : Placeless Eq description := by
  intro t u h
  unfold description
  obtain ⟨ht, hu⟩ | ⟨v, w, ht, hu, hvw⟩ := rel_iff.mp (h.get? "$description") <;> rw [ht, hu]
  · exact .ok rfl
  · dsimp only
    rw [hvw.text?_eq]
    split
    · exact .ok rfl
    · exact .error

theorem placeless_extensions : Placeless (List.Forall₂ Tree.SameMember) extensions := by
  intro t u h
  unfold extensions
  obtain ⟨ht, hu⟩ | ⟨v, w, ht, hu, hvw⟩ := rel_iff.mp (h.get? "$extensions") <;> rw [ht, hu]
  · exact .ok .nil
  · obtain ⟨hv, hw⟩ | ⟨ms, ns, hv, hw, hall⟩ := rel_iff.mp hvw.members? <;> simp only [hv, hw]
    · exact .error
    · exact .ok hall

theorem modes_content {ms ns : List (Key × Tree)} (h : List.Forall₂ Tree.SameMember ms ns) :
    CarriesOver (List.Forall₂ (Keyed Tree.SameContent)) (modes ms) (modes ns) := by
  unfold modes
  have hfind := rel_find? (p := fun m => m.1.name = modeField) (q := fun n => n.1.name = modeField) h
    fun _ _ hmn => by rw [hmn.1]
  obtain ⟨hm, hn⟩ | ⟨m, n, hm, hn, hmn⟩ := rel_iff.mp hfind <;> rw [hm, hn]
  · exact .ok .nil
  · obtain ⟨hv, hw⟩ | ⟨vs, ws, hv, hw, hall⟩ := rel_iff.mp hmn.2.members? <;> simp only [hv, hw]
    · exact .error
    · refine .mapM hall fun p q hpq => ?_
      rw [hpq.1]
      split
      · exact .error
      · exact .ok (.intro _ hpq.2)

/-! ## Tokens -/

theorem token_content (id : String) (group : Option String) (type : Option TokenType)
    {t u v w : Tree} (h : t.SameContent u) (hvw : v.SameContent w) :
    CarriesOver Draft.SameContent (token id group type t v) (token id group type u w) := by
  intro d hd
  obtain ⟨huntyped, ms, hms, modes, hmodes, text, htext, rfl⟩ := token_eq_ok.mp hd
  obtain ⟨ns, hns, hmembers⟩ := placeless_extensions t u h ms hms
  obtain ⟨others, hothers, hsame⟩ := modes_content hmembers modes hmodes
  obtain ⟨_, htext', rfl⟩ := placeless_description t u h text htext
  refine ⟨_, token_eq_ok.mpr ⟨fun hnone => ?_, ns, hns, others, hothers, text, htext', rfl⟩, ?_⟩
  · obtain ⟨g, hg⟩ := huntyped hnone
    obtain ⟨found, hfound, hrel⟩ := Grammar.placeless_hole? none false v w hvw _ hg
    cases hrel
    exact ⟨_, hfound⟩
  · exact ⟨rfl, rfl, h, hvw, hsame, rfl, by rw [Tree.dataMembers_eq hmembers], rfl⟩

/-! ## Groups -/

/-- What was found in trees with the same content. -/
structure Found.SameContent (a b : Found) : Prop where
  drafts : List.Forall₂ Draft.SameContent a.drafts b.drafts
  groups_eq : a.groups = b.groups

theorem Found.concat_content {as bs : List Found} (h : List.Forall₂ Found.SameContent as bs) :
    (Found.concat as).SameContent (Found.concat bs) := by
  induction h with
  | nil => exact ⟨.nil, rfl⟩
  | cons hab _ ih =>
    exact ⟨List.rel_append hab.drafts ih.drafts,
      congrArg₂ (· ++ ·) hab.groups_eq ih.groups_eq⟩

theorem Found.SameContent.inGroup {a b : Found} (h : a.SameContent b) (g : Group) :
    (a.inGroup g).SameContent (b.inGroup g) := by
  have hbelow : (a.drafts.filter fun d => d.group = some g.id).map Draft.id =
      (b.drafts.filter fun d => d.group = some g.id).map Draft.id := by
    have hfilter : List.Forall₂ Draft.SameContent (a.drafts.filter fun d => d.group = some g.id)
        (b.drafts.filter fun d => d.group = some g.id) :=
      List.rel_filter (fun d e hde => by simp only [hde.group_eq]) h.drafts
    exact forall₂_map_eq.mp (hfilter.imp fun _ _ hde => hde.id_eq)
  rw [Found.inGroup, Found.inGroup, isEmpty_eq_of_length_eq h.drafts.length_eq]
  split
  · exact h
  · exact ⟨h.drafts, by rw [hbelow, h.groups_eq]⟩

/-- In corresponding members the same is found when it is so in each of them. -/
theorem gatherMembers_content {inherited : Option TokenType} {parent : Option String}
    {ms ns : List (Key × Tree)}
    (h : List.Forall₂ (fun m n => m.1.name = n.1.name ∧ ∀ parent id inherited,
      CarriesOver Found.SameContent (gatherChild parent id inherited m.2)
        (gatherChild parent id inherited n.2)) ms ns) :
    CarriesOver Found.SameContent (gatherMembers parent inherited ms)
      (gatherMembers parent inherited ns) := by
  rw [gatherMembers_eq, gatherMembers_eq]
  refine .map (.mapM h fun m n hmn => ?_) fun _ _ => Found.concat_content
  obtain ⟨hname, hchild⟩ := hmn
  unfold gatherMember
  rw [hname]
  split
  · exact .ok ⟨.nil, rfl⟩
  · split
    · exact .error
    · exact hchild _ _ _

/-- In nodes with the same content the same is found. -/
theorem gatherChild_content {t u : Tree} (h : t.SameContent u) :
    ∀ parent id inherited, CarriesOver Found.SameContent (gatherChild parent id inherited t)
      (gatherChild parent id inherited u) := by
  refine h.induction (P := fun t u => ∀ parent id inherited,
    CarriesOver Found.SameContent (gatherChild parent id inherited t)
      (gatherChild parent id inherited u)) ?_ ?_ ?_ ?_
  · exact fun _ _ _ _ _ => .error
  · exact fun _ _ _ _ _ _ => .error
  · exact fun _ _ _ _ _ _ _ _ => .error
  · intro ms ns span span' hall parent id inherited
    have hnode : (Tree.mapping ms span).SameContent (.mapping ns span') :=
      Tree.sameContent_mapping (hall.imp fun _ _ hmn => hmn.1)
    rw [gatherChild, gatherChild]
    refine .bind (placeless_givenType _ _ hnode) fun given _ hgiven => ?_
    subst hgiven
    obtain ⟨ht, hu⟩ | ⟨v, w, ht, hu, hvw⟩ := rel_iff.mp (hnode.get? valueField) <;>
      simp only [ht, hu]
    · -- without a value the node is a group, and its members correspond
      refine .bind (placeless_description _ _ hnode) fun text _ htext => ?_
      subst htext
      refine .bind (placeless_extensions _ _ hnode) fun es fs hes => ?_
      rw [Tree.dataMembers_eq hes]
      exact .bind (gatherMembers_content (hall.imp fun _ _ hmn => ⟨hmn.1.1, hmn.2⟩))
        fun _ _ hinside => .ok (hinside.inGroup _)
    · exact .bind (token_content id parent _ hnode hvw) fun _ _ hdraft =>
        .ok ⟨.cons hdraft .nil, rfl⟩

theorem gather_content {t u : Tree} (h : t.SameContent u) :
    CarriesOver Found.SameContent (gather t) (gather u) := by
  refine h.induction
    (P := fun t u => CarriesOver Found.SameContent (gather t) (gather u))
    (fun _ _ => .error) (fun _ _ _ => .error) (fun _ _ _ _ _ => .error) ?_
  intro ms ns span span' hall
  have hnode : (Tree.mapping ms span).SameContent (.mapping ns span') :=
    Tree.sameContent_mapping (hall.imp fun _ _ hmn => hmn.1)
  rw [gather, gather]
  refine .bind (placeless_givenType _ _ hnode) fun type _ htype => ?_
  subst htype
  exact gatherMembers_content (hall.imp fun _ _ hmn => ⟨hmn.1.1, gatherChild_content hmn.1.2⟩)

/-- In documents with distinct keys and the same content the same tokens and groups are found. -/
theorem inDocument_content {t u : Tree} (ht : t.WellKeyed) (h : t.SameContent u) :
    CarriesOver Found.SameContent (inDocument t) (inDocument u) := by
  rw [inDocument_eq_gather (parted_of_wellKeyed ht),
    inDocument_eq_gather (parted_of_wellKeyed (h.wellKeyed ht))]
  exact gather_content h

end Discovery

/-! ## Types -/

namespace Inference

variable {drafts others : List Draft}

theorem next?_content (h : List.Forall₂ Draft.SameContent drafts others) {d e : Draft}
    (hde : d.SameContent e) :
    Option.Rel Draft.SameContent (next? drafts d) (next? others e) := by
  rw [next?, next?, hde.value.text?_eq]
  cases e.value.text?.bind Reference.parse? with
  | none => exact .none
  | some r => exact rel_find? h fun _ _ hde => by rw [hde.id_eq]

/-- The same types are inferred wherever the nodes are. -/
theorem infer_content (hids : (drafts.map Draft.id).Nodup)
    (h : List.Forall₂ Draft.SameContent drafts others) {found : List Draft}
    (hfound : infer drafts = (found, none)) :
    ∃ found', infer others = (found', none) ∧
      List.Forall₂ Draft.SameContent found found' := by
  have hlead {n : Nat} {d e : Draft} {type : TokenType} (hlead : LeadsTo drafts n d type)
      (hde : d.SameContent e) : LeadsTo others n e type :=
    hlead.transfer (fun _ _ => Draft.SameContent.type_eq) (fun _ _ => next?_content h) hde
  have hids' : (others.map Draft.id).Nodup := by
    rwa [← forall₂_map_eq.mp (h.imp fun _ _ hde => hde.id_eq)]
  obtain ⟨found', hfound'⟩ : ∃ found', infer others = (found', none) := by
    refine (infer_eq_none_iff hids').mpr fun e he => ?_
    obtain ⟨d, hd, hde⟩ := exists_left h he
    obtain ⟨n, type, hd⟩ := (infer_eq_none_iff hids).mp ⟨found, hfound⟩ d hd
    exact ⟨n, type, hlead hd hde⟩
  refine ⟨found', hfound',
    forall₂_square h (infer_leadsTo hids hfound) (infer_leadsTo hids' hfound') ?_⟩
  rintro d - e _ _ hde ⟨n, type, rfl, hd⟩ ⟨m, type', rfl, he⟩
  obtain ⟨-, rfl⟩ := (hlead hd hde).unique he
  exact { hde with type_eq := rfl }

end Inference

end DesignTokens
