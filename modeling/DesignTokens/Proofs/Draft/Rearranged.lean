import DesignTokens.Proofs.Draft.Discovery
import DesignTokens.Proofs.Draft.Following
import DesignTokens.Proofs.Tree.Rearranged

/-!
# Finding tokens in another order

In trees that differ in the order of members the same tokens and the same groups are found
(`inDocument_rearranged`), and references give the tokens the same types (`infer_rearranged`).
-/

namespace DesignTokens

open Outcome

/-- Drafts of the same token, from trees that differ in the order of members. -/
structure Draft.Rearranged (d e : Draft) : Prop where
  id_eq : d.id = e.id
  type_eq : d.type = e.type
  node : d.node.Rearranged e.node
  value : d.value.Rearranged e.value
  modes : Matched (Keyed Tree.Rearranged) d.modes e.modes
  description_eq : d.description = e.description
  extensions : Matched (Keyed Data.Rearranged) d.extensions e.extensions
  group_eq : d.group = e.group

/-- Groups that are the same up to the order of their tokens and inside their extensions. -/
structure Group.Rearranged (g h : Group) : Prop where
  id_eq : g.id = h.id
  type_eq : g.type = h.type
  description_eq : g.description = h.description
  extensions : Matched (Keyed Data.Rearranged) g.extensions h.extensions
  members : g.members.Perm h.members

/-! ## Failing -/

namespace Grammar

variable {α : Type} {t u : Tree}

theorem fail_rearranged (h : t.Rearranged u) (problem : Problem) :
    (fail problem t : Except Failure α) = fail problem u := by
  rw [fail, fail, Issue.ofNode, Issue.ofNode, h.span_eq, h.kind_eq]

theorem failKind_rearranged (h : t.Rearranged u) (what : Expectation) :
    (failKind what t : Except Failure α) = failKind what u := by
  rw [failKind, failKind, h.kind_eq, fail_rearranged h]

/-- A node that has to be a reference is the same one in every order. -/
theorem hole?_rearranged (h : t.Rearranged u) (accepted : Option (List TokenType))
    (spliced : Bool) : hole? accepted spliced t = hole? accepted spliced u := by
  simp only [hole?, h.text?_eq, h.span_eq, fail_rearranged h]

end Grammar

namespace Discovery

/-! ## What stands beside a value -/

section

variable {t u : Tree}

theorem givenType_rearranged (h : t.Rearranged u) : givenType t = givenType u := by
  unfold givenType
  obtain ⟨ht, hu⟩ | ⟨v, w, ht, hu, hvw⟩ := rel_iff.mp (h.get? "$type") <;> rw [ht, hu]
  simp only [hvw.text?_eq, Grammar.failKind_rearranged hvw, Grammar.fail_rearranged hvw]

theorem description_rearranged (h : t.Rearranged u) : description t = description u := by
  unfold description
  obtain ⟨ht, hu⟩ | ⟨v, w, ht, hu, hvw⟩ := rel_iff.mp (h.get? "$description") <;> rw [ht, hu]
  simp only [hvw.text?_eq, Grammar.failKind_rearranged hvw]

/-- Extensions with distinct names that match. -/
structure Extended (ms ns : List (Key × Tree)) : Prop where
  matched : Matched (Keyed Tree.Rearranged) ms ns
  nodup : (ms.map (·.1.name)).Nodup

theorem extensions_rearranged (h : t.Rearranged u) :
    CarriesOver Extended (extensions t) (extensions u) := by
  unfold extensions
  obtain ⟨ht, hu⟩ | ⟨v, w, ht, hu, hvw⟩ := rel_iff.mp (h.get? "$extensions") <;> rw [ht, hu]
  · exact .ok ⟨.nil, .nil⟩
  · obtain ⟨hv, hw⟩ | ⟨ms, ns, hv, hw, hms⟩ := rel_iff.mp hvw.members? <;> simp only [hv, hw]
    · exact .error
    · have hmembers : v.members = ms := by simp [Tree.members, hv]
      exact .ok ⟨hms, hmembers ▸ hvw.wellKeyed.nodup⟩

/-- The modes of matching extensions match. -/
theorem modes_rearranged {ms ns : List (Key × Tree)} (h : Extended ms ns) :
    CarriesOver (Matched (Keyed Tree.Rearranged)) (modes ms) (modes ns) := by
  unfold modes
  have hfind := h.matched.find? (fun _ _ => Tree.key_name_eq) h.nodup modeField
  obtain ⟨hm, hn⟩ | ⟨⟨_, v⟩, ⟨_, w⟩, hm, hn, key, hvw⟩ := rel_iff.mp hfind <;> rw [hm, hn]
  · exact .ok .nil
  · obtain ⟨hv, hw⟩ | ⟨vs, ws, hv, hw, hall⟩ := rel_iff.mp hvw.members? <;> simp only [hv, hw]
    · exact .error
    · refine hall.mapM fun _ _ _ hpq => ?_
      -- the name that is refused is refused in every order
      obtain ⟨key, hvw⟩ := hpq
      dsimp only
      split
      · exact .error
      · exact .ok (.intro key.name hvw)

/-! ## Tokens -/

theorem token_rearranged (id : String) (group : Option String) (type : Option TokenType)
    {v w : Tree} (h : t.Rearranged u) (hvw : v.Rearranged w) :
    CarriesOver Draft.Rearranged (token id group type t v) (token id group type u w) := by
  intro d hd
  obtain ⟨huntyped, ms, hms, modes, hmodes, text, htext, rfl⟩ := token_eq_ok.mp hd
  obtain ⟨ns, hns, hextended⟩ := extensions_rearranged h ms hms
  obtain ⟨others, hothers, hmatched⟩ := modes_rearranged hextended modes hmodes
  refine ⟨_, token_eq_ok.mpr ⟨?_, ns, hns, others, hothers, text, ?_, rfl⟩, ?_⟩
  · rwa [← Grammar.hole?_rearranged hvw]
  · rwa [← description_rearranged h]
  · have hdata := Tree.matched_dataMembers (fun _ _ => Tree.Rearranged.data) hextended.matched
    refine ⟨rfl, rfl, h, hvw, hmatched, rfl, hdata.filter fun p q hpq => ?_, rfl⟩
    rw [(keyed_iff.mp hpq).1]

end

/-! ## Groups -/

/-- What was found in trees that differ in the order of members. -/
structure Found.Rearranged (a b : Found) : Prop where
  drafts : Matched Draft.Rearranged a.drafts b.drafts
  groups : Matched Group.Rearranged a.groups b.groups

/-- What was found in several places, one after the other. -/
def Found.concat (parts : List Found) : Found :=
  ⟨parts.flatMap Found.drafts, parts.flatMap Found.groups⟩

theorem Found.concat_rearranged {as bs : List Found} (h : Matched Found.Rearranged as bs) :
    (Found.concat as).Rearranged (Found.concat bs) :=
  ⟨h.flatMap fun _ _ hab => hab.drafts, h.flatMap fun _ _ hab => hab.groups⟩

theorem Found.Rearranged.inGroup {a b : Found} {g h : Group} (hab : a.Rearranged b)
    (hgh : g.Rearranged h) : (a.inGroup g).Rearranged (b.inGroup h) := by
  rw [Found.inGroup, Found.inGroup, isEmpty_eq_of_length_eq hab.drafts.length_eq]
  split
  · exact hab
  · refine ⟨hab.drafts, .cons ?_ hab.groups⟩
    -- the tokens right below the group are the same, in another order
    have hbelow := hab.drafts.filter (p := fun d => d.group = some g.id)
      (q := fun d => d.group = some h.id) fun d e hde => by rw [hde.group_eq, hgh.id_eq]
    exact ⟨hgh.id_eq, hgh.type_eq, hgh.description_eq, hgh.extensions,
      hbelow.map_perm fun _ _ hde => hde.id_eq⟩

/-- What is found in a single member of a group. -/
def gatherMember (parent : Option String) (inherited : Option TokenType) (m : Key × Tree) :
    Except Failure Found :=
  if isReserved m.1.name then .ok .empty
  else if !isName m.1.name then .error (.issue (.ofKey (.invalidName m.1.name) m.1))
  else gatherChild parent (Path.below parent m.1.name) inherited m.2

theorem gatherMembers_cons (parent : Option String) (inherited : Option TokenType) (m : Key × Tree)
    (ms : List (Key × Tree)) :
    gatherMembers parent inherited (m :: ms) = (do
      let first ← gatherMember parent inherited m
      return first.append (← gatherMembers parent inherited ms)) := by
  obtain ⟨key, child⟩ := m
  rw [gatherMembers, gatherMember]
  dsimp only
  split
  · -- a reserved member adds nothing
    cases gatherMembers parent inherited ms <;> rfl
  · split <;> rfl

/-- What is found in members is what is found in each of them. -/
theorem gatherMembers_eq (parent : Option String) (inherited : Option TokenType)
    (ms : List (Key × Tree)) :
    gatherMembers parent inherited ms = Found.concat <$> ms.mapM (gatherMember parent inherited) := by
  induction ms with
  | nil => rfl
  | cons m ms ih =>
    rw [gatherMembers_cons, List.mapM_cons, ih]
    cases gatherMember parent inherited m with
    | error e => rfl
    | ok first => cases ms.mapM (gatherMember parent inherited) <;> rfl

/-- What is found in matching members is the same in another order, when it is so for each of
them. -/
theorem gatherMembers_rearranged {R : Tree → Tree → Prop} {inherited : Option TokenType}
    {parent : Option String}
    (hchild : ∀ t u, R t u → ∀ parent id inherited,
      CarriesOver Found.Rearranged (gatherChild parent id inherited t) (gatherChild parent id inherited u))
    {ms ns : List (Key × Tree)} (h : Matched (Keyed R) ms ns) :
    CarriesOver Found.Rearranged (gatherMembers parent inherited ms)
      (gatherMembers parent inherited ns) := by
  rw [gatherMembers_eq, gatherMembers_eq, map_eq_pure_bind, map_eq_pure_bind]
  refine .bind (h.mapM fun _ _ _ hmn => ?_) fun _ _ hparts => .ok (Found.concat_rearranged hparts)
  obtain ⟨key, htu⟩ := hmn
  unfold gatherMember
  split
  · exact .ok ⟨.nil, .nil⟩
  · split
    · exact .error
    · exact hchild _ _ htu _ _ _

/-- What is found at a node is found in another order when members are in another order. -/
theorem gatherChild_rearranged {t u : Tree} (h : t.Rearranged u) :
    ∀ parent id inherited, CarriesOver Found.Rearranged (gatherChild parent id inherited t)
      (gatherChild parent id inherited u) := by
  refine h.induction (P := fun t u => ∀ parent id inherited, CarriesOver Found.Rearranged
    (gatherChild parent id inherited t) (gatherChild parent id inherited u)) ?_ ?_ ?_ ?_
  · exact fun _ _ _ _ => .error
  · exact fun _ _ _ _ _ => .error
  · exact fun _ _ _ _ _ _ _ => .error
  · intro ms ns span hnodup hall parent id inherited
    have hmatched : Matched (Keyed Tree.Rearranged) ms ns :=
      hall.imp fun _ _ _ hmn => hmn.imp fun _ _ htu => htu.1
    have hnode : (Tree.mapping ms span).Rearranged (.mapping ns span) :=
      .of_matched span hnodup hmatched
    rw [gatherChild, gatherChild]
    dsimp only
    rw [givenType_rearranged hnode]
    refine .same_bind fun given => ?_
    obtain ⟨ht, hu⟩ | ⟨v, w, ht, hu, hvw⟩ := rel_iff.mp (hnode.get? valueField) <;>
      simp only [ht, hu]
    · -- without a value the node is a group, and its members match
      rw [description_rearranged hnode]
      refine .same_bind fun text => ?_
      refine .bind (extensions_rearranged hnode) fun es fs hextended => ?_
      have hdata := Tree.matched_dataMembers (fun _ _ => Tree.Rearranged.data) hextended.matched
      refine .bind (gatherMembers_rearranged (fun _ _ htu => htu.2) hall) fun _ _ hinside => ?_
      exact .ok (hinside.inGroup ⟨rfl, rfl, rfl, hdata, .refl []⟩)
    · refine .bind (token_rearranged id parent _ hnode hvw) fun _ _ hdraft => ?_
      exact .ok ⟨.cons hdraft .nil, .nil⟩

theorem gather_rearranged {t u : Tree} (h : t.Rearranged u) :
    CarriesOver Found.Rearranged (gather t) (gather u) := by
  have htype := givenType_rearranged h
  cases h with
  | mapping span _ hall hperm =>
    rw [gather, gather, htype]
    refine .same_bind fun type => ?_
    exact gatherMembers_rearranged (fun _ _ => gatherChild_rearranged) ⟨_, hall, hperm⟩
  | _ => exact .error

/-- In documents that differ in the order of members the same tokens and groups are found. -/
theorem inDocument_rearranged {t u : Tree} (h : t.Rearranged u) :
    CarriesOver Found.Rearranged (inDocument t) (inDocument u) := by
  rw [inDocument_eq_gather (parted_of_wellKeyed h.wellKeyed),
    inDocument_eq_gather (parted_of_wellKeyed h.symm.wellKeyed)]
  exact gather_rearranged h

end Discovery

/-! ## Types -/

namespace Inference

variable {drafts others : List Draft}

theorem next?_rearranged (hids : (drafts.map Draft.id).Nodup)
    (h : Matched Draft.Rearranged drafts others) {d e : Draft} (hde : d.Rearranged e) :
    Option.Rel Draft.Rearranged (next? drafts d) (next? others e) := by
  rw [next?, next?, hde.value.text?_eq]
  cases e.value.text?.bind Reference.parse? with
  | none => exact .none
  | some r => exact h.find? (fun _ _ hde => hde.id_eq) hids r.target

/-- A draft leads to the same type in every order. -/
theorem LeadsTo.rearranged (hids : (drafts.map Draft.id).Nodup)
    (h : Matched Draft.Rearranged drafts others) {n : Nat} {d : Draft} {type : TokenType}
    (hlead : LeadsTo drafts n d type) {e : Draft} (hde : d.Rearranged e) :
    LeadsTo others n e type :=
  hlead.transfer (fun _ _ => Draft.Rearranged.type_eq) (fun _ _ => next?_rearranged hids h) hde

/-- Types are inferred in every order, and they are the same. -/
theorem infer_rearranged (hids : (drafts.map Draft.id).Nodup)
    (h : Matched Draft.Rearranged drafts others) {found : List Draft}
    (hfound : infer drafts = (found, none)) :
    ∃ found', infer others = (found', none) ∧ Matched Draft.Rearranged found found' := by
  have hids' : (others.map Draft.id).Nodup := (h.nodup fun _ _ hde => hde.id_eq).mp hids
  obtain ⟨found', hfound'⟩ : ∃ found', infer others = (found', none) := by
    refine (infer_eq_none_iff hids').mpr fun e he => ?_
    obtain ⟨d, hd, hde⟩ := h.exists_left he
    obtain ⟨n, type, hlead⟩ := (infer_eq_none_iff hids).mp ⟨found, hfound⟩ d hd
    exact ⟨n, type, hlead.rearranged hids h hde⟩
  refine ⟨found', hfound', h.forall₂ (infer_leadsTo hids hfound) (infer_leadsTo hids' hfound') ?_⟩
  rintro d - e _ _ hde ⟨n, type, rfl, hlead⟩ ⟨m, type', rfl, hlead'⟩
  obtain ⟨-, rfl⟩ := (hlead.rearranged hids h hde).unique hlead'
  exact { hde with type_eq := rfl }

end Inference

end DesignTokens
