import DesignTokens.Dependency
import DesignTokens.Proofs.Draft.Following
import DesignTokens.Proofs.Draft.Positions
import DesignTokens.Proofs.Draft.Rearranged
import DesignTokens.Proofs.Tree.Differing

/-!
# Tokens of documents that differ in one slot

Two documents differ in one slot when only the value of one mode of one token differs.  Then the same
tokens and groups are found in both of them, and all drafts agree but for that value
(`inDocument_differing`).  Types are taken over from references, so they are the same as well, as
long as the token itself has the same type in both (`infer_differing`).
-/

namespace DesignTokens

open Outcome

/-! ## Slots of documents -/

namespace Path

/-- The path of what a list of names leads to from a group, or from the top of a document. -/
def under (parent : Option String) : List String → Option String
  | [] => parent
  | name :: names => under (some (below parent name)) names

end Path

open Discovery

/-- Trees that differ only inside the value of a mode of the token that a list of names leads to. -/
inductive Tree.DifferInSlot (mode : String) : List String → Tree → Tree → Prop where
  /-- The trees are nodes of the token. -/
  | token {t u : Tree} : t.has valueField = true → t.AgreesBut (valuePath mode) u →
      DifferInSlot mode [] t u
  /-- The trees are groups, or the whole document, and differ inside one member. -/
  | member {names : List String} (before after : List (Key × Tree)) (k : Key) (span : Span)
      {t u : Tree} : isReserved k.name = false → DifferInSlot mode names t u →
      DifferInSlot mode (k.name :: names) (.mapping (before ++ (k, t) :: after) span)
        (.mapping (before ++ (k, u) :: after) span)

theorem Tree.DifferInSlot.agrees {mode : String} {names : List String} {t u : Tree}
    (h : t.DifferInSlot mode names u) : t.AgreesBut (names ++ valuePath mode) u := by
  induction h with
  | token _ h => exact h
  | member before after k span _ _ ih => exact .member before after k span ih

/-- The same name; under the names that a condition holds of, the same as well. -/
def SameAt {α : Type} (P : String → Prop) (m n : String × α) : Prop :=
  m.1 = n.1 ∧ (P m.1 → m.2 = n.2)

theorem SameAt.refl {α : Type} (P : String → Prop) (m : String × α) : SameAt P m m :=
  ⟨rfl, fun _ => rfl⟩

theorem SameAt.symm {α : Type} {P : String → Prop} {m n : String × α} (h : SameAt P m n) :
    SameAt P n m :=
  ⟨h.1.symm, fun hn => (h.2 (h.1 ▸ hn)).symm⟩

/-- Drafts of the same token that agree but for the value of one slot. -/
structure Draft.AgreesBut (slot : Slot) (d e : Draft) : Prop where
  id_eq : d.id = e.id
  type_eq : d.type = e.type
  span_eq : d.node.span = e.node.span
  value : ⟨d.id, defaultMode⟩ ≠ slot → d.value = e.value
  modes : List.Forall₂ (SameAt fun mode => ⟨d.id, mode⟩ ≠ slot) d.modes e.modes
  description_eq : d.description = e.description
  extensions_eq : d.extensions = e.extensions
  group_eq : d.group = e.group

theorem Draft.AgreesBut.refl (slot : Slot) (d : Draft) : d.AgreesBut slot d :=
  ⟨rfl, rfl, rfl, fun _ => rfl, List.forall₂_same.mpr fun m _ => .refl _ m, rfl, rfl, rfl⟩

namespace Discovery

variable {slot : Slot} {t u : Tree}

/-! ## Tokens -/

theorem givenType_congr (h : t.get? "$type" = u.get? "$type") : givenType t = givenType u := by
  rw [givenType, givenType, h]

theorem description_congr (h : t.get? "$description" = u.get? "$description") :
    description t = description u := by
  rw [description, description, h]

theorem extensions_congr (h : t.get? "$extensions" = u.get? "$extensions") :
    extensions t = extensions u := by
  rw [extensions, extensions, h]

/-- Extensions that agree but for a mode are the same without the modes. -/
theorem erase_modes {path : List String} {ms ns : List (Key × Tree)}
    (h : List.Forall₂ (Tree.MemberAgrees modeField path) ms ns) :
    Members.erase modeField (Tree.dataMembers ms) =
      Members.erase modeField (Tree.dataMembers ns) := by
  rw [Tree.dataMembers_eq_map, Tree.dataMembers_eq_map]
  induction h with
  | nil => rfl
  | @cons m n ms ns hmn _ ih =>
    obtain ⟨hkey, hvalue⟩ := hmn
    simp only [Members.erase, List.map_cons, List.filter_cons, ← hkey] at ih ⊢
    rw [ih]
    split
    · rename_i hne
      -- only the member with the modes differs
      rw [hvalue.resolve_right fun h => by simp [h.1] at hne]
    · rfl

/-- Modes that agree but for one of them are the same under every other name. -/
theorem modes_agree {mode : String} {ms ns : List (Key × Tree)}
    (h : List.Forall₂ (Tree.MemberAgrees modeField [mode]) ms ns) :
    Agreeing (List.Forall₂ (SameAt (· ≠ mode))) (modes ms) (modes ns) := by
  unfold modes
  have hfind : Option.Rel (Tree.MemberAgrees modeField [mode])
      (ms.find? (·.1.name = modeField)) (ns.find? (·.1.name = modeField)) :=
    rel_find? h fun _ _ hmn => by rw [hmn.1]
  obtain ⟨hm, hn⟩ | ⟨⟨k, v⟩, ⟨l, w⟩, hm, hn, -, hvw⟩ := rel_iff.mp hfind <;> rw [hm, hn]
  · exact .ok .nil
  · have hagrees : v.AgreesBut [mode] w := hvw.elim (fun h : v = w => h ▸ .same v) fun h => h.2
    obtain ⟨hv, hw⟩ | ⟨vs, ws, hv, hw, hall⟩ := rel_iff.mp hagrees.members? <;>
      simp only [hv, hw]
    · exact .error_left
    · refine .mapM hall fun p q hpq => ?_
      obtain ⟨hkey, hvalue⟩ := hpq
      rw [← hkey]
      split
      · exact .error_left
      · exact .ok ⟨rfl, fun hne => hvalue.resolve_right fun h => hne h.1⟩

/-- What the extensions of a token say of its modes, and what they say besides. -/
theorem token_agrees {id : String} {group : Option String} {type : Option TokenType} {v w : Tree}
    (hspan : t.span = u.span) (hdescription : t.get? "$description" = u.get? "$description")
    (hvalue : ⟨id, defaultMode⟩ ≠ slot → v = w)
    (hextensions : Agreeing (fun ms ns => Members.erase modeField (Tree.dataMembers ms) =
        Members.erase modeField (Tree.dataMembers ns) ∧
      Agreeing (List.Forall₂ (SameAt fun mode => ⟨id, mode⟩ ≠ slot)) (modes ms) (modes ns))
      (extensions t) (extensions u)) :
    Agreeing (Draft.AgreesBut slot) (token id group type t v) (token id group type u w) := by
  intro d e hd he
  obtain ⟨-, ms, hms, modes, hmodes, text, htext, rfl⟩ := token_eq_ok.mp hd
  obtain ⟨-, ns, hns, others, hothers, text', htext', rfl⟩ := token_eq_ok.mp he
  obtain ⟨herase, hall⟩ := hextensions ms ns hms hns
  rw [description_congr hdescription, htext'] at htext
  exact ⟨rfl, rfl, hspan, hvalue, hall _ _ hmodes hothers, (Except.ok.inj htext).symm, herase, rfl⟩

/-- The nodes of a token that differ in the value of a mode give drafts that do. -/
theorem token_differing {mode : String} (h : t.AgreesBut (valuePath mode) u) {v w : Tree}
    (hv : t.get? valueField = some v) (hw : u.get? valueField = some w) (id : String)
    (group : Option String) (type : Option TokenType) :
    Agreeing (Draft.AgreesBut ⟨id, mode⟩) (token id group type t v)
      (token id group type u w) := by
  unfold valuePath at h
  split at h
  · -- the value itself differs, and everything beside it is the same
    rename_i hmode
    refine token_agrees h.span_eq (h.get?_of_ne (by decide)) (fun hne => absurd (by rw [hmode]) hne)
      ?_
    rw [extensions_congr (h.get?_of_ne (by decide))]
    refine .refl (fun ms => ⟨rfl, .refl (fun ns => ?_) _⟩) _
    exact List.forall₂_same.mpr fun m _ => .refl _ m
  · rename_i hmode
    have hvalue : t.get? valueField = u.get? valueField := h.get?_of_ne (by decide)
    refine token_agrees h.span_eq (h.get?_of_ne (by decide)) (fun _ => ?_) ?_
    · exact Option.some.inj (hv.symm.trans (hvalue.trans hw))
    · unfold extensions
      obtain ⟨ht, hu⟩ | ⟨a, b, ht, hu, hab⟩ := rel_iff.mp h.get? <;> rw [ht, hu]
      · exact .ok ⟨rfl, .refl (fun ns => List.forall₂_same.mpr fun m _ => .refl _ m) _⟩
      · obtain ⟨ha, hb⟩ | ⟨ms, ns, ha, hb, hall⟩ := rel_iff.mp hab.members? <;> simp only [ha, hb]
        · exact .error_left
        · refine .ok ⟨erase_modes hall, fun as bs has hbs => ?_⟩
          refine (modes_agree hall as bs has hbs).imp fun m n hmn => ⟨hmn.1, fun hne => ?_⟩
          exact hmn.2 fun heq => hne (by rw [heq])

/-! ## Groups -/

/-- What was found in documents that differ in one slot. -/
structure Found.AgreesBut (slot : Slot) (a b : Found) : Prop where
  drafts : List.Forall₂ (Draft.AgreesBut slot) a.drafts b.drafts
  groups_eq : a.groups = b.groups

theorem Found.AgreesBut.refl (slot : Slot) (a : Found) : a.AgreesBut slot a :=
  ⟨List.forall₂_same.mpr fun d _ => .refl slot d, rfl⟩

theorem Found.AgreesBut.concat {as bs : List Found}
    (h : List.Forall₂ (Found.AgreesBut slot) as bs) :
    (Found.concat as).AgreesBut slot (Found.concat bs) := by
  induction h with
  | nil => exact .refl slot _
  | cons hab _ ih =>
    refine ⟨List.rel_append hab.drafts ih.drafts, ?_⟩
    have hrest := ih.groups_eq
    simp only [Found.concat, List.flatMap_cons] at hrest ⊢
    rw [hab.groups_eq, hrest]

/-- The tokens right below a group have the same paths. -/
theorem members_agree {ds es : List Draft} (h : List.Forall₂ (Draft.AgreesBut slot) ds es)
    (g : Group) :
    (ds.filter fun d => d.group = some g.id).map Draft.id =
      (es.filter fun d => d.group = some g.id).map Draft.id := by
  induction h with
  | nil => rfl
  | cons hde _ ih =>
    rw [List.filter_cons, List.filter_cons, hde.group_eq]
    split
    · rw [List.map_cons, List.map_cons, ih, hde.id_eq]
    · exact ih

theorem Found.AgreesBut.inGroup {a b : Found} (h : a.AgreesBut slot b) (g : Group) :
    (a.inGroup g).AgreesBut slot (b.inGroup g) := by
  rw [Found.inGroup, Found.inGroup, isEmpty_eq_of_length_eq h.drafts.length_eq]
  split
  · exact h
  · refine ⟨h.drafts, ?_⟩
    rw [members_agree h.drafts, h.groups_eq]

/-- What is found in members of which one differs agrees when what is found in that one does. -/
theorem gatherMembers_differing {k : Key} {parent : Option String} {inherited : Option TokenType}
    (h : Agreeing (Found.AgreesBut slot) (gatherChild parent (Path.below parent k.name) inherited t)
      (gatherChild parent (Path.below parent k.name) inherited u))
    (before after : List (Key × Tree)) :
    Agreeing (Found.AgreesBut slot) (gatherMembers parent inherited (before ++ (k, t) :: after))
      (gatherMembers parent inherited (before ++ (k, u) :: after)) := by
  rw [gatherMembers_eq, gatherMembers_eq, map_eq_pure_bind, map_eq_pure_bind]
  have hsame : ∀ ms, List.Forall₂ (fun m n => Agreeing (Found.AgreesBut slot)
      (gatherMember parent inherited m) (gatherMember parent inherited n)) ms ms := fun ms =>
    List.forall₂_same.mpr fun m _ => .refl (Found.AgreesBut.refl slot) _
  have hmember : Agreeing (Found.AgreesBut slot) (gatherMember parent inherited (k, t))
      (gatherMember parent inherited (k, u)) := by
    unfold gatherMember
    split
    · exact .refl (Found.AgreesBut.refl slot) _
    · split
      · exact .error_left
      · exact h
  exact .bind (.mapM (List.rel_append (hsame before) (.cons hmember (hsame after))) fun _ _ => id)
    fun _ _ hparts => .ok (.concat hparts)

/-- At nodes that differ in one slot the same tokens and groups are found. -/
theorem gatherChild_differing {mode : String} {names : List String}
    (h : t.DifferInSlot mode names u) {parent : Option String} {id target : String}
    (htarget : Path.under (some id) names = some target) (inherited : Option TokenType) :
    Agreeing (Found.AgreesBut ⟨target, mode⟩) (gatherChild parent id inherited t)
      (gatherChild parent id inherited u) := by
  induction h generalizing parent id inherited with
  | @token t u hhas h =>
    obtain rfl := Option.some.inj htarget
    obtain ⟨name, path, hpath, htype⟩ : ∃ name path, valuePath mode = name :: path ∧
        "$type" ≠ name := by
      unfold valuePath
      split
      · exact ⟨_, _, rfl, by decide⟩
      · exact ⟨_, _, rfl, by decide⟩
    have hagrees := hpath ▸ h
    cases t with
    | mapping ms span =>
      cases u with
      | mapping ns span' =>
        rw [gatherChild, gatherChild]
        dsimp only
        rw [givenType_congr (hagrees.get?_of_ne htype)]
        refine .same_bind fun given => ?_
        -- a node with a value is a token in both documents
        obtain ⟨ht, -⟩ | ⟨v, w, ht, hu, -⟩ := rel_iff.mp (hagrees.rel_get? valueField)
        · simp only [Tree.get?, Option.map_eq_none_iff] at ht
          simp [Tree.has, ht] at hhas
        · simp only [ht, hu]
          exact .bind (token_differing h ht hu id parent _) fun _ _ hde =>
            .ok ⟨.cons hde .nil, rfl⟩
      | _ => exact .error_right
    | _ => exact .error_left
  | @member names before after k span t u hreserved h ih =>
    have hagrees := (Tree.DifferInSlot.member before after k span hreserved h).agrees
    have hget : ∀ name, isReserved name = true →
        Tree.get? name (.mapping (before ++ (k, t) :: after) span) =
          Tree.get? name (.mapping (before ++ (k, u) :: after) span) := by
      intro name hname
      refine hagrees.get?_of_ne ?_
      rintro rfl
      simp [hname] at hreserved
    rw [gatherChild, gatherChild]
    dsimp only
    rw [givenType_congr (hget _ (by decide)), hget valueField (by decide),
      description_congr (hget _ (by decide)), extensions_congr (hget _ (by decide))]
    refine .same_bind fun given => ?_
    split
    · -- nothing below a token is looked at, so its members make no difference
      refine .bind (token_agrees rfl (hget _ (by decide)) (fun _ => rfl) ?_) fun _ _ hde =>
        .ok ⟨.cons hde .nil, rfl⟩
      rw [extensions_congr (hget _ (by decide))]
      refine .refl (fun ms => ⟨rfl, .refl (fun ns => ?_) _⟩) _
      exact List.forall₂_same.mpr fun m _ => .refl _ m
    · refine .same_bind fun text => .same_bind fun es => ?_
      refine .bind (gatherMembers_differing (ih htarget _) before after) fun _ _ hinside => ?_
      exact .ok (hinside.inGroup _)

theorem gather_differing {mode target : String} {names : List String}
    (h : t.DifferInSlot mode names u) (htarget : Path.under none names = some target) :
    Agreeing (Found.AgreesBut ⟨target, mode⟩) (gather t) (gather u) := by
  cases h with
  | token => simp [Path.under] at htarget
  | @member names before after k span t u hreserved h =>
    have hagrees := (Tree.DifferInSlot.member before after k span hreserved h).agrees
    have htype : "$type" ≠ k.name := by
      rintro heq
      rw [← heq] at hreserved
      exact absurd hreserved (by decide)
    rw [gather, gather, givenType_congr (hagrees.get?_of_ne htype)]
    exact .same_bind fun type =>
      gatherMembers_differing (gatherChild_differing h htarget type) before after

/-- In documents with distinct keys that differ in one slot the same tokens and groups are found,
and their drafts agree but for the value of the slot. -/
theorem inDocument_differing (ht : t.WellKeyed) (hu : u.WellKeyed) {mode target : String}
    {names : List String} (h : t.DifferInSlot mode names u)
    (htarget : Path.under none names = some target) :
    Agreeing (Found.AgreesBut ⟨target, mode⟩) (inDocument t) (inDocument u) := by
  rw [inDocument_eq_gather (parted_of_wellKeyed ht), inDocument_eq_gather (parted_of_wellKeyed hu)]
  exact gather_differing h htarget

end Discovery

/-! ## Types -/

namespace Inference

variable {slot : Slot} {drafts others : List Draft}

theorem ids_agree (h : List.Forall₂ (Draft.AgreesBut slot) drafts others) :
    drafts.map Draft.id = others.map Draft.id :=
  forall₂_map_eq.mp (h.imp fun _ _ hde => hde.id_eq)

/-- Drafts that agree but for one slot lead to the same type, when the token of the slot does. -/
theorem LeadsTo.agrees (hids : (drafts.map Draft.id).Nodup)
    (h : List.Forall₂ (Draft.AgreesBut slot) drafts others)
    (hslot : ∀ d ∈ drafts, ∀ e ∈ others, d.id = slot.token → e.id = slot.token →
      ∀ n m type type', LeadsTo drafts n d type → LeadsTo others m e type' → type = type')
    {n m : Nat} {d e : Draft} {type type' : TokenType} (hd : d ∈ drafts) (he : e ∈ others)
    (hde : d.AgreesBut slot e) (hlead : LeadsTo drafts n d type)
    (hlead' : LeadsTo others m e type') : type = type' := by
  have hids' : (others.map Draft.id).Nodup := ids_agree h ▸ hids
  induction hlead generalizing m e with
  | typed htype => exact (hlead'.unique (.typed (hde.type_eq ▸ htype))).2.symm
  | @next n d target type hnone hnext hlead ih =>
    by_cases htoken : d.id = slot.token
    · exact hslot d hd e he htoken (hde.id_eq ▸ htoken) _ _ _ _ (.next hnone hnext hlead) hlead'
    · cases hlead' with
      | typed htype => simp [hde.type_eq ▸ hnone] at htype
      | next _ hnext' hlead' =>
        -- both refer to the same path, where drafts stand that agree
        obtain ⟨r, hr, htarget, hid⟩ := (next?_eq_some_iff hids).mp hnext
        obtain ⟨r', hr', htarget', hid'⟩ := (next?_eq_some_iff hids').mp hnext'
        have hvalue : d.value = e.value := hde.value fun heq => htoken (by rw [← heq])
        obtain rfl : r = r' := by
          rw [← hvalue, hr] at hr'
          exact Option.some.inj hr'
        obtain ⟨other, hother, hagrees⟩ := exists_right h htarget
        obtain rfl := List.inj_on_of_nodup_map hids' hother htarget'
          (by rw [← hagrees.id_eq, hid, hid'])
        exact ih htarget hother hagrees hlead'

/-- Inference keeps the agreement of drafts, when it gives the token of the slot the same type in
both documents. -/
theorem infer_differing (hids : (drafts.map Draft.id).Nodup)
    (h : List.Forall₂ (Draft.AgreesBut slot) drafts others)
    (hslot : ∀ d ∈ drafts, ∀ e ∈ others, d.id = slot.token → e.id = slot.token →
      ∀ n m type type', LeadsTo drafts n d type → LeadsTo others m e type' → type = type')
    {found found' : List Draft} (hfound : infer drafts = (found, none))
    (hfound' : infer others = (found', none)) :
    List.Forall₂ (Draft.AgreesBut slot) found found' := by
  have hids' : (others.map Draft.id).Nodup := ids_agree h ▸ hids
  have hmem : List.Forall₂ (fun d e => e ∈ others ∧ d.AgreesBut slot e) drafts others :=
    List.Forall₂.flip (forall₂_imp h.flip fun e he d hde => ⟨he, hde⟩)
  -- the types that inference gives are those that the drafts lead to
  refine forall₂_square hmem (infer_leadsTo hids hfound) (infer_leadsTo hids' hfound') ?_
  rintro d hd e _ _ ⟨he, hde⟩ ⟨n, type, rfl, hlead⟩ ⟨m, type', rfl, hlead'⟩
  obtain rfl := LeadsTo.agrees hids h hslot hd he hde hlead hlead'
  exact { hde with type_eq := rfl }

end Inference

end DesignTokens
