import DesignTokens.Proofs.Matching
import DesignTokens.Proofs.Tree.OfData

/-!
# Trees in another order

Trees that differ in nothing but the order in which the members of their mappings stand.  Every node
and every key keeps its place, and the keys of each mapping are distinct.  What can be asked of one
of two such trees has the same answer for the other.
-/

namespace DesignTokens

namespace Tree

/-- Trees with distinct keys that differ only in the order of the members of their mappings. -/
inductive Rearranged : Tree → Tree → Prop where
  | null (span : Span) : Rearranged (.null span) (.null span)
  | scalar (value : Scalar) (span : Span) : Rearranged (.scalar value span) (.scalar value span)
  /-- Items keep their order. -/
  | sequence {items others : List Tree} (span : Span) : List.Forall₂ Rearranged items others →
      Rearranged (.sequence items span) (.sequence others span)
  /-- Members are in another order, each of them with its key. -/
  | mapping {members same others : List (Key × Tree)} (span : Span) :
      (members.map (·.1.name)).Nodup → List.Forall₂ (Keyed Rearranged) members same →
      same.Perm others → Rearranged (.mapping members span) (.mapping others span)

/-- What holds of nodes without parts, and of lists and mappings whenever it holds of their parts,
holds of all trees that differ in the order of members. -/
theorem Rearranged.induction {P : Tree → Tree → Prop} (null : ∀ span, P (.null span) (.null span))
    (scalar : ∀ value span, P (.scalar value span) (.scalar value span))
    (sequence : ∀ items others span,
      List.Forall₂ (fun t u => Rearranged t u ∧ P t u) items others →
      P (.sequence items span) (.sequence others span))
    (mapping : ∀ members others span, (members.map (·.1.name)).Nodup →
      Matched (Keyed fun t u => Rearranged t u ∧ P t u) members others →
      P (.mapping members span) (.mapping others span)) {t u : Tree} (h : t.Rearranged u) :
    P t u := by
  -- the recursor has motives for items, for members and for single members as well
  refine Rearranged.rec (motive_1 := fun t u _ => P t u)
    (motive_2 := fun ts us _ => List.Forall₂ (fun t u => Rearranged t u ∧ P t u) ts us)
    (motive_3 := fun ms ns _ => List.Forall₂ (Keyed fun t u => Rearranged t u ∧ P t u) ms ns)
    (motive_4 := fun m n _ => Keyed (fun t u => Rearranged t u ∧ P t u) m n)
    null scalar ?_ ?_ .nil ?_ .nil ?_ ?_ h
  · exact fun span _ hall => sequence _ _ span hall
  · exact fun span hnodup _ hperm hall => mapping _ _ span hnodup ⟨_, hall, hperm⟩
  · exact fun htu _ ht hts => .cons ⟨htu, ht⟩ hts
  · exact fun _ _ hm hms => .cons hm hms
  · exact fun key _ _ htu ht => .intro key ⟨htu, ht⟩

theorem Rearranged.of_matched {members others : List (Key × Tree)} (span : Span)
    (hnodup : (members.map (·.1.name)).Nodup) (h : Matched (Keyed Rearranged) members others) :
    Rearranged (.mapping members span) (.mapping others span) := by
  obtain ⟨same, hall, hperm⟩ := h
  exact .mapping span hnodup hall hperm

theorem key_name_eq {R : Tree → Tree → Prop} {m n : Key × Tree} (h : Keyed R m n) :
    m.1.name = n.1.name := by
  rw [(keyed_iff.mp h).1]

theorem Rearranged.symm {t u : Tree} (h : t.Rearranged u) : u.Rearranged t := by
  refine h.induction (P := fun t u => u.Rearranged t) .null .scalar ?_ ?_
  · intro items others span hall
    exact .sequence span (hall.flip.imp fun _ _ htu => htu.2)
  · intro members others span hnodup hall
    refine .of_matched span ((hall.nodup fun _ _ => key_name_eq).mp hnodup) ?_
    exact hall.symm.imp fun _ _ _ hmn => hmn.symm.imp fun _ _ htu => htu.2

theorem Rearranged.wellKeyed {t u : Tree} (h : t.Rearranged u) : t.WellKeyed := by
  refine h.induction (P := fun t _ => t.WellKeyed) .null .scalar ?_ ?_
  · intro items others span hall
    refine .sequence items span fun t ht => ?_
    obtain ⟨u, -, htu⟩ := Outcome.exists_right hall ht
    exact htu.2
  · intro members others span hnodup hall
    refine .mapping members span hnodup fun m hm => ?_
    obtain ⟨n, -, hmn⟩ := hall.exists_right hm
    exact (keyed_iff.mp hmn).2.2

/-- A tree with distinct keys can be left as it is. -/
theorem WellKeyed.rearranged {t : Tree} (h : t.WellKeyed) : t.Rearranged t := by
  induction h with
  | null span => exact .null span
  | scalar value span => exact .scalar value span
  | sequence items span _ ih => exact .sequence span (List.forall₂_same.mpr ih)
  | mapping members span hnodup _ ih =>
    refine .mapping span hnodup (List.forall₂_same.mpr fun m hm => ?_) (.refl members)
    exact .intro m.1 (ih m hm)

/-- The members of a mapping with distinct keys can be put in any order. -/
theorem WellKeyed.rearranged_of_perm {members others : List (Key × Tree)} {span : Span}
    (h : (Tree.mapping members span).WellKeyed) (hperm : members.Perm others) :
    (Tree.mapping members span).Rearranged (.mapping others span) := by
  cases h with
  | mapping _ _ hnodup hall =>
    refine .mapping span hnodup (List.forall₂_same.mpr fun m hm => ?_) hperm
    exact .intro m.1 (hall m hm).rearranged

/-! ## Questions about a node -/

namespace Rearranged

variable {t u : Tree}

theorem span_eq (h : t.Rearranged u) : t.span = u.span := by cases h <;> rfl

theorem kind_eq (h : t.Rearranged u) : t.kind = u.kind := by cases h <;> rfl

theorem text?_eq (h : t.Rearranged u) : t.text? = u.text? := by cases h <;> rfl

theorem number?_eq (h : t.Rearranged u) : t.number? = u.number? := by cases h <;> rfl

theorem bool?_eq (h : t.Rearranged u) : t.bool? = u.bool? := by cases h <;> rfl

theorem isMapping_eq (h : t.Rearranged u) : t.isMapping = u.isMapping := by cases h <;> rfl

/-- The items of a list stay in their order. -/
theorem items? (h : t.Rearranged u) :
    Option.Rel (List.Forall₂ Rearranged) t.items? u.items? := by
  cases h with
  | sequence span hall => exact .some hall
  | _ => exact .none

theorem members? (h : t.Rearranged u) :
    Option.Rel (Matched (Keyed Rearranged)) t.members? u.members? := by
  cases h with
  | mapping span _ hall hperm => exact .some ⟨_, hall, hperm⟩
  | _ => exact .none

theorem members (h : t.Rearranged u) : Matched (Keyed Rearranged) t.members u.members := by
  obtain ⟨ht, hu⟩ | ⟨ms, ns, ht, hu, hall⟩ := rel_iff.mp h.members?
  · rw [Tree.members, Tree.members, ht, hu]
    exact .nil
  · rw [Tree.members, Tree.members, ht, hu]
    exact hall

/-- A member is found in both orders. -/
theorem get? (h : t.Rearranged u) (name : String) :
    Option.Rel Rearranged (t.get? name) (u.get? name) := by
  have hfind := h.members.find? (fun _ _ => key_name_eq) h.wellKeyed.nodup name
  exact rel_map hfind fun _ _ hmn => (keyed_iff.mp hmn).2

theorem has_eq (h : t.Rearranged u) (name : String) : t.has name = u.has name := by
  have hiff : ∀ v : Tree, v.has name = (v.get? name).isSome := by
    intro v
    rw [Tree.get?, Option.isSome_map]
    rfl
  obtain ⟨ht, hu⟩ | ⟨v, w, ht, hu, -⟩ := rel_iff.mp (h.get? name) <;> rw [hiff, hiff, ht, hu]
  rfl

end Rearranged

end Tree

/-! ## Data -/

namespace Data

/-- Data that differs only in the order of the members of its objects. -/
inductive Rearranged : Data → Data → Prop where
  | null : Rearranged .null .null
  | scalar (s : Scalar) : Rearranged (.scalar s) (.scalar s)
  /-- Items keep their order. -/
  | list {items others : List Data} : List.Forall₂ Rearranged items others →
      Rearranged (.list items) (.list others)
  /-- Members are in another order, each of them under its name. -/
  | object {members same others : Members Data} : List.Forall₂ (Keyed Rearranged) members same →
      same.Perm others → Rearranged (.object members) (.object others)

theorem Rearranged.of_matched {members others : Members Data}
    (h : Matched (Keyed Rearranged) members others) :
    Rearranged (.object members) (.object others) := by
  obtain ⟨same, hall, hperm⟩ := h
  exact .object hall hperm

theorem Rearranged.refl (d : Data) : d.Rearranged d := by
  -- the recursor has motives for items, for members and for single members as well
  refine Data.rec (motive_1 := fun d => d.Rearranged d)
    (motive_2 := fun ds => List.Forall₂ Rearranged ds ds)
    (motive_3 := fun ms => List.Forall₂ (Keyed Rearranged) ms ms)
    (motive_4 := fun m => Keyed Rearranged m m) .null .scalar ?_ ?_ .nil ?_ .nil ?_ ?_ d
  · exact fun _ hall => .list hall
  · exact fun ms hall => .object hall (.refl ms)
  · exact fun _ _ hd hds => .cons hd hds
  · exact fun _ _ hm hms => .cons hm hms
  · exact fun name _ hd => .intro name hd

end Data

namespace Tree

theorem matched_dataMembers {R : Tree → Tree → Prop}
    (hR : ∀ t u, R t u → t.data.Rearranged u.data) {ms ns : List (Key × Tree)}
    (h : Matched (Keyed R) ms ns) :
    Matched (Keyed Data.Rearranged) (dataMembers ms) (dataMembers ns) := by
  rw [dataMembers_eq_map, dataMembers_eq_map]
  refine h.map fun _ _ hmn => ?_
  obtain ⟨key, htu⟩ := hmn
  exact .intro key.name (hR _ _ htu)

/-- The content of a tree in another order is the content in another order. -/
theorem Rearranged.data {t u : Tree} (h : t.Rearranged u) : t.data.Rearranged u.data := by
  refine h.induction (P := fun t u => t.data.Rearranged u.data) (fun _ => .null)
    (fun value _ => .scalar value) ?_ ?_
  · intro items others span hall
    refine .list ?_
    rw [dataList_eq_map, dataList_eq_map, List.forall₂_map_left_iff, List.forall₂_map_right_iff]
    exact hall.imp fun _ _ htu => htu.2
  · intro members others span _ hall
    exact .of_matched (matched_dataMembers (fun _ _ htu => htu.2) hall)

end Tree

end DesignTokens
