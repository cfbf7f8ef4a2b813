import DesignTokens.Proofs.Matching
import DesignTokens.Proofs.Tree.OfData

/-!
# Trees with the same content

Trees that differ in nothing but the places of their nodes and keys.  What can be asked of one of two
such trees has the same answer for the other.
-/

namespace DesignTokens

open Outcome

/-! ## Lists that correspond item by item -/

/-- The first item that is looked for is found in both lists. -/
theorem rel_find? {α β : Type} {R : α → β → Prop} {xs : List α} {ys : List β} {p : α → Bool}
    {q : β → Bool} (h : List.Forall₂ R xs ys)
    (hpq : ∀ x y, R x y → p x = q y) : Option.Rel R (xs.find? p) (ys.find? q) := by
  induction h with
  | nil => exact .none
  | @cons x y xs ys hxy _ ih =>
    rw [List.find?_cons, List.find?_cons, hpq x y hxy]
    split
    · exact .some hxy
    · exact ih

namespace Tree

/-- Trees with the same content at other places. -/
def SameContent (t u : Tree) : Prop := t.data = u.data

/-- Members with the same name and the same content. -/
def SameMember (m n : Key × Tree) : Prop := m.1.name = n.1.name ∧ m.2.SameContent n.2

namespace SameContent

variable {t u : Tree}

theorem symm (h : t.SameContent u) : u.SameContent t := Eq.symm h

/-- What holds of nodes without parts, and of lists and mappings whenever it holds of their parts,
holds of all trees with the same content. -/
theorem induction {P : Tree → Tree → Prop} (null : ∀ span span', P (.null span) (.null span'))
    (scalar : ∀ value span span', P (.scalar value span) (.scalar value span'))
    (sequence : ∀ items others span span',
      List.Forall₂ (fun t u => SameContent t u ∧ P t u) items others →
      P (.sequence items span) (.sequence others span'))
    (mapping : ∀ members others span span',
      List.Forall₂ (fun m n => SameMember m n ∧ P m.2 n.2) members others →
      P (.mapping members span) (.mapping others span')) {t u : Tree} (h : t.SameContent u) :
    P t u := by
  -- the recursor has motives for items, for members and for single members as well
  refine Tree.rec (motive_1 := fun t => ∀ u, t.SameContent u → P t u)
    (motive_2 := fun ts => ∀ us, dataList ts = dataList us →
      List.Forall₂ (fun t u => SameContent t u ∧ P t u) ts us)
    (motive_3 := fun ms => ∀ ns, dataMembers ms = dataMembers ns →
      List.Forall₂ (fun m n => SameMember m n ∧ P m.2 n.2) ms ns)
    (motive_4 := fun m => ∀ u, m.2.SameContent u → P m.2 u)
    ?_ ?_ ?_ ?_ ?_ ?_ ?_ ?_ ?_ t u h
  · intro span u h
    cases u <;> simp only [SameContent, data, reduceCtorEq] at h
    exact null _ _
  · intro value span u h
    cases u <;> simp only [SameContent, data, reduceCtorEq, Data.scalar.injEq] at h
    exact h ▸ scalar _ _ _
  · intro items span ih u h
    cases u <;> simp only [SameContent, data, reduceCtorEq, Data.list.injEq] at h
    exact sequence _ _ _ _ (ih _ h)
  · intro members span ih u h
    cases u <;> simp only [SameContent, data, reduceCtorEq, Data.object.injEq] at h
    exact mapping _ _ _ _ (ih _ h)
  · intro us h
    cases us <;> simp only [dataList, reduceCtorEq] at h
    exact .nil
  · intro t ts iht ihts us h
    cases us <;> simp only [dataList, reduceCtorEq, List.cons.injEq] at h
    exact .cons ⟨h.1, iht _ h.1⟩ (ihts _ h.2)
  · intro ns h
    cases ns <;> simp only [dataMembers, reduceCtorEq] at h
    exact .nil
  · intro m ms ihm ihms ns h
    cases ns <;> simp only [dataMembers, reduceCtorEq, List.cons.injEq, Prod.mk.injEq] at h
    exact .cons ⟨h.1, ihm _ h.1.2⟩ (ihms _ h.2)
  · exact fun _ _ ih => ih

/-! ## Questions about a node -/

theorem text?_eq (h : t.SameContent u) : t.text? = u.text? :=
  h.induction (P := fun t u => t.text? = u.text?) (fun _ _ => rfl)
    (fun value _ _ => by cases value <;> rfl) (fun _ _ _ _ _ => rfl) (fun _ _ _ _ _ => rfl)

theorem number?_eq (h : t.SameContent u) : t.number? = u.number? :=
  h.induction (P := fun t u => t.number? = u.number?) (fun _ _ => rfl) (fun _ _ _ => rfl)
    (fun _ _ _ _ _ => rfl) (fun _ _ _ _ _ => rfl)

theorem bool?_eq (h : t.SameContent u) : t.bool? = u.bool? :=
  h.induction (P := fun t u => t.bool? = u.bool?) (fun _ _ => rfl)
    (fun value _ _ => by cases value <;> rfl) (fun _ _ _ _ _ => rfl) (fun _ _ _ _ _ => rfl)

theorem items? (h : t.SameContent u) : Option.Rel (List.Forall₂ SameContent) t.items? u.items? :=
  h.induction (P := fun t u => Option.Rel (List.Forall₂ SameContent) t.items? u.items?)
    (fun _ _ => .none) (fun _ _ _ => .none)
    (fun _ _ _ _ hall => .some (hall.imp fun _ _ htu => htu.1)) (fun _ _ _ _ _ => .none)

theorem members? (h : t.SameContent u) :
    Option.Rel (List.Forall₂ SameMember) t.members? u.members? :=
  h.induction (P := fun t u => Option.Rel (List.Forall₂ SameMember) t.members? u.members?)
    (fun _ _ => .none) (fun _ _ _ => .none) (fun _ _ _ _ _ => .none)
    (fun _ _ _ _ hall => .some (hall.imp fun _ _ hmn => hmn.1))

theorem members (h : t.SameContent u) : List.Forall₂ SameMember t.members u.members := by
  obtain ⟨ht, hu⟩ | ⟨ms, ns, ht, hu, hall⟩ := rel_iff.mp h.members? <;>
    rw [Tree.members, Tree.members, ht, hu]
  · exact .nil
  · exact hall

theorem isMapping_eq (h : t.SameContent u) : t.isMapping = u.isMapping := by
  obtain ⟨ht, hu⟩ | ⟨ms, ns, ht, hu, -⟩ := rel_iff.mp h.members? <;>
    rw [isMapping, isMapping, ht, hu]
  rfl

theorem member? (h : t.SameContent u) (name : String) :
    Option.Rel SameMember (t.member? name) (u.member? name) :=
  rel_find? h.members fun _ _ hmn => by rw [hmn.1]

theorem get? (h : t.SameContent u) (name : String) :
    Option.Rel SameContent (t.get? name) (u.get? name) :=
  rel_map (h.member? name) fun _ _ hmn => hmn.2

theorem has_eq (h : t.SameContent u) (name : String) : t.has name = u.has name := by
  obtain ⟨ht, hu⟩ | ⟨m, n, ht, hu, -⟩ := rel_iff.mp (h.member? name) <;> rw [has, has, ht, hu]
  rfl

/-- Distinct keys stay distinct at other places. -/
theorem wellKeyed (h : t.SameContent u) : t.WellKeyed → u.WellKeyed :=
  h.induction (P := fun t u => t.WellKeyed → u.WellKeyed) (fun _ span' _ => .null span')
    (fun value _ span' _ => .scalar value span')
    (fun items others _ span' hall ht => by
      cases ht with
      | sequence _ _ hitems =>
        refine .sequence others span' fun u hu => ?_
        obtain ⟨t, hmem, -, htu⟩ := exists_left hall hu
        exact htu (hitems t hmem))
    (fun members others _ span' hall ht => by
      cases ht with
      | mapping _ _ hnodup hmembers =>
        have hnames : members.map (·.1.name) = others.map (·.1.name) :=
          forall₂_map_eq.mp (hall.imp fun _ _ hmn => hmn.1.1)
        refine .mapping others span' (hnames ▸ hnodup) fun n hn => ?_
        obtain ⟨m, hmem, -, hmn⟩ := exists_left hall hn
        exact hmn (hmembers m hmem))

end SameContent

/-- The tree of data has the data as its content. -/
theorem sameContent_tree {t : Tree} {d : Data} (h : t.data = d) : t.SameContent d.tree :=
  h.trans d.data_tree.symm

theorem dataMembers_eq {ms ns : List (Key × Tree)} (h : List.Forall₂ SameMember ms ns) :
    dataMembers ms = dataMembers ns := by
  rw [dataMembers_eq_map, dataMembers_eq_map]
  exact forall₂_map_eq.mp (h.imp fun _ _ hmn => Prod.ext hmn.1 hmn.2)

theorem sameContent_mapping {ms ns : List (Key × Tree)} {span span' : Span}
    (h : List.Forall₂ SameMember ms ns) : (mapping ms span).SameContent (mapping ns span') := by
  rw [SameContent, data, data, dataMembers_eq h]

end Tree

end DesignTokens
