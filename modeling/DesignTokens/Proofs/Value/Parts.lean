import DesignTokens.Proofs.Members
import DesignTokens.Proofs.Value.Filling

/-!
# Parts of values

Steps lead from a value to its parts, and a tree of references says at which of them references
stood.  Unless a list was spliced, the part at the place of a hole is the value of the hole
(`at?_of_fill`).
-/

namespace DesignTokens

open Outcome

/-! ## Following steps -/

/-- The part of a value that steps lead to. -/
def Data.at? : List Step → Data → Option Data
  | [], d => some d
  | .field name :: rest, .object members => (Members.get? name members).bind (at? rest)
  | .index n :: rest, .list items => items[n]?.bind (at? rest)
  | _ :: _, _ => none

namespace ReferenceTree

mutual

/-- The references of a tree with the steps that lead to them. -/
def leaves : ReferenceTree → List (List Step × Reference)
  | .reference r => [([], r)]
  | .parts children => leavesOf children

/-- The references of several trees. -/
def leavesOf : List (Step × ReferenceTree) → List (List Step × Reference)
  | [] => []
  | (step, t) :: rest => t.leaves.map (fun p => (step :: p.1, p.2)) ++ leavesOf rest

end

end ReferenceTree

namespace Template

/-! ## The references of a template -/

/-- The steps to the holes of a template with their references. -/
def leaves (t : Template) : List (List Step × Reference) :=
  t.holes.map fun p => (p.1, p.2.reference)

/-- The tree of a template with its holes as leaves, or none when it has no hole. -/
def TreeOf (t : Template) (tree : Option ReferenceTree) : Prop :=
  match tree with
  | some tree => tree.leaves = t.leaves ∧ t.holes ≠ []
  | none => t.holes = []

/-- The tree of a list has the trees of its items as parts, when there are any. -/
theorem references?_list_eq_some {items : List Template} {tree : ReferenceTree} :
    (list items).references? = some tree ↔
      itemReferences 0 items ≠ [] ∧ tree = .parts (itemReferences 0 items) := by
  rw [references?]
  split
  · simp [*]
  · rename_i hne
    simpa [eq_comm (a := tree)] using fun _ => hne

/-- The tree of an object has the trees of its members as parts, when there are any. -/
theorem references?_object_eq_some {members : List (String × Template)} {tree : ReferenceTree} :
    (object members).references? = some tree ↔
      memberReferences members ≠ [] ∧ tree = .parts (memberReferences members) := by
  rw [references?]
  split
  · simp [*]
  · rename_i hne
    simpa [eq_comm (a := tree)] using fun _ => hne

/-- The trees of items have the holes of the items as leaves. -/
theorem leavesOf_itemReferences {items : List Template}
    (h : ∀ t ∈ items, t.TreeOf t.references?) (n : Nat) :
    ReferenceTree.leavesOf (itemReferences n items) =
      (holesOfItems n items).map (fun p => (p.1, p.2.reference)) ∧
    (itemReferences n items = [] ↔ holesOfItems n items = []) := by
  induction items generalizing n with
  | nil => simp [itemReferences, holesOfItems, ReferenceTree.leavesOf]
  | cons t ts ih =>
    obtain ⟨hleaves, hnil⟩ := ih (fun u hu => h u (List.mem_cons_of_mem _ hu)) (n + 1)
    have ht := h t List.mem_cons_self
    unfold itemReferences
    split
    · -- an item with holes has a tree, and one without holes is passed over
      rename_i tree htree
      rw [htree] at ht
      obtain ⟨htleaves, hholes⟩ := ht
      simp [holesOfItems, ReferenceTree.leavesOf, htleaves, leaves, hleaves, hholes]
    · rename_i hnone
      rw [hnone] at ht
      have hholes : t.holes = [] := ht
      simp [holesOfItems, hholes, hleaves, hnil]

/-- The trees of members have the holes of the members as leaves. -/
theorem leavesOf_memberReferences {members : List (String × Template)}
    (h : ∀ m ∈ members, m.2.TreeOf m.2.references?) :
    ReferenceTree.leavesOf (memberReferences members) =
      (holesOfMembers members).map (fun p => (p.1, p.2.reference)) ∧
    (memberReferences members = [] ↔ holesOfMembers members = []) := by
  induction members with
  | nil => simp [memberReferences, holesOfMembers, ReferenceTree.leavesOf]
  | cons m ms ih =>
    obtain ⟨k, t⟩ := m
    obtain ⟨hleaves, hnil⟩ := ih fun u hu => h u (List.mem_cons_of_mem _ hu)
    have ht := h (k, t) List.mem_cons_self
    unfold memberReferences
    split
    · rename_i tree htree
      rw [htree] at ht
      obtain ⟨htleaves, hholes⟩ := ht
      simp [holesOfMembers, ReferenceTree.leavesOf, htleaves, leaves, hleaves, hholes]
    · rename_i hnone
      rw [hnone] at ht
      have hholes : t.holes = [] := ht
      simp [holesOfMembers, hholes, hleaves, hnil]

/-- The tree of the references of a template has its holes as leaves. -/
theorem treeOf_references? (t : Template) : t.TreeOf t.references? := by
  induction t using Template.induction with
  | hole h => simp [TreeOf, references?, ReferenceTree.leaves, leaves, holes]
  | scalar s => simp [TreeOf, references?, holes]
  | list items ih =>
    obtain ⟨hleaves, hnil⟩ := leavesOf_itemReferences ih 0
    unfold references?
    split
    · -- no item has a tree, so there is no hole
      rename_i hempty
      simpa [TreeOf, holes] using hnil.mp hempty
    · rename_i children hne
      refine ⟨by rw [ReferenceTree.leaves, hleaves]; rfl, ?_⟩
      intro hholes
      exact hne (hnil.mpr hholes)
  | object members ih =>
    obtain ⟨hleaves, hnil⟩ := leavesOf_memberReferences ih
    unfold references?
    split
    · rename_i hempty
      simpa [TreeOf, holes] using hnil.mp hempty
    · rename_i children hne
      refine ⟨by rw [ReferenceTree.leaves, hleaves]; rfl, ?_⟩
      intro hholes
      exact hne (hnil.mpr hholes)

theorem leaves_of_references? {t : Template} {tree : ReferenceTree}
    (h : t.references? = some tree) : tree.leaves = t.leaves := by
  have ht := treeOf_references? t
  rw [h] at ht
  exact ht.1

/-- A leaf of an object is a hole of one of its members. -/
theorem mem_leaves_object {members : List (String × Template)} {p : List Step} {r : Reference} :
    (p, r) ∈ (object members).leaves ↔
      ∃ m ∈ members, ∃ q ∈ m.2.holes, p = .field m.1 :: q.1 ∧ q.2.reference = r := by
  simp only [leaves, holes, List.mem_map, mem_holesOfMembers]
  constructor
  · rintro ⟨_, ⟨m, hm, q, hq, rfl⟩, heq⟩
    obtain ⟨rfl, rfl⟩ := Prod.mk.inj heq
    exact ⟨m, hm, q, hq, rfl, rfl⟩
  · rintro ⟨m, hm, q, hq, rfl, rfl⟩
    exact ⟨_, ⟨m, hm, q, hq, rfl⟩, rfl⟩

/-- The leaves below a name are those of the member of the name. -/
theorem mem_leaves_member {members : List (String × Template)}
    (hnodup : (Members.names members).Nodup) {m : String × Template} (hm : m ∈ members)
    {p : List Step} {r : Reference} :
    (.field m.1 :: p, r) ∈ (object members).leaves ↔ (p, r) ∈ m.2.leaves := by
  rw [mem_leaves_object, leaves, List.mem_map]
  constructor
  · rintro ⟨m', hm', q, hq, hsteps, rfl⟩
    simp only [List.cons.injEq, Step.field.injEq] at hsteps
    obtain ⟨hname, rfl⟩ := hsteps
    obtain rfl : m' = m := List.inj_on_of_nodup_map hnodup hm' hm hname.symm
    exact ⟨q, hq, rfl⟩
  · rintro ⟨q, hq, heq⟩
    obtain ⟨rfl, rfl⟩ := Prod.mk.inj heq
    exact ⟨m, hm, q, hq, rfl, rfl⟩

theorem solid_of_references? {t : Template} (h : t.references? = none) : t.Solid := by
  have ht := treeOf_references? t
  rw [h] at ht
  exact solid_iff.mpr ht

/-! ## Templates that keep their places -/

/-- No item of a list is spliced, and the members of each object have distinct names. -/
inductive Steady : Template → Prop where
  | hole (h : Hole) : Steady (.hole h)
  | scalar (s : Scalar) : Steady (.scalar s)
  /-- A list without spliced items. -/
  | list (items : List Template) : (∀ h, .hole h ∈ items → h.spliced = false) →
      (∀ t ∈ items, Steady t) → Steady (.list items)
  /-- An object with distinct names. -/
  | object (members : List (String × Template)) : (Members.names members).Nodup →
      (∀ m ∈ members, Steady m.2) → Steady (.object members)

variable {value : Reference → Except Fault Data}

/-- Without splicing the data of items stands at their positions. -/
theorem fillItems_of_unspliced {items : List Template}
    (h : ∀ g, .hole g ∈ items → g.spliced = false) {ds : List Data} :
    fillItems value items = .ok ds ↔
      List.Forall₂ (fun t d => fill value t = .ok d) items ds := by
  rw [fillItems_eq_ok]
  -- every item adds one piece of data
  have hone : ∀ t ∈ items, ∀ d, contribution t d = [d] := by
    intro t ht d
    cases t with
    | hole g => simp [contribution, h g ht]
    | _ => rfl
  have hflat : ∀ parts, List.Forall₂ (fun t d => fill value t = .ok d) items parts →
      (List.zipWith contribution items parts).flatten = parts := by
    intro parts hparts
    clear h
    induction hparts with
    | nil => rfl
    | cons _ _ ih =>
      rw [List.zipWith_cons_cons, List.flatten_cons, hone _ List.mem_cons_self,
        ih fun t ht => hone t (List.mem_cons_of_mem _ ht)]
      rfl
  constructor
  · rintro ⟨parts, hparts, rfl⟩
    rwa [hflat parts hparts]
  · intro hds
    exact ⟨ds, hds, (hflat ds hds).symm⟩

theorem names_of_fillMembers {members : List (String × Template)} {ds : Members Data}
    (h : List.Forall₂ (fun m d => d.1 = m.1 ∧ fill value m.2 = .ok d.2) members ds) :
    ds.names = Members.names members :=
  Members.names_eq_of_forall₂ h fun _ _ hm => hm.1

/-- In a steady template the part at the place of a hole is the value of the hole. -/
theorem at?_of_fill {t : Template} (ht : t.Steady) {d : Data} (hd : fill value t = .ok d)
    {p : List Step × Hole} (hp : p ∈ t.holes) :
    ∃ c, value p.2.reference = .ok c ∧ d.at? p.1 = some c := by
  induction ht generalizing d p with
  | hole h =>
    obtain rfl : p = ([], h) := by simpa [holes] using hp
    exact ⟨d, hd, rfl⟩
  | scalar s => simp [holes] at hp
  | list items hspliced _ ih =>
    simp only [fill, map_eq_ok] at hd
    obtain ⟨ds, hds, rfl⟩ := hd
    rw [fillItems_of_unspliced hspliced] at hds
    rw [holes, mem_holesOfItems] at hp
    obtain ⟨i, t, hi, q, hq, rfl⟩ := hp
    obtain ⟨hlt, rfl⟩ := List.getElem?_eq_some_iff.mp hi
    -- the data of an item stands at the position of the item
    have hlt' : i < ds.length := hds.length_eq ▸ hlt
    have hfill : fill value items[i] = .ok ds[i] := by
      simpa using hds.get hlt hlt'
    obtain ⟨c, hc, hat⟩ := ih _ (List.getElem_mem hlt) hfill hq
    exact ⟨c, hc, by simpa [Data.at?, List.getElem?_eq_getElem hlt'] using hat⟩
  | object members hnodup _ ih =>
    simp only [fill, map_eq_ok] at hd
    obtain ⟨ds, hds, rfl⟩ := hd
    rw [fillMembers_eq_ok] at hds
    rw [holes, mem_holesOfMembers] at hp
    obtain ⟨m, hm, q, hq, rfl⟩ := hp
    obtain ⟨e, he, hname, hfill⟩ := exists_right hds hm
    obtain ⟨c, hc, hat⟩ := ih m hm hfill hq
    -- the names are distinct, so the data of a member is found by its name
    have hget : Members.get? m.1 ds = some e.2 :=
      (Members.get?_eq_some_iff (names_of_fillMembers hds ▸ hnodup)).mpr (hname ▸ he)
    exact ⟨c, hc, by simpa [Data.at?, hget] using hat⟩

end Template

end DesignTokens
