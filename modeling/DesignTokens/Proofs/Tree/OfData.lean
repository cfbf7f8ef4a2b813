import DesignTokens.Proofs.Members
import DesignTokens.Proofs.Outcome
import DesignTokens.Tree.OfData

/-!
# Trees of data

Data is the content of exactly one tree whose nodes are all at the origin.  That tree is what data
becomes as a document, as long as it has not too many nodes and is not too deep.
-/

namespace DesignTokens

open Outcome

namespace Tree

theorem dataList_eq_map (ts : List Tree) : dataList ts = ts.map data := by
  induction ts with
  | nil => rfl
  | cons t ts ih => rw [dataList, ih, List.map_cons]

theorem dataMembers_eq_map (ms : List (Key × Tree)) :
    dataMembers ms = ms.map fun m => (m.1.name, m.2.data) := by
  induction ms with
  | nil => rfl
  | cons m ms ih =>
    obtain ⟨k, t⟩ := m
    rw [dataMembers, ih, List.map_cons]

end Tree

namespace Data

/-! ## The tree of data -/

mutual

/-- Data as a tree whose nodes are all at the origin. -/
def tree : Data → Tree
  | .null => .null .origin
  | .scalar s => .scalar s .origin
  | .list items => .sequence (treeItems items) .origin
  | .object members => .mapping (treeMembers members) .origin

def treeItems : List Data → List Tree
  | [] => []
  | d :: ds => d.tree :: treeItems ds

def treeMembers : Members Data → List (Key × Tree)
  | [] => []
  | (name, d) :: ms => (⟨name, .origin⟩, d.tree) :: treeMembers ms

end

theorem treeItems_eq_map (ds : List Data) : treeItems ds = ds.map tree := by
  induction ds with
  | nil => rfl
  | cons d ds ih => rw [treeItems, ih, List.map_cons]

theorem treeMembers_eq_map (ms : Members Data) :
    treeMembers ms = ms.map fun m => (⟨m.1, .origin⟩, m.2.tree) := by
  induction ms with
  | nil => rfl
  | cons m ms ih =>
    obtain ⟨name, d⟩ := m
    rw [treeMembers, ih, List.map_cons]

mutual

@[simp] theorem data_tree : (d : Data) → d.tree.data = d
  | .null => rfl
  | .scalar _ => rfl
  | .list items => by rw [tree, Tree.data, dataList_treeItems items]
  | .object members => by rw [tree, Tree.data, dataMembers_treeMembers members]

theorem dataList_treeItems : (ds : List Data) → Tree.dataList (treeItems ds) = ds
  | [] => rfl
  | d :: ds => by rw [treeItems, Tree.dataList, data_tree d, dataList_treeItems ds]

theorem dataMembers_treeMembers : (ms : Members Data) → Tree.dataMembers (treeMembers ms) = ms
  | [] => rfl
  | (name, d) :: ms => by
    rw [treeMembers, Tree.dataMembers, data_tree d, dataMembers_treeMembers ms]

end

/-- A member of the tree of an object is found as in the object. -/
theorem get?_tree_object (name : String) (ms : Members Data) :
    (Data.object ms).tree.get? name = (Members.get? name ms).map tree := by
  rw [tree, Tree.get?, Tree.member?, Tree.members, Tree.members?, Option.getD_some]
  induction ms with
  | nil => rfl
  | cons m ms ih =>
    obtain ⟨k, d⟩ := m
    by_cases h : k = name
    · simp [treeMembers, Members.get?, h]
    · simpa [treeMembers, Members.get?, h] using ih

/-! ## How large data is -/

mutual

/-- The number of nodes. -/
def nodes : Data → Nat
  | .null => 1
  | .scalar _ => 1
  | .list items => 1 + nodesOfItems items
  | .object members => 1 + nodesOfMembers members

/-- The number of nodes of items. -/
def nodesOfItems : List Data → Nat
  | [] => 0
  | d :: ds => d.nodes + nodesOfItems ds

/-- The number of nodes of members. -/
def nodesOfMembers : Members Data → Nat
  | [] => 0
  | (_, d) :: ms => d.nodes + nodesOfMembers ms

end

mutual

/-- The depth of the deepest node. -/
def height : Data → Nat
  | .null => 0
  | .scalar _ => 0
  | .list items => heightOfItems items
  | .object members => heightOfMembers members

/-- The depth of the deepest node below the list of items. -/
def heightOfItems : List Data → Nat
  | [] => 0
  | d :: ds => max (d.height + 1) (heightOfItems ds)

/-- The depth of the deepest node below the object of members. -/
def heightOfMembers : Members Data → Nat
  | [] => 0
  | (_, d) :: ms => max (d.height + 1) (heightOfMembers ms)

end

/-- Data does not exceed limits: it has not too many nodes, and none is too deep. -/
structure Within (d : Data) (limits : Limits) : Prop where
  nodes_le : (d.nodes : Int) ≤ limits.nodes
  height_le : (d.height : Int) ≤ limits.depth

end Data

namespace Tree

/-! ## Wrapping data -/

/-- A node that is neither one too many nor too deep is counted. -/
theorem enter_eq_ok {limits : Limits} {depth count : Nat}
    (hnodes : ((count + 1 : Nat) : Int) ≤ limits.nodes) (hdepth : (depth : Int) ≤ limits.depth) :
    enter limits depth count = .ok (count + 1) := by
  -- the count is taken before the depth is looked at
  have hcount : limits.countNode .origin count = .ok (count + 1) := if_neg (by omega)
  rw [enter, hcount]
  exact if_neg (by omega)

mutual

/-- Data within the limits becomes its tree, and all its nodes are counted. -/
theorem wrap_eq_ok {limits : Limits} : (d : Data) → {depth count : Nat} →
    ((count + d.nodes : Nat) : Int) ≤ limits.nodes →
    ((depth + d.height : Nat) : Int) ≤ limits.depth →
    wrap limits depth count d = .ok (d.tree, count + d.nodes)
  | .null, _, _, hnodes, hdepth => by
    rw [Data.nodes] at hnodes
    rw [Data.height] at hdepth
    rw [wrap, enter_eq_ok (by omega) (by omega)]
    rfl
  | .scalar _, _, _, hnodes, hdepth => by
    rw [Data.nodes] at hnodes
    rw [Data.height] at hdepth
    rw [wrap, enter_eq_ok (by omega) (by omega)]
    rfl
  | .list items, depth, count, hnodes, hdepth => by
    rw [Data.nodes] at hnodes
    rw [Data.height] at hdepth
    rw [wrap, enter_eq_ok (by omega) (by omega)]
    -- the items are one level further down, and the list itself is counted already
    have hitems : wrapItems limits (depth + 1) (count + 1) items =
        .ok (Data.treeItems items, count + 1 + Data.nodesOfItems items) :=
      wrapItems_eq_ok items (by omega) hdepth (by omega)
    simp [bind, Except.bind, hitems, Data.tree, Data.nodes, Nat.add_assoc, pure, Except.pure]
  | .object members, depth, count, hnodes, hdepth => by
    rw [Data.nodes] at hnodes
    rw [Data.height] at hdepth
    rw [wrap, enter_eq_ok (by omega) (by omega)]
    have hmembers : wrapMembers limits (depth + 1) (count + 1) members =
        .ok (Data.treeMembers members, count + 1 + Data.nodesOfMembers members) :=
      wrapMembers_eq_ok members (by omega) hdepth (by omega)
    simp [bind, Except.bind, hmembers, Data.tree, Data.nodes, Nat.add_assoc, pure, Except.pure]

/-- Items within the limits become their trees. -/
theorem wrapItems_eq_ok {limits : Limits} : (ds : List Data) → {depth count : Nat} →
    ((count + Data.nodesOfItems ds : Nat) : Int) ≤ limits.nodes →
    ((depth + Data.heightOfItems ds : Nat) : Int) ≤ limits.depth →
    (depth : Int) ≤ limits.depth →
    wrapItems limits (depth + 1) count ds =
      .ok (Data.treeItems ds, count + Data.nodesOfItems ds)
  | [], _, _, _, _, _ => rfl
  | d :: ds, depth, count, hnodes, hdepth, hlist => by
    rw [Data.nodesOfItems] at hnodes
    rw [Data.heightOfItems] at hdepth
    rw [wrapItems, wrap_eq_ok d (by omega) (by omega)]
    have hrest : wrapItems limits (depth + 1) (count + d.nodes) ds =
        .ok (Data.treeItems ds, count + d.nodes + Data.nodesOfItems ds) :=
      wrapItems_eq_ok ds (by omega) (by omega) hlist
    simp [bind, Except.bind, hrest, Data.treeItems, Data.nodesOfItems, Nat.add_assoc, pure,
      Except.pure]

/-- Members within the limits become their trees. -/
theorem wrapMembers_eq_ok {limits : Limits} : (ms : Members Data) → {depth count : Nat} →
    ((count + Data.nodesOfMembers ms : Nat) : Int) ≤ limits.nodes →
    ((depth + Data.heightOfMembers ms : Nat) : Int) ≤ limits.depth →
    (depth : Int) ≤ limits.depth →
    wrapMembers limits (depth + 1) count ms =
      .ok (Data.treeMembers ms, count + Data.nodesOfMembers ms)
  | [], _, _, _, _, _ => rfl
  | (name, d) :: ms, depth, count, hnodes, hdepth, hlist => by
    rw [Data.nodesOfMembers] at hnodes
    rw [Data.heightOfMembers] at hdepth
    rw [wrapMembers, wrap_eq_ok d (by omega) (by omega)]
    have hrest : wrapMembers limits (depth + 1) (count + d.nodes) ms =
        .ok (Data.treeMembers ms, count + d.nodes + Data.nodesOfMembers ms) :=
      wrapMembers_eq_ok ms (by omega) (by omega) hlist
    simp [bind, Except.bind, hrest, Data.treeMembers, Data.nodesOfMembers, Nat.add_assoc, pure,
      Except.pure]

end

theorem ofData_eq_ok {limits : Limits} {d : Data} (h : d.Within limits) :
    ofData limits d = .ok d.tree := by
  obtain ⟨hnodes, hheight⟩ := h
  rw [ofData, wrap_eq_ok d (by omega) (by omega)]
  rfl

mutual

/-- Data that is wrapped becomes its tree, whatever the limits are. -/
theorem tree_of_wrap {limits : Limits} : (d : Data) → {depth count count' : Nat} → {t : Tree} →
    wrap limits depth count d = .ok (t, count') → t = d.tree
  | .null, _, _, _, _, h | .scalar _, _, _, _, _, h => by
    simp only [wrap, bind_eq_ok, pure_eq_ok, Prod.mk.injEq] at h
    obtain ⟨-, -, rfl, -⟩ := h
    rfl
  | .list items, _, _, _, _, h => by
    simp only [wrap, bind_eq_ok, pure_eq_ok, Prod.mk.injEq] at h
    obtain ⟨_, -, ⟨ts, _⟩, hitems, rfl, -⟩ := h
    rw [Data.tree, ← trees_of_wrapItems items hitems]
  | .object members, _, _, _, _, h => by
    simp only [wrap, bind_eq_ok, pure_eq_ok, Prod.mk.injEq] at h
    obtain ⟨_, -, ⟨ms, _⟩, hmembers, rfl, -⟩ := h
    rw [Data.tree, ← trees_of_wrapMembers members hmembers]

theorem trees_of_wrapItems {limits : Limits} : (ds : List Data) → {depth count count' : Nat} →
    {ts : List Tree} → wrapItems limits depth count ds = .ok (ts, count') →
    ts = Data.treeItems ds
  | [], _, _, _, _, h => by cases h; rfl
  | d :: ds, _, _, _, _, h => by
    simp only [wrapItems, bind_eq_ok, pure_eq_ok, Prod.mk.injEq] at h
    obtain ⟨⟨t, _⟩, ht, ⟨ts, _⟩, hts, rfl, -⟩ := h
    rw [Data.treeItems, ← tree_of_wrap d ht, ← trees_of_wrapItems ds hts]

theorem trees_of_wrapMembers {limits : Limits} : (ms : Members Data) →
    {depth count count' : Nat} → {ts : List (Key × Tree)} →
    wrapMembers limits depth count ms = .ok (ts, count') → ts = Data.treeMembers ms
  | [], _, _, _, _, h => by cases h; rfl
  | (name, d) :: ms, _, _, _, _, h => by
    simp only [wrapMembers, bind_eq_ok, pure_eq_ok, Prod.mk.injEq] at h
    obtain ⟨⟨t, _⟩, ht, ⟨ts, _⟩, hts, rfl, -⟩ := h
    rw [Data.treeMembers, ← tree_of_wrap d ht, ← trees_of_wrapMembers ms hts]

end

theorem tree_of_ofData {limits : Limits} {d : Data} {t : Tree} (h : ofData limits d = .ok t) :
    t = d.tree := by
  obtain ⟨⟨u, _⟩, hwrap, rfl⟩ := map_eq_ok.mp h
  exact tree_of_wrap d hwrap

/-! ## Distinct keys -/

/-- In every mapping of a tree the keys are distinct. -/
inductive WellKeyed : Tree → Prop where
  /-- Nothing has no keys. -/
  | null (span : Span) : WellKeyed (.null span)
  /-- A scalar has no keys. -/
  | scalar (value : Scalar) (span : Span) : WellKeyed (.scalar value span)
  /-- All items have distinct keys. -/
  | sequence (items : List Tree) (span : Span) : (∀ t ∈ items, WellKeyed t) →
      WellKeyed (.sequence items span)
  /-- The keys of a mapping are distinct, and so are those in all its members. -/
  | mapping (members : List (Key × Tree)) (span : Span) : (members.map (·.1.name)).Nodup →
      (∀ m ∈ members, WellKeyed m.2) → WellKeyed (.mapping members span)

mutual

/-- Whether in every mapping of a tree the keys are distinct. -/
def hasDistinctKeys : Tree → Bool
  | .null _ => true
  | .scalar _ _ => true
  | .sequence items _ => itemsHaveDistinctKeys items
  | .mapping members _ => decide (members.map (·.1.name)).Nodup && membersHaveDistinctKeys members

/-- Whether it is so in all items. -/
def itemsHaveDistinctKeys : List Tree → Bool
  | [] => true
  | t :: ts => hasDistinctKeys t && itemsHaveDistinctKeys ts

/-- Whether it is so in all members. -/
def membersHaveDistinctKeys : List (Key × Tree) → Bool
  | [] => true
  | (_, t) :: ms => hasDistinctKeys t && membersHaveDistinctKeys ms

end

mutual

/-- The test for distinct keys is right. -/
theorem hasDistinctKeys_iff : (t : Tree) → (t.hasDistinctKeys = true ↔ t.WellKeyed)
  | .null span => ⟨fun _ => .null span, fun _ => rfl⟩
  | .scalar value span => ⟨fun _ => .scalar value span, fun _ => rfl⟩
  | .sequence items span => by
    rw [hasDistinctKeys, itemsHaveDistinctKeys_iff items]
    refine ⟨.sequence items span, fun h => ?_⟩
    cases h with
    | sequence _ _ hall => exact hall
  | .mapping members span => by
    rw [hasDistinctKeys, Bool.and_eq_true, decide_eq_true_eq, membersHaveDistinctKeys_iff members]
    refine ⟨fun h => .mapping members span h.1 h.2, fun h => ?_⟩
    cases h with
    | mapping _ _ hnodup hall => exact ⟨hnodup, hall⟩

theorem itemsHaveDistinctKeys_iff :
    (ts : List Tree) → (itemsHaveDistinctKeys ts = true ↔ ∀ t ∈ ts, t.WellKeyed)
  | [] => by simp [itemsHaveDistinctKeys]
  | t :: ts => by
    rw [itemsHaveDistinctKeys, Bool.and_eq_true, hasDistinctKeys_iff t,
      itemsHaveDistinctKeys_iff ts, List.forall_mem_cons]

theorem membersHaveDistinctKeys_iff :
    (ms : List (Key × Tree)) → (membersHaveDistinctKeys ms = true ↔ ∀ m ∈ ms, m.2.WellKeyed)
  | [] => by simp [membersHaveDistinctKeys]
  | (k, t) :: ms => by
    rw [membersHaveDistinctKeys, Bool.and_eq_true, hasDistinctKeys_iff t,
      membersHaveDistinctKeys_iff ms, List.forall_mem_cons]

end

instance (t : Tree) : Decidable t.WellKeyed := decidable_of_iff _ (hasDistinctKeys_iff t)

theorem wellKeyed_tree_list {ds : List Data} :
    (Data.list ds).tree.WellKeyed ↔ ∀ d ∈ ds, d.tree.WellKeyed := by
  rw [Data.tree, Data.treeItems_eq_map]
  constructor
  · rintro (_ | _ | ⟨_, _, hall⟩)
    exact fun d hd => hall _ (List.mem_map_of_mem hd)
  · exact fun h => .sequence _ _ (List.forall_mem_map.mpr h)

theorem wellKeyed_tree_object {ms : Members Data} :
    (Data.object ms).tree.WellKeyed ↔ ms.names.Nodup ∧ ∀ m ∈ ms, m.2.tree.WellKeyed := by
  have hnames : (Data.treeMembers ms).map (·.1.name) = ms.names := by
    rw [Data.treeMembers_eq_map, List.map_map]
    rfl
  rw [Data.tree]
  constructor
  · rintro (_ | _ | _ | ⟨_, _, hnodup, hall⟩)
    rw [Data.treeMembers_eq_map, List.forall_mem_map] at hall
    exact ⟨hnames ▸ hnodup, hall⟩
  · rintro ⟨hnodup, hall⟩
    refine .mapping _ _ (hnames ▸ hnodup) ?_
    rw [Data.treeMembers_eq_map, List.forall_mem_map]
    exact hall

/-- A member is there when it is found. -/
theorem has_iff {name : String} {t : Tree} : t.has name = true ↔ ∃ u, t.get? name = some u := by
  rw [← Option.isSome_iff_exists, has, get?, Option.isSome_map]

theorem mem_of_get? {name : String} {t u : Tree} (h : t.get? name = some u) :
    ∃ k, (k, u) ∈ t.members ∧ k.name = name := by
  rw [get?, Option.map_eq_some_iff] at h
  obtain ⟨⟨k, u⟩, hfind, rfl⟩ := h
  exact ⟨k, List.mem_of_find?_eq_some hfind, by simpa using List.find?_some hfind⟩

theorem WellKeyed.member {t u : Tree} {k : Key} (ht : t.WellKeyed) (h : (k, u) ∈ t.members) :
    u.WellKeyed := by
  cases ht with
  | mapping members span _ hall => exact hall _ h
  | _ => simp [members, members?] at h

theorem WellKeyed.nodup {t : Tree} (ht : t.WellKeyed) : t.keys.Nodup := by
  cases ht with
  | mapping members span hnodup _ => exact hnodup
  | _ => simp [keys, members, members?]

/-- With distinct keys a member is found by its name. -/
theorem WellKeyed.get?_of_mem {t u : Tree} {k : Key} (ht : t.WellKeyed)
    (h : (k, u) ∈ t.members) : t.get? k.name = some u := by
  have hfind : t.member? k.name = some (k, u) :=
    (find?_key_eq_some_iff ht.nodup).mpr ⟨h, rfl⟩
  rw [Tree.get?, hfind, Option.map_some]

theorem WellKeyed.get? {t u : Tree} {name : String} (ht : t.WellKeyed)
    (h : t.get? name = some u) : u.WellKeyed := by
  obtain ⟨k, hmem, -⟩ := mem_of_get? h
  exact ht.member hmem

end Tree

end DesignTokens
