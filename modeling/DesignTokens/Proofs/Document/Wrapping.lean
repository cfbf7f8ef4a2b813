import DesignTokens.Proofs.Members
import DesignTokens.Proofs.Tree.Inside
import DesignTokens.Proofs.Tree.OfGraph
import DesignTokens.Proofs.Tree.Unfolding

/-!
# Trees and their data

The keys of a mapping of a document are distinct, so an index of the members by name loses none of
them, and neither does the data of the document.  Wrapping the data leads back to the tree, with all
places at the origin.

## Main statement

* `Input.read_wrapped`: the data of whatever is read from a text is wrapped into the same tree up to
  places, and the data of what is wrapped is the data that it was wrapped from.
-/

namespace DesignTokens

open Outcome

namespace Tree

/-! ## Places forgotten -/

mutual

/-- A tree with all its nodes and keys at the origin. -/
def atOrigin : Tree → Tree
  | .null _ => .null .origin
  | .scalar v _ => .scalar v .origin
  | .sequence items _ => .sequence (atOriginItems items) .origin
  | .mapping members _ => .mapping (atOriginMembers members) .origin

/-- Items with everything at the origin. -/
def atOriginItems : List Tree → List Tree
  | [] => []
  | t :: ts => t.atOrigin :: atOriginItems ts

/-- Members with everything at the origin. -/
def atOriginMembers : List (Key × Tree) → List (Key × Tree)
  | [] => []
  | (key, t) :: ms => (⟨key.name, .origin⟩, t.atOrigin) :: atOriginMembers ms

end

mutual

/-- The tree of the data of a tree is the tree itself but for the places. -/
theorem tree_data : (t : Tree) → t.data.tree = t.atOrigin
  | .null _ => rfl
  | .scalar _ _ => rfl
  | .sequence items _ => by rw [data, Data.tree, atOrigin, treeItems_dataList items]
  | .mapping members _ => by rw [data, Data.tree, atOrigin, treeMembers_dataMembers members]

theorem treeItems_dataList : (ts : List Tree) → Data.treeItems (dataList ts) = atOriginItems ts
  | [] => rfl
  | t :: ts => by rw [dataList, Data.treeItems, atOriginItems, tree_data t, treeItems_dataList ts]

theorem treeMembers_dataMembers :
    (ms : List (Key × Tree)) → Data.treeMembers (dataMembers ms) = atOriginMembers ms
  | [] => rfl
  | (key, t) :: ms => by
    rw [dataMembers, Data.treeMembers, atOriginMembers, tree_data t, treeMembers_dataMembers ms]

end

/-! ## Members by their names -/

/-- The members of a node by their names; a later member of a name replaces an earlier one. -/
def index (t : Tree) : Members (Key × Tree) :=
  Members.ofPairs (t.members.map fun m => (m.1.name, m))

/-- No two members of a node have the same key.  So the index has all members in order, each
question about a member has the answer that the list of the members gives, and no member is lost
when the data is put into a map. -/
structure Indexed (t : Tree) : Prop where
  nodup : t.keys.Nodup
  index_eq : t.index = t.members.map fun m => (m.1.name, m)
  member?_eq : ∀ name, t.member? name = Members.get? name t.index
  member?_iff : ∀ name m, t.member? name = some m ↔ m ∈ t.members ∧ m.1.name = name
  get?_iff : ∀ name u, t.get? name = some u ↔ ∃ k : Key, (k, u) ∈ t.members ∧ k.name = name
  has_iff : ∀ name, t.has name = true ↔ name ∈ t.keys
  data_eq : Members.ofPairs (dataMembers t.members) = dataMembers t.members

theorem WellKeyed.indexed {t : Tree} (ht : t.WellKeyed) : t.Indexed := by
  have hkeys : (t.members.map fun m => m.1.name).Nodup := ht.nodup
  have hindex : t.index = t.members.map fun m => (m.1.name, m) :=
    Members.ofPairs_eq_self (by rwa [Members.names, List.map_map])
  have hmember : ∀ name m, t.member? name = some m ↔ m ∈ t.members ∧ m.1.name = name :=
    fun name m => find?_key_eq_some_iff hkeys
  refine ⟨hkeys, hindex, fun name => ?_, hmember, fun name u => ?_, fun name => ?_, ?_⟩
  · -- in the index a member is looked up by the name that it has in the list
    rw [hindex, Members.get?_eq_find?, List.find?_map, Option.map_map]
    exact Option.map_id_apply.symm
  · rw [Tree.get?, Option.map_eq_some_iff]
    constructor
    · rintro ⟨⟨k, u⟩, hm, rfl⟩
      exact ⟨k, (hmember name _).mp hm⟩
    · rintro ⟨k, hk⟩
      exact ⟨(k, u), (hmember name _).mpr hk, rfl⟩
  · simp [has, member?, keys, List.find?_isSome]
  · refine Members.ofPairs_eq_self ?_
    rwa [dataMembers_eq_map, Members.names, List.map_map]

/-- Inside a tree with distinct keys there are only nodes with distinct keys. -/
theorem WellKeyed.inside {t u : Tree} (ht : t.WellKeyed) (hu : u.Inside t) : u.WellKeyed := by
  induction hu with
  | here => exact ht
  | item hmem _ ih =>
    cases ht with
    | sequence _ _ hall => exact ih (hall _ hmem)
  | member hmem _ ih =>
    cases ht with
    | mapping _ _ _ hall => exact ih (hall _ hmem)

end Tree

/-! ## What is read and wrapped again -/

namespace Document

variable {limits : Limits} {version : Yaml.Version}

/-- What is read from a text is within the limits, as long as they leave room for an empty
mapping. -/
theorem within_of_treeOfText (hnodes : 1 ≤ limits.nodes) (hdepth : 0 ≤ limits.depth)
    {format : Format} {text : String} {t : Tree}
    (h : (treeOfText limits version format text).1 = .ok t) : t.data.Within limits := by
  unfold treeOfText at h
  split at h
  · cases h
  · -- without a document the tree is an empty mapping, which is counted when it is wrapped
    obtain rfl := Except.ok.inj h
    exact ⟨hnodes, hdepth⟩
  · exact (Tree.expands_of_ofGraph (by omega) h).2

end Document

/-- What is read from a text has each of its members once, and its data can be wrapped under the
same limits: the tree that comes out is the same one with all places at the origin.  What is wrapped
from data has that data again. -/
theorem Input.read_wrapped {limits : Limits} (hnodes : 1 ≤ limits.nodes)
    (hdepth : 0 ≤ limits.depth) (version : Yaml.Version) :
    (∀ (i : Input) (d : Document), i.HasText → (i.read limits version).1 = .ok d →
      (∀ n : Tree, n.Inside d.root → n.Indexed) ∧
        ∃ w, (Input.data d.root.data false).read limits version = (.ok w, version) ∧
          w.root = d.root.atOrigin) ∧
      ∀ (content : Data) (w : Document),
        ((Input.data content false).read limits version).1 = .ok w →
          w.root.data = content ∧
            (content.tree.WellKeyed → ∀ n : Tree, n.Inside w.root → n.Indexed) := by
  refine ⟨fun i d hi h => ?_, fun content w h => ?_⟩
  · -- what was within the limits as a tree is so as data, and wrapping cannot fail otherwise
    obtain ⟨-, format, htree⟩ := i.fromText_of_read hi h false
    have hkeyed := Document.wellKeyed_of_treeOfText htree
    have hwithin := Document.within_of_treeOfText hnodes hdepth htree
    refine ⟨fun n hn => (hkeyed.inside hn).indexed,
      ⟨d.root.data.tree, "", .data, Document.dataName⟩, ?_, d.root.tree_data⟩
    rw [read, Document.ofData, Tree.ofData_eq_ok hwithin]
    rfl
  · -- what is wrapped is the tree of the data, and nothing else
    obtain ⟨t, ht, rfl⟩ := exceptMap_eq_ok.mp h
    obtain rfl := Tree.tree_of_ofData ht
    exact ⟨content.data_tree, fun hkeyed n hn => (hkeyed.inside hn).indexed⟩

/-- A text in which a number and a text that looks like one are keys of a mapping. -/
def mixedKeys : Input := .yaml Document.textName "1: a\n'2': [null, true]\nb: \x7b1: 2.5\x7d\n"

/-- For instance, both keys stay, and the tree comes back with all places at the origin. -/
theorem Input.read_wrapped_mixedKeys :
    (1 : Int) ≤ Limits.standard.nodes ∧ (0 : Int) ≤ Limits.standard.depth ∧
      ∃ d w, (mixedKeys.read .standard .v12).1 = .ok d ∧ d.root.keys = ["1", "2", "b"] ∧
        (∀ n : Tree, n.Inside d.root → n.Indexed) ∧
        (Input.data d.root.data false).read .standard .v12 = (.ok w, .v12) ∧
        w.root = d.root.atOrigin := by
  have hkeys : ((mixedKeys.read .standard .v12).1.toOption.map fun d => d.root.keys) =
      some ["1", "2", "b"] := by
    decide +kernel
  obtain ⟨d, hd, hkeys⟩ := Option.map_eq_some_iff.mp hkeys
  have hread := toOption_eq_some.mp hd
  have hwrapped := @Input.read_wrapped .standard (by decide) (by decide) .v12
  obtain ⟨hindexed, w, hw, hroot⟩ := hwrapped.1 mixedKeys d trivial hread
  exact ⟨by decide, by decide, d, w, hread, hkeys, hindexed, hw, hroot⟩

end DesignTokens
