import DesignTokens.Problem

/-!
# Nodes inside a node

An issue points at a node, or at a key of a mapping.  Which nodes and keys there are in a document
is said by `Tree.Inside`.
-/

namespace DesignTokens

namespace Tree

/-- A node is another one or stands somewhere below it. -/
inductive Inside (u : Tree) : Tree → Prop where
  | here : Inside u u
  | item {items : List Tree} {span : Span} {t : Tree} : t ∈ items → Inside u t →
      Inside u (.sequence items span)
  | member {members : List (Key × Tree)} {span : Span} {k : Key} {t : Tree} : (k, t) ∈ members →
      Inside u t → Inside u (.mapping members span)

variable {t u v : Tree}

theorem Inside.trans (huv : u.Inside v) (hvt : v.Inside t) : u.Inside t := by
  induction hvt with
  | here => exact huv
  | item hmem _ ih => exact .item hmem ih
  | member hmem _ ih => exact .member hmem ih

theorem inside_of_items? {items : List Tree} (hitems : t.items? = some items) (hu : u ∈ items) :
    u.Inside t := by
  cases t with
  | sequence its span =>
    obtain rfl := Option.some.inj hitems
    exact .item hu .here
  | _ => simp [items?] at hitems

theorem inside_of_mem_members {k : Key} (hu : (k, u) ∈ t.members) : u.Inside t := by
  cases t with
  | mapping ms span => exact .member hu .here
  | _ => simp [members, members?] at hu

theorem mem_members_of_members? {ms : List (Key × Tree)} (hms : t.members? = some ms)
    {m : Key × Tree} (hm : m ∈ ms) : m ∈ t.members := by
  rwa [members, hms]

theorem inside_of_get? {name : String} (hu : t.get? name = some u) : u.Inside t := by
  rw [get?, Option.map_eq_some_iff] at hu
  obtain ⟨m, hfind, rfl⟩ := hu
  exact inside_of_mem_members (List.mem_of_find?_eq_some hfind)

/-- A node with a text is that text. -/
theorem eq_scalar_of_text? {s : String} (h : t.text? = some s) : ∃ span, t = .scalar (.text s) span := by
  unfold text? at h
  split at h
  · cases h
    exact ⟨_, rfl⟩
  · cases h

/-- A key of a mapping inside a node. -/
def HasKey (t : Tree) (k : Key) : Prop := ∃ n v : Tree, n.Inside t ∧ (k, v) ∈ n.members

theorem HasKey.inside {k : Key} (hk : u.HasKey k) (hut : u.Inside t) : t.HasKey k := by
  obtain ⟨n, v, hn, hv⟩ := hk
  exact ⟨n, v, hn.trans hut, hv⟩

end Tree

/-! ## Problems of references -/

namespace Problem

/-- The reference that leads nowhere, to a mode that is not there, or to a wrong type. -/
def reference? : Problem → Option Reference
  | .unknownTarget r _ => some r
  | .unknownMode r _ => some r
  | .wrongTarget r _ _ => some r
  | _ => none

/-- The token with the reference, where the problem names it. -/
def referrer? : Problem → Option String
  | .unknownTarget _ id => some id
  | .unknownMode _ id => some id
  | _ => none

end Problem

/-! ## Places of issues -/

namespace Issue

/-- An issue has the place of a node and says what the node is. -/
def PointsAt (i : Issue) (n : Tree) : Prop := i.span = n.span ∧ i.site = .node n.kind

/-- An issue points at a node inside another one, or at a key there. -/
def PointsInto (i : Issue) (t : Tree) : Prop :=
  (∃ n : Tree, n.Inside t ∧ i.PointsAt n) ∨ ∃ k, t.HasKey k ∧ i.span = k.span ∧ i.site = .member

theorem PointsInto.inside {i : Issue} {t u : Tree} (h : i.PointsInto u) (hut : u.Inside t) :
    i.PointsInto t := by
  obtain ⟨n, hn, hi⟩ | ⟨k, hk, hi⟩ := h
  · exact .inl ⟨n, hn.trans hut, hi⟩
  · exact .inr ⟨k, hk.inside hut, hi⟩

end Issue

end DesignTokens
