import DesignTokens.Proofs.Tree.OfData
import DesignTokens.Value.Template

/-!
# Positions in documents

A node has a position below another one when it is reached through keys alone.  The positions below
a node stand in the order of the document, each before those below it (`Tree.positions`).  With
distinct keys no two of them have the same names.
-/

namespace DesignTokens

namespace Tree

/-! ## Following steps -/

/-- The node that steps lead to. -/
def at? : List Step → Tree → Option Tree
  | [], t => some t
  | .field name :: rest, t => (t.get? name).bind (at? rest)
  | .index n :: rest, t => (t.items?.bind fun items => items[n]?).bind (at? rest)

theorem at?_append (p q : List Step) (t : Tree) : t.at? (p ++ q) = (t.at? p).bind (at? q) := by
  induction p generalizing t with
  | nil => rfl
  | cons step p ih =>
    have hrest : at? (p ++ q) = fun u => (at? p u).bind (at? q) := funext ih
    cases step <;> simp only [List.cons_append, at?, Option.bind_assoc, hrest]

theorem WellKeyed.at? {t u : Tree} {p : List Step} (ht : t.WellKeyed) (h : t.at? p = some u) :
    u.WellKeyed := by
  induction p generalizing t with
  | nil => exact Option.some.inj h ▸ ht
  | cons step p ih =>
    cases step with
    | field name =>
      obtain ⟨next, hnext, h⟩ := Option.bind_eq_some_iff.mp h
      exact ih (ht.get? hnext) h
    | index n =>
      obtain ⟨next, hnext, h⟩ := Option.bind_eq_some_iff.mp h
      obtain ⟨items, hitems, hnext⟩ := Option.bind_eq_some_iff.mp hnext
      refine ih ?_ h
      cases ht with
      | sequence items span hall =>
        obtain rfl := Option.some.inj hitems
        exact hall _ (List.mem_of_getElem? hnext)
      | _ => simp [items?] at hitems

end Tree

/-! ## Positions -/

/-- A node that is reached from another one through keys alone. -/
structure Position where
  /-- The keys on the way. -/
  names : List String
  /-- The nodes that stand between the two, from the upper one on. -/
  between : List Tree
  /-- The node that is reached. -/
  node : Tree

namespace Position

/-- A position below a member, seen from the node with the member. -/
def under (name : String) (member : Tree) (p : Position) : Position :=
  ⟨name :: p.names, member :: p.between, p.node⟩

/-- The position of a member, and after it the positions below it. -/
def branch (name : String) (member : Tree) (below : List Position) : List Position :=
  ⟨[name], [], member⟩ :: below.map (under name member)

end Position

open Position

namespace Tree

mutual

/-- The positions below a node in the order of the document. -/
def positions : Tree → List Position
  | .mapping members _ => positionsOf members
  | _ => []

/-- The positions of members and below them. -/
def positionsOf : List (Key × Tree) → List Position
  | [] => []
  | (key, t) :: rest => branch key.name t (positions t) ++ positionsOf rest

end

/-! ## Names of positions -/

theorem mem_branch {name : String} {member : Tree} {below : List Position} {p : Position} :
    p ∈ branch name member below ↔
      p = ⟨[name], [], member⟩ ∨ ∃ q ∈ below, q.under name member = p := by
  rw [branch, List.mem_cons, List.mem_map]

theorem head_of_mem_branch {name : String} {member : Tree} {below : List Position} {p : Position}
    (hp : p ∈ branch name member below) : p.names.head? = some name := by
  obtain rfl | ⟨q, -, rfl⟩ := mem_branch.mp hp <;> rfl

/-- Below a mapping every position starts with one of its keys. -/
theorem head_of_mem_positionsOf {ms : List (Key × Tree)} {p : Position} (hp : p ∈ positionsOf ms) :
    ∃ m ∈ ms, p.names.head? = some m.1.name := by
  induction ms with
  | nil => simp [positionsOf] at hp
  | cons m rest ih =>
    rw [positionsOf, List.mem_append] at hp
    obtain hp | hp := hp
    · exact ⟨m, List.mem_cons_self, head_of_mem_branch hp⟩
    · obtain ⟨n, hn, hhead⟩ := ih hp
      exact ⟨n, List.mem_cons_of_mem _ hn, hhead⟩

theorem names_ne_nil {t : Tree} {p : Position} (hp : p ∈ t.positions) : p.names ≠ [] := by
  cases t with
  | mapping members span =>
    obtain ⟨m, -, hhead⟩ := head_of_mem_positionsOf (by rwa [positions] at hp)
    rintro hnil
    simp [hnil] at hhead
  | _ => simp [positions] at hp

/-- A member has other names than the positions below it. -/
theorem nodup_branch {name : String} {member : Tree} {below : List Position}
    (hne : ∀ p ∈ below, p.names ≠ []) (hbelow : (below.map Position.names).Nodup) :
    ((branch name member below).map Position.names).Nodup := by
  have hnames : (below.map (under name member)).map Position.names =
      (below.map Position.names).map (name :: ·) := by
    rw [List.map_map, List.map_map]
    rfl
  rw [branch, List.map_cons, hnames, List.nodup_cons]
  refine ⟨fun hmem => ?_, hbelow.map (List.cons_injective)⟩
  obtain ⟨names, hmem, heq⟩ := List.mem_map.mp hmem
  obtain ⟨p, hp, rfl⟩ := List.mem_map.mp hmem
  exact hne p hp (List.cons.inj heq).2

mutual

/-- With distinct keys no two positions have the same names. -/
theorem nodup_positions : (t : Tree) → t.WellKeyed → (t.positions.map Position.names).Nodup
  | .mapping members span, ht => by
    rw [positions]
    exact nodup_positionsOf members ht.nodup fun m hm => ht.member (k := m.1) hm
  | .null _, _ => by simp [positions]
  | .scalar .., _ => by simp [positions]
  | .sequence .., _ => by simp [positions]

theorem nodup_positionsOf : (ms : List (Key × Tree)) → (ms.map (·.1.name)).Nodup →
    (∀ m ∈ ms, m.2.WellKeyed) → ((positionsOf ms).map Position.names).Nodup
  | [], _, _ => by simp [positionsOf]
  | (key, t) :: rest, hkeys, hms => by
    obtain ⟨hnew, hkeys⟩ := List.nodup_cons.mp hkeys
    obtain ⟨ht, hrest⟩ := List.forall_mem_cons.mp hms
    rw [positionsOf, List.map_append]
    refine List.nodup_append.mpr ⟨nodup_branch (fun _ => names_ne_nil) (nodup_positions t ht),
      nodup_positionsOf rest hkeys hrest, ?_⟩
    rintro _ hfirst _ hlater rfl
    obtain ⟨p, hp, rfl⟩ := List.mem_map.mp hfirst
    obtain ⟨q, hq, hnames⟩ := List.mem_map.mp hlater
    -- the same names would start with a key that stands twice
    obtain ⟨m, hm, hhead⟩ := head_of_mem_positionsOf hq
    rw [hnames, head_of_mem_branch hp] at hhead
    exact hnew (List.mem_map.mpr ⟨m, hm, (Option.some.inj hhead).symm⟩)

end

/-! ## Nodes of positions -/

theorem mem_positionsOf {ms : List (Key × Tree)} {p : Position} :
    p ∈ positionsOf ms ↔ ∃ m ∈ ms, p ∈ branch m.1.name m.2 m.2.positions := by
  induction ms with
  | nil => simp [positionsOf]
  | cons m rest ih => rw [positionsOf, List.mem_append, ih, List.exists_mem_cons_iff]

/-- With distinct keys the names of a position lead to its node. -/
theorem at?_of_mem_positions {t : Tree} (ht : t.WellKeyed) {p : Position}
    (hp : p ∈ t.positions) : t.at? (p.names.map .field) = some p.node := by
  induction ht generalizing p with
  | mapping members span hnodup hall ih =>
    rw [positions, mem_positionsOf] at hp
    obtain ⟨⟨key, child⟩, hmem, hp⟩ := hp
    have hget : (Tree.mapping members span).get? key.name = some child :=
      (WellKeyed.mapping members span hnodup hall).get?_of_mem hmem
    obtain rfl | ⟨q, hq, rfl⟩ := mem_branch.mp hp
    · simp [at?, hget]
    · simpa [at?, under, hget] using ih _ hmem hq
  | _ => simp [positions] at hp

end Tree

end DesignTokens
