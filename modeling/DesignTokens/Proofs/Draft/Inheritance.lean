import DesignTokens.Proofs.Draft.Positions
import DesignTokens.Proofs.Value.Normal

/-!
# Types of tokens and groups

A type that is written on a node holds for everything below it that has none written nearer to it.
So the type of a token or a group depends on the nodes from its own one up to the root and on
nothing else (`NearestType`).  A token may be without a type only when its value is a reference.

## Main statement

* `Discovery.inDocument_types`: every token and every group that is found has the type that is
  written nearest to it on the way up to the root.
-/

namespace DesignTokens

open Outcome

/-- The nodes from a position upwards to the nodes around it, the nearest first. -/
def Position.upward (around : List Tree) (p : Position) : List Tree :=
  p.node :: (p.between.reverse ++ around)

theorem Position.upward_under (name : String) (t : Tree) (around : List Tree) (p : Position) :
    (p.under name t).upward around = p.upward (t :: around) := by
  simp [upward, under]

namespace Discovery

/-! ## The nearest type -/

/-- The name of the type that is written on a node. -/
def writtenType? (node : Tree) : Option String := (node.get? "$type").bind Tree.text?

/-- What nodes give as a type, the nearest first: the type that is written on the nearest one of
those with any, and none when there is none. -/
inductive NearestType : List Tree → Option TokenType → Prop where
  | none : NearestType [] none
  | here {node : Tree} {around : List Tree} {type : TokenType} :
      writtenType? node = some type.name → NearestType (node :: around) (some type)
  | further {node : Tree} {around : List Tree} {type : Option TokenType} :
      node.get? "$type" = none → NearestType around type → NearestType (node :: around) type

/-- The type that is given for a node, or else the one of the nodes around it. -/
theorem NearestType.given {node : Tree} {around : List Tree} {given type : Option TokenType}
    (haround : NearestType around type) (h : givenType node = .ok given) :
    NearestType (node :: around) (given.or type) := by
  unfold givenType at h
  split at h
  · -- nothing is written on the node, so the nodes around it decide
    rename_i hnone
    obtain rfl := Except.ok.inj h
    exact .further hnone haround
  · rename_i t ht
    split at h
    · simp [Grammar.failKind, Grammar.fail] at h
    · rename_i name hname
      split at h
      · rename_i written hwritten
        obtain rfl := Except.ok.inj h
        -- a type is read by its name, so the name on the node is its own
        have hread : written.name = name := by simpa using List.find?_some hwritten
        exact .here (by simp [writtenType?, ht, hname, hread])
      · simp [Grammar.fail] at h

/-- Nothing but what is written on the nodes decides about their type. -/
theorem NearestType.unique {ns ms : List Tree} {type other : Option TokenType}
    (h : NearestType ns type) (h' : NearestType ms other)
    (hsame : ns.map writtenType? = ms.map writtenType?) : type = other := by
  have hnone {node : Tree} (hnode : node.get? "$type" = Option.none) :
      writtenType? node = Option.none := by simp [writtenType?, hnode]
  -- the two go upwards together, and a type that is written on one side is on the other as well
  induction h generalizing ms with
  | none =>
    obtain rfl := List.map_eq_nil_iff.mp hsame.symm
    cases h'
    rfl
  | here hwritten =>
    cases h' with
    | none => simp at hsame
    | here hother =>
      -- both names are the same, and a name is read as one type
      have hname := (List.cons.inj hsame).1
      rw [hwritten, hother, Option.some.injEq] at hname
      rw [← TokenType.ofName?_name, hname, TokenType.ofName?_name]
    | further hother _ => simp [hwritten, hnone hother] at hsame
  | further hwritten _ ih =>
    cases h' with
    | none => simp at hsame
    | here hother => simp [hother, hnone hwritten] at hsame
    | further _ hother => exact ih hother (List.cons.inj hsame).2

/-! ## Types of what is found -/

/-- A draft has the type of the nodes from its own one upwards, and without any its value is a
reference. -/
structure Inherits (nodes : List Tree) (d : Draft) : Prop where
  type : NearestType nodes d.type
  reference : d.type = none → ∃ r, d.value.text?.bind Reference.parse? = some r

/-- What was found at positions has the types of the nodes from there upwards. -/
def Found.Typed (found : Found) (around : List Tree) (ps : List Position) : Prop :=
  found.Lists (fun p d => Inherits (p.upward around) d)
    (fun p g => NearestType (p.upward around) g.type) ps

mutual

-- The induction is on the tree: the type that is handed down stays the one that is nearest in the
-- nodes that were passed on the way.

/-- What is found in members has the types that are written above it. -/
theorem typed_gatherMembers {parent : Option String} {type : Option TokenType} {around : List Tree}
    (haround : NearestType around type) :
    (ms : List (Key × Tree)) → (found : Found) → gatherMembers parent type ms = .ok found →
    found.Typed around (Tree.positionsOf ms)
  | [], found, h => by
    obtain rfl := Except.ok.inj h
    exact .nil
  | (key, child) :: rest, found, h => by
    rw [Tree.positionsOf]
    obtain ⟨hreserved, h⟩ | ⟨hreserved, -, first, later, hfirst, hlater, rfl⟩ :=
      gatherMembers_cons_eq_ok.mp h
    · exact (Found.Lists.reserved hreserved child _).append (typed_gatherMembers haround rest found h)
    · exact (typed_gatherChild haround child hreserved first hfirst).append
        (typed_gatherMembers haround rest later hlater)

/-- What is found at a node has the types that are written on it and above it. -/
theorem typed_gatherChild {parent : Option String} {id : String} {type : Option TokenType}
    {around : List Tree} (haround : NearestType around type) :
    (node : Tree) → {name : String} → isReserved name = false → (found : Found) →
    gatherChild parent id type node = .ok found →
    found.Typed around (Position.branch name node node.positions)
  | .mapping members span, name, hreserved, found, h => by
    cases gatherChild_eq_ok_iff.mp h with
    | token hgiven hvalue hd =>
      have hown := haround.given hgiven
      have hhas : (Tree.mapping members span).has valueField = true := by
        simpa [Tree.get?, Tree.has] using congrArg Option.isSome hvalue
      -- a token without a type was looked at as a reference
      obtain ⟨hreference, -, -, -, -, -, -, rfl⟩ := token_eq_ok.mp hd
      refine .token hreserved hhas ⟨hown, fun hnone => ?_⟩ _
      obtain ⟨hole, hhole⟩ := hreference hnone
      obtain ⟨s, r, hs, hr, -⟩ := Grammar.hole?_eq_some hhole
      exact ⟨r, by rw [hs, Option.bind_some, hr]⟩
    | group hgiven hvalue htext hext hinside =>
      have hown := haround.given hgiven
      have hhas : (Tree.mapping members span).has valueField = false := by
        simpa [Tree.get?, Tree.has] using hvalue
      -- the group is the nearest node around its members
      have hlists := typed_gatherMembers hown members _ hinside
      refine .inGroup hreserved hhas ?_ fun _ => hown
      rw [Tree.positions]
      simpa only [Found.Typed, Position.upward_under] using hlists
  | .null _, _, _, _, h => nomatch gatherChild_eq_ok_iff.mp h
  | .scalar .., _, _, _, h => nomatch gatherChild_eq_ok_iff.mp h
  | .sequence .., _, _, _, h => nomatch gatherChild_eq_ok_iff.mp h

end

/-- What is found in a document has the types that are written above it. -/
theorem typed_inDocument {root : Tree} (hroot : root.WellKeyed) {found : Found}
    (h : inDocument root = .ok found) : found.Typed [root] root.positions := by
  have h := gather_of_inDocument hroot h
  cases root with
  | mapping members span =>
    simp only [gather, bind_eq_ok] at h
    obtain ⟨given, hgiven, h⟩ := h
    have htype := NearestType.none.given hgiven
    rw [Option.or_none] at htype
    rw [Tree.positions]
    exact typed_gatherMembers htype members found h
  | _ => simp [gather, Grammar.failKind, Grammar.fail] at h

/-! ## Types by path -/

/-- The tokens and the groups that were found, by their paths with their types. -/
def Found.types (found : Found) : List (String × Option TokenType) :=
  found.drafts.map (fun d => (d.id, d.type)) ++ found.groups.map fun g => (g.id, g.type)

/-- The type that was found for the path of a position is the one that is written nearest to it. -/
theorem nearestType_of_mem_types {root : Tree} (hroot : root.WellKeyed) {found : Found}
    (h : inDocument root = .ok found) {p : Position} (hp : p ∈ root.positions)
    (hmember : isMember p = true) {type : Option TokenType}
    (htype : (".".intercalate p.names, type) ∈ found.types) :
    NearestType (p.upward [root]) type := by
  have hcovers := inDocument_covers hroot h
  have htyped := typed_inDocument hroot h
  rw [Found.types, List.mem_append, List.mem_map, List.mem_map] at htype
  -- with distinct keys there is no other position with the path
  obtain ⟨d, hd, heq⟩ | ⟨g, hg, heq⟩ := htype
  · obtain ⟨hid, rfl⟩ := Prod.mk.inj heq
    obtain ⟨q, hq, hstands, hinherits⟩ := exists_left (forall₂_both hcovers.drafts htyped.drafts) hd
    obtain ⟨hq, htoken⟩ := List.mem_filter.mp hq
    obtain rfl := hcovers.eq_of_path hroot hq hp (isMember_of_isToken htoken) hmember
      (hstands.id_eq.symm.trans hid)
    exact hinherits.type
  · obtain ⟨hid, rfl⟩ := Prod.mk.inj heq
    obtain ⟨q, hq, hpath, hnearest⟩ := exists_left (forall₂_both hcovers.groups htyped.groups) hg
    obtain ⟨hq, hisGroup⟩ := List.mem_filter.mp hq
    obtain rfl := hcovers.eq_of_path hroot hq hp (isMember_of_isGroup hisGroup) hmember
      (hpath.trans hid)
    exact hnearest

/-- Every token and every group has the type that is written nearest to it: on its own node, on a
group around it, or on the root.  A token without a type is a reference.  Whatever else stands in
two documents, positions with the same types written from there upwards have the same type. -/
theorem inDocument_types {root : Tree} (hroot : root.WellKeyed) {found : Found}
    (h : inDocument root = .ok found) :
    List.Forall₂ (fun p d => d.id = ".".intercalate p.names ∧
        p.node.get? valueField = some d.value ∧ NearestType (p.upward [root]) d.type)
        (root.positions.filter isToken) found.drafts ∧
      List.Forall₂ (fun p g => g.id = ".".intercalate p.names ∧
        NearestType (p.upward [root]) g.type) (root.positions.filter isGroup) found.groups ∧
      (∀ d ∈ found.drafts, d.type = none →
        ∃ s r, d.value.text? = some s ∧ Reference.parse? s = some r) ∧
      ∀ other found', other.WellKeyed → inDocument other = .ok found' →
        ∀ p ∈ root.positions, ∀ q ∈ other.positions, isMember p → isMember q →
          (p.upward [root]).map writtenType? = (q.upward [other]).map writtenType? →
          ∀ type type', (".".intercalate p.names, type) ∈ found.types →
            (".".intercalate q.names, type') ∈ found'.types → type = type' := by
  have hcovers := inDocument_covers hroot h
  have htyped := typed_inDocument hroot h
  refine ⟨(forall₂_both hcovers.drafts htyped.drafts).imp fun p d hd =>
      ⟨hd.1.id_eq, hd.1.value, hd.2.type⟩,
    (forall₂_both hcovers.groups htyped.groups).imp fun p g hg => ⟨hg.1.symm, hg.2⟩, ?_, ?_⟩
  · -- a draft without a type was only taken because its value is a reference
    intro d hd hnone
    obtain ⟨p, -, hinherits⟩ := exists_left htyped.drafts hd
    obtain ⟨r, hr⟩ := hinherits.reference hnone
    obtain ⟨s, hs, hr⟩ := Option.bind_eq_some_iff.mp hr
    exact ⟨s, r, hs, hr⟩
  · -- both types are the nearest ones of nodes on which the same types are written
    intro other found' hother hfound' p hp q hq hpmember hqmember hsame type type' htype htype'
    exact (nearestType_of_mem_types hroot h hp hpmember htype).unique
      (nearestType_of_mem_types hother hfound' hq hqmember htype') hsame

/-- A document with a type on a group, another one on a token in it, and none on the root. -/
def typedInside : Tree :=
  (Data.object [
    ("time", .object [
      ("$type", .text "duration"),
      ("inner", .object [("fast", .object [("$value", .text "1s")])]),
      ("count", .object [("$type", .text "number"), ("$value", .int 3)])]),
    ("same", .object [("$value", .text "\x7btime.inner.fast\x7d")])]).tree

/-- For instance, the type next to a reference is none for it, and the one on a token comes
first. -/
theorem inDocument_types_typedInside : typedInside.WellKeyed ∧ ∃ found,
    inDocument typedInside = .ok found ∧
      List.Forall₂ (fun p d => d.id = ".".intercalate p.names ∧
        p.node.get? valueField = some d.value ∧ NearestType (p.upward [typedInside]) d.type)
        (typedInside.positions.filter isToken) found.drafts ∧
      (∀ d ∈ found.drafts, d.type = none →
        ∃ s r, d.value.text? = some s ∧ Reference.parse? s = some r) ∧
      found.types = [("time.inner.fast", some .duration), ("time.count", some .number),
        ("same", none), ("time", some .duration), ("time.inner", some .duration)] := by
  have hkeyed : typedInside.WellKeyed := by decide +kernel
  have hfound : inDocument typedInside =
      .ok ((inDocument typedInside).toOption.getD .empty) := rfl
  obtain ⟨htokens, -, hreferences, -⟩ := inDocument_types hkeyed hfound
  exact ⟨hkeyed, _, hfound, htokens, hreferences, by decide +kernel⟩

end Discovery

end DesignTokens
