import DesignTokens.Proofs.Resolution.Values
import DesignTokens.Proofs.Table.Restoring

/-!
# Remembering references

The entry of a value remembers the references inside it as a tree, and the tree is what comes out
when they are noted one after the other, each behind the steps that lead to it (`noteAll_leaves`).
No reference takes the place of another one, since the steps to two of them part before either one
ends.

Where no list is spliced the tree puts the references back.  The data that was filled in may have
parts itself, and these are not looked at.

## Main statement

- `Resolution.entry_remembers`
-/

namespace DesignTokens

open Outcome Template

namespace Template

/-! ## Parts of templates -/

/-- The parts of a template with the steps that lead to them. -/
def parts : Template → List (Step × Template)
  | .list items => items.zipIdx.map fun p => (.index p.2, p.1)
  | .object members => members.map fun m => (.field m.1, m.2)
  | _ => []

/-- The members of each object of a template have distinct names. -/
inductive Distinct : Template → Prop where
  | hole (h : Hole) : Distinct (.hole h)
  | scalar (s : Scalar) : Distinct (.scalar s)
  | list (items : List Template) : (∀ t ∈ items, Distinct t) → Distinct (.list items)
  /-- An object with distinct names. -/
  | object (members : List (String × Template)) : (Members.names members).Nodup →
      (∀ m ∈ members, Distinct m.2) → Distinct (.object members)

namespace Distinct

/-- Different steps lead to different parts. -/
theorem nodup_steps {t : Template} (ht : t.Distinct) : (t.parts.map Prod.fst).Nodup := by
  cases ht with
  | hole h => exact List.nodup_nil
  | scalar s => exact List.nodup_nil
  | list items _ =>
    have hsteps : (Template.list items).parts.map Prod.fst =
        (items.zipIdx.map Prod.snd).map Step.index := by
      rw [parts, List.map_map, List.map_map]
      rfl
    rw [hsteps, List.zipIdx_map_snd]
    exact (List.nodup_range' 1).map fun _ _ h => Step.index.inj h
  | object members hnodup _ =>
    have hsteps : (Template.object members).parts.map Prod.fst =
        (Members.names members).map Step.field := by
      rw [parts, Members.names, List.map_map, List.map_map]
      rfl
    rw [hsteps]
    exact hnodup.map fun _ _ h => Step.field.inj h

theorem part {t : Template} (ht : t.Distinct) {p : Step × Template} (hp : p ∈ t.parts) :
    p.2.Distinct := by
  cases ht with
  | hole h => exact absurd hp List.not_mem_nil
  | scalar s => exact absurd hp List.not_mem_nil
  | list items hitems =>
    obtain ⟨q, hq, rfl⟩ := List.mem_map.mp hp
    exact hitems q.1 (List.fst_mem_of_mem_zipIdx hq)
  | object members _ hmembers =>
    obtain ⟨m, hm, rfl⟩ := List.mem_map.mp hp
    exact hmembers m hm

/-- What holds of holes, and of everything else whenever it holds of all its parts, holds of all
templates with distinct names. -/
theorem induction {P : Template → Prop} (hole : ∀ h, P (.hole h))
    (whole : ∀ t, (∀ h, t ≠ .hole h) → t.Distinct → (∀ p ∈ t.parts, P p.2) → P t) {t : Template}
    (ht : t.Distinct) : P t := by
  induction ht with
  | hole h => exact hole h
  | scalar s => exact whole _ (by simp) (.scalar s) (by simp [parts])
  | list items hitems ih =>
    refine whole _ (by simp) (.list items hitems) fun p hp => ?_
    obtain ⟨q, hq, rfl⟩ := List.mem_map.mp hp
    exact ih q.1 (List.fst_mem_of_mem_zipIdx hq)
  | object members hnodup hmembers ih =>
    refine whole _ (by simp) (.object members hnodup hmembers) fun p hp => ?_
    obtain ⟨m, hm, rfl⟩ := List.mem_map.mp hp
    exact ih m hm

/-- Without spliced holes a template keeps its places. -/
theorem steady {t : Template} (ht : t.Distinct) (hspliced : ∀ h, t.HasHole h → h.spliced = false) :
    t.Steady := by
  induction ht with
  | hole h => exact .hole h
  | scalar s => exact .scalar s
  | list items _ ih =>
    refine .list items (fun h hh => hspliced h ?_) fun t ht => ih t ht fun h hh => hspliced h ?_
    · exact hasHole_list.mpr ⟨.hole h, hh, hasHole_hole.mpr rfl⟩
    · exact hasHole_list.mpr ⟨t, ht, hh⟩
  | object members hnodup _ ih =>
    exact .object members hnodup fun m hm => ih m hm fun h hh =>
      hspliced h (hasHole_object.mpr ⟨m, hm, hh⟩)

end Distinct

/-- The trees of the parts that have references inside. -/
def partTrees (parts : List (Step × Template)) : List (Step × ReferenceTree) :=
  parts.filterMap fun p => p.2.references?.map fun tree => (p.1, tree)

theorem partTrees_cons (p : Step × Template) (parts : List (Step × Template)) :
    partTrees (p :: parts) =
      (p.2.references?.map fun tree => (p.1, tree)).toList ++ partTrees parts := by
  rw [partTrees, List.filterMap_cons]
  cases p.2.references? <;> rfl

theorem step_of_partTrees {parts : List (Step × Template)} {c : Step × ReferenceTree}
    (hc : c ∈ partTrees parts) : c.1 ∈ parts.map Prod.fst := by
  obtain ⟨p, hp, hpc⟩ := List.mem_filterMap.mp hc
  obtain ⟨tree, -, rfl⟩ := Option.map_eq_some_iff.mp hpc
  exact List.mem_map_of_mem hp

/-- The leaves of parts, one step further away. -/
def partLeaves (parts : List (Step × Template)) : List (List Step × Reference) :=
  parts.flatMap fun p => p.2.leaves.map fun q => (p.1 :: q.1, q.2)

/-- The steps to a leaf begin with the step of a part. -/
theorem step_of_partLeaves {parts : List (Step × Template)} {leaf : List Step × Reference}
    (hleaf : leaf ∈ partLeaves parts) :
    ∃ p ∈ parts, ∃ q ∈ p.2.leaves, leaf = (p.1 :: q.1, q.2) := by
  obtain ⟨p, hp, hleaf⟩ := List.mem_flatMap.mp hleaf
  obtain ⟨q, hq, rfl⟩ := List.mem_map.mp hleaf
  exact ⟨p, hp, q, hq, rfl⟩

theorem partLeaves_items (items : List Template) (n : Nat) :
    (holesOfItems n items).map (fun p => (p.1, p.2.reference)) =
      partLeaves ((items.zipIdx n).map fun p => (.index p.2, p.1)) := by
  induction items generalizing n with
  | nil => rfl
  | cons t ts ih =>
    rw [holesOfItems, List.map_append, ih, List.zipIdx_cons, List.map_cons, partLeaves, partLeaves,
      List.flatMap_cons, leaves, List.map_map, List.map_map]
    rfl

theorem partLeaves_members (members : List (String × Template)) :
    (holesOfMembers members).map (fun p => (p.1, p.2.reference)) =
      partLeaves (members.map fun m => (.field m.1, m.2)) := by
  induction members with
  | nil => rfl
  | cons m ms ih =>
    rw [holesOfMembers, List.map_append, ih, List.map_cons, partLeaves, partLeaves,
      List.flatMap_cons, leaves, List.map_map, List.map_map]
    rfl

theorem partTrees_items (items : List Template) (n : Nat) :
    itemReferences n items = partTrees ((items.zipIdx n).map fun p => (.index p.2, p.1)) := by
  induction items generalizing n with
  | nil => rfl
  | cons t ts ih =>
    rw [itemReferences, List.zipIdx_cons, List.map_cons, partTrees_cons, ih]
    cases t.references? <;> rfl

theorem partTrees_members (members : List (String × Template)) :
    memberReferences members = partTrees (members.map fun m => (.field m.1, m.2)) := by
  induction members with
  | nil => rfl
  | cons m ms ih =>
    rw [memberReferences, List.map_cons, partTrees_cons, ih]
    cases m.2.references? <;> rfl

end Template

namespace ReferenceTree

/-! ## References behind steps -/

/-- The reference that steps lead to. -/
def at? : List Step → ReferenceTree → Option Reference
  | [], tree => tree.reference?
  | step :: rest, tree => (tree.child? step).bind (at? rest)

theorem child?_eq_none {step : Step} {children : List (Step × ReferenceTree)}
    (h : ∀ c ∈ children, c.1 ≠ step) : (parts children).child? step = none := by
  rw [child?, List.find?_eq_none.mpr (by simpa using h), Option.map_none]

/-! ## Noting one reference after the other -/

/-- Sets the tree at a step: one that is there keeps its position, a new one goes to the end. -/
def setChild (step : Step) (tree : ReferenceTree) :
    List (Step × ReferenceTree) → List (Step × ReferenceTree)
  | [] => [(step, tree)]
  | (s, t) :: rest => if s = step then (s, tree) :: rest else (s, t) :: setChild step tree rest

/-- The parts at a step, none when nothing is there; a reference has no parts. -/
def partsAt (step : Step) (children : List (Step × ReferenceTree)) :
    Option (List (Step × ReferenceTree)) :=
  match (parts children).child? step with
  | none => some []
  | some (.parts below) => some below
  | some (.reference _) => none

/-- Notes a reference behind steps.  What is missing on the way is added, the last step is set, and
behind a reference nothing can be noted. -/
def note (r : Reference) :
    List Step → List (Step × ReferenceTree) → Option (List (Step × ReferenceTree))
  | [], _ => none
  | [step], children => some (setChild step (.reference r) children)
  | step :: next :: rest, children =>
    ((partsAt step children).bind (note r (next :: rest))).map fun below =>
      setChild step (.parts below) children

/-- Notes references in order. -/
def noteAll (leaves : List (List Step × Reference)) (children : List (Step × ReferenceTree)) :
    Option (List (Step × ReferenceTree)) :=
  leaves.foldlM (fun children p => note p.2 p.1 children) children

variable {step : Step} {children : List (Step × ReferenceTree)}

theorem setChild_append (h : ∀ c ∈ children, c.1 ≠ step) (tree : ReferenceTree)
    (rest : List (Step × ReferenceTree)) :
    setChild step tree (children ++ rest) = children ++ setChild step tree rest := by
  induction children with
  | nil => rfl
  | cons c children ih =>
    obtain ⟨hc, hchildren⟩ := List.forall_mem_cons.mp h
    rw [List.cons_append, setChild, if_neg hc, ih hchildren, List.cons_append]

/-- The first reference behind a step gets parts that begin with it. -/
theorem note_first (h : ∀ c ∈ children, c.1 ≠ step) (r : Reference) {path : List Step}
    (hpath : path ≠ []) :
    note r (step :: path) children =
      (note r path []).map fun below => children ++ [(step, .parts below)] := by
  obtain ⟨next, rest, rfl⟩ := List.exists_cons_of_ne_nil hpath
  have hset : ∀ tree, setChild step tree children = children ++ [(step, tree)] := by
    intro tree
    have happend := setChild_append h tree []
    rwa [List.append_nil] at happend
  simp only [note, partsAt, child?_eq_none h, hset, Option.bind_some]

/-- Every later one goes into these parts. -/
theorem note_later (h : ∀ c ∈ children, c.1 ≠ step) (r : Reference) {path : List Step}
    (hpath : path ≠ []) (below : List (Step × ReferenceTree)) :
    note r (step :: path) (children ++ [(step, .parts below)]) =
      (note r path below).map fun below => children ++ [(step, .parts below)] := by
  obtain ⟨next, rest, rfl⟩ := List.exists_cons_of_ne_nil hpath
  have hset : ∀ tree, setChild step tree (children ++ [(step, .parts below)]) =
      children ++ [(step, tree)] := by
    intro tree
    rw [setChild_append h, setChild, if_pos rfl]
  have hchild : (parts (children ++ [(step, .parts below)])).child? step =
      some (.parts below) := by
    rw [child?, List.find?_append, List.find?_eq_none.mpr (by simpa using h)]
    simp
  simp only [note, partsAt, hchild, hset, Option.bind_some]

/-- Where a step has parts already, references behind it go into them. -/
theorem noteAll_later (h : ∀ c ∈ children, c.1 ≠ step) {leaves : List (List Step × Reference)}
    (hpaths : ∀ p ∈ leaves, p.1 ≠ []) (below : List (Step × ReferenceTree)) :
    noteAll (leaves.map fun p => (step :: p.1, p.2)) (children ++ [(step, .parts below)]) =
      (noteAll leaves below).map fun below => children ++ [(step, .parts below)] := by
  induction leaves generalizing below with
  | nil => rfl
  | cons p leaves ih =>
    obtain ⟨hp, hleaves⟩ := List.forall_mem_cons.mp hpaths
    rw [noteAll, noteAll, List.map_cons, List.foldlM_cons, List.foldlM_cons,
      note_later h p.2 hp below]
    cases note p.2 p.1 below with
    | none => rfl
    | some below => exact ih hleaves below

/-- References behind one step are noted as they would be without it. -/
theorem noteAll_behind (h : ∀ c ∈ children, c.1 ≠ step) {leaves : List (List Step × Reference)}
    (hpaths : ∀ p ∈ leaves, p.1 ≠ []) (hne : leaves ≠ []) :
    noteAll (leaves.map fun p => (step :: p.1, p.2)) children =
      (noteAll leaves []).map fun below => children ++ [(step, .parts below)] := by
  -- the first one makes the parts that all others go into
  obtain ⟨p, leaves, rfl⟩ := List.exists_cons_of_ne_nil hne
  obtain ⟨hp, hleaves⟩ := List.forall_mem_cons.mp hpaths
  rw [noteAll, noteAll, List.map_cons, List.foldlM_cons, List.foldlM_cons, note_first h p.2 hp]
  cases note p.2 p.1 [] with
  | none => rfl
  | some below => exact noteAll_later h hleaves below

/-- The tree of parts, or none without any. -/
def treeOf : List (Step × ReferenceTree) → Option ReferenceTree
  | [] => none
  | children => some (.parts children)

/-- The tree of references that are noted in order, or none without references. -/
def noted? (leaves : List (List Step × Reference)) : Option (Option ReferenceTree) :=
  (noteAll leaves []).map treeOf

theorem bind_treeOf (children : List (Step × ReferenceTree)) (step : Step) (rest : List Step) :
    (treeOf children).bind (at? (step :: rest)) =
      ((parts children).child? step).bind (at? rest) := by
  cases children <;> rfl

theorem noteAll_append (first later : List (List Step × Reference)) :
    noteAll (first ++ later) children = noteAll first children >>= noteAll later :=
  List.foldlM_append

end ReferenceTree

namespace Template

open ReferenceTree

variable {t : Template}

/-! ## The tree of a template -/

/-- The leaves of a template that is no reference as a whole are those of its parts. -/
theorem leaves_eq (hwhole : ∀ h, t ≠ .hole h) : t.leaves = partLeaves t.parts := by
  cases t with
  | hole h => exact absurd rfl (hwhole h)
  | scalar s => rfl
  | list items => exact partLeaves_items items 0
  | object members => exact partLeaves_members members

/-- And its tree has the trees of its parts. -/
theorem references?_eq (hwhole : ∀ h, t ≠ .hole h) :
    t.references? = treeOf (partTrees t.parts) := by
  cases t with
  | hole h => exact absurd rfl (hwhole h)
  | scalar s => rfl
  | list items =>
    rw [references?, partTrees_items]
    rfl
  | object members =>
    rw [references?, partTrees_members]
    rfl

/-- Without references there is no tree, and without a tree there are no references. -/
theorem references?_eq_none_iff : t.references? = none ↔ t.leaves = [] := by
  rw [leaves, List.map_eq_nil_iff]
  have ht := treeOf_references? t
  constructor
  · intro hnone
    rwa [hnone] at ht
  · intro hnil
    by_contra hne
    obtain ⟨tree, htree⟩ := Option.ne_none_iff_exists'.mp hne
    rw [htree] at ht
    exact ht.2 hnil

/-- The references of a part are noted with the tree of the part behind its step. -/
def Noted (t : Template) : Prop :=
  ∀ (step : Step) (children : List (Step × ReferenceTree)), (∀ c ∈ children, c.1 ≠ step) →
    noteAll (t.leaves.map fun p => (step :: p.1, p.2)) children =
      some (children ++ (t.references?.map fun tree => (step, tree)).toList)

theorem noteAll_parts {parts : List (Step × Template)} (h : ∀ p ∈ parts, p.2.Noted)
    (hnodup : (parts.map Prod.fst).Nodup) {children : List (Step × ReferenceTree)}
    (hnew : ∀ c ∈ children, c.1 ∉ parts.map Prod.fst) :
    noteAll (partLeaves parts) children = some (children ++ partTrees parts) := by
  induction parts generalizing children with
  | nil => simp [partLeaves, partTrees, noteAll]
  | cons p parts ih =>
    obtain ⟨hp, hparts⟩ := List.forall_mem_cons.mp h
    obtain ⟨hstep, hnodup⟩ := List.nodup_cons.mp hnodup
    have hfirst := hp p.1 children fun c hc heq => hnew c hc (heq ▸ List.mem_cons_self)
    -- what was noted of the first part is not where the others are
    have hlater : ∀ c ∈ children ++ (p.2.references?.map fun tree => (p.1, tree)).toList,
        c.1 ∉ parts.map Prod.fst := by
      intro c hc
      rcases List.mem_append.mp hc with hc | hc
      · exact fun hmem => hnew c hc (List.mem_cons_of_mem _ hmem)
      · obtain ⟨tree, -, rfl⟩ : ∃ tree, p.2.references? = some tree ∧ (p.1, tree) = c := by
          simpa using hc
        exact hstep
    rw [partLeaves, List.flatMap_cons, noteAll_append, hfirst]
    refine (ih hparts hnodup hlater).trans ?_
    rw [partTrees_cons, List.append_assoc]

/-- What is noted of parts makes the tree of the whole. -/
theorem noted?_of_parts (hwhole : ∀ h, t ≠ .hole h) (hnodup : (t.parts.map Prod.fst).Nodup)
    (h : ∀ p ∈ t.parts, p.2.Noted) : noted? t.leaves = some t.references? := by
  rw [noted?, leaves_eq hwhole, noteAll_parts h hnodup (by simp), references?_eq hwhole]
  rfl

/-- What is noted of a template is noted behind a step when the template is a part. -/
theorem noted_of_noted? (hwhole : ∀ h, t ≠ .hole h) (h : noted? t.leaves = some t.references?) :
    t.Noted := by
  intro step children hnew
  have hpaths : ∀ p ∈ t.leaves, p.1 ≠ [] := by
    rw [leaves_eq hwhole]
    intro leaf hleaf
    obtain ⟨p, -, q, -, rfl⟩ := step_of_partLeaves hleaf
    exact List.cons_ne_nil _ _
  obtain ⟨below, hbelow, htree⟩ := Option.map_eq_some_iff.mp h
  by_cases hnil : t.leaves = []
  · rw [hnil, references?_eq_none_iff.mpr hnil]
    simp [noteAll]
  · obtain ⟨child, rest, rfl⟩ : ∃ child rest, below = child :: rest := by
      refine List.exists_cons_of_ne_nil fun hempty => hnil (references?_eq_none_iff.mp ?_)
      rw [← htree, hempty, treeOf]
    rw [noteAll_behind hnew hpaths hnil, hbelow, ← htree]
    rfl

theorem Distinct.noted (ht : t.Distinct) : t.Noted := by
  refine ht.induction (fun h step children hnew => ?_) fun t hwhole ht ih =>
    noted_of_noted? hwhole (noted?_of_parts hwhole ht.nodup_steps ih)
  -- a reference is set at the step itself
  have hset := setChild_append hnew (.reference h.reference) []
  rw [List.append_nil] at hset
  simp [leaves, holes, noteAll, note, hset, setChild, references?]

/-- The tree of a template that is no reference as a whole is what comes out when its references
are noted in order. -/
theorem noteAll_leaves (hwhole : ∀ h, t ≠ .hole h) (ht : t.Distinct) :
    noted? t.leaves = some t.references? :=
  noted?_of_parts hwhole ht.nodup_steps fun _ hp => (ht.part hp).noted

/-! ## Finding references -/

/-- The tree at a step is that of the part there. -/
theorem child?_partTrees {parts : List (Step × Template)} (hnodup : (parts.map Prod.fst).Nodup)
    {p : Step × Template} (hp : p ∈ parts) :
    (ReferenceTree.parts (partTrees parts)).child? p.1 = p.2.references? := by
  induction parts with
  | nil => exact absurd hp List.not_mem_nil
  | cons q parts ih =>
    obtain ⟨hstep, hnodup⟩ := List.nodup_cons.mp hnodup
    have hrest : ∀ c ∈ partTrees parts, c.1 ≠ q.1 := fun c hc heq =>
      hstep (heq ▸ step_of_partTrees hc)
    rw [partTrees_cons]
    rcases List.mem_cons.mp hp with rfl | hp
    · cases htree : p.2.references? with
      | none => exact child?_eq_none hrest
      | some tree => simp [child?]
    · have hne : q.1 ≠ p.1 := fun heq => hstep (heq ▸ List.mem_map_of_mem hp)
      rw [← ih hnodup hp]
      cases q.2.references? <;> simp [child?, hne]

/-- A leaf behind the step of a part is a leaf of the part. -/
theorem mem_partLeaves {parts : List (Step × Template)} (hnodup : (parts.map Prod.fst).Nodup)
    {p : Step × Template} (hp : p ∈ parts) {rest : List Step} {r : Reference} :
    (p.1 :: rest, r) ∈ partLeaves parts ↔ (rest, r) ∈ p.2.leaves := by
  constructor
  · intro hleaf
    obtain ⟨q, hq, ⟨rest', r'⟩, hleaf, heq⟩ := step_of_partLeaves hleaf
    simp only [Prod.mk.injEq, List.cons.injEq] at heq
    obtain ⟨⟨hstep, rfl⟩, rfl⟩ := heq
    obtain rfl := List.inj_on_of_nodup_map hnodup hp hq hstep
    exact hleaf
  · intro hleaf
    exact List.mem_flatMap.mpr ⟨p, hp, List.mem_map.mpr ⟨(rest, r), hleaf, rfl⟩⟩

/-- A reference is found behind steps when it is one of those of the template. -/
theorem at?_iff (ht : t.Distinct) :
    ∀ steps r, t.references?.bind (at? steps) = some r ↔ (steps, r) ∈ t.leaves := by
  refine ht.induction (P := fun t => ∀ steps r,
    t.references?.bind (at? steps) = some r ↔ (steps, r) ∈ t.leaves) (fun h steps r => ?_)
    fun t hwhole ht ih steps r => ?_
  · cases steps with
    | nil => simp [references?, at?, reference?, leaves, holes, eq_comm]
    | cons step rest => simp [references?, at?, child?, leaves, holes]
  rw [references?_eq hwhole, leaves_eq hwhole]
  cases steps with
  | nil =>
    have hnone : (treeOf (partTrees t.parts)).bind (at? []) = none := by
      cases partTrees t.parts <;> rfl
    rw [hnone]
    refine iff_of_false (by simp) fun hleaf => ?_
    obtain ⟨p, -, q, -, heq⟩ := step_of_partLeaves hleaf
    simp at heq
  | cons step rest =>
    rw [bind_treeOf]
    by_cases hstep : step ∈ t.parts.map Prod.fst
    · obtain ⟨p, hp, rfl⟩ := List.mem_map.mp hstep
      rw [child?_partTrees ht.nodup_steps hp, mem_partLeaves ht.nodup_steps hp]
      exact ih p hp rest r
    · -- without a part at the step nothing is behind it
      have hnone : (ReferenceTree.parts (partTrees t.parts)).child? step = none := by
        refine child?_eq_none ?_
        rintro c hc rfl
        exact hstep (step_of_partTrees hc)
      rw [hnone]
      refine iff_of_false (by simp) fun hleaf => ?_
      obtain ⟨p, hp, q, -, heq⟩ := step_of_partLeaves hleaf
      simp only [Prod.mk.injEq, List.cons.injEq] at heq
      exact hstep (heq.1.1 ▸ List.mem_map_of_mem hp)

end Template

namespace Resolution

/-! ## Entries -/

/-- The entry of a value that is no reference as a whole remembers no reference when there is none
inside, and otherwise a tree whose leaves are these references in order, each of them found behind
its own steps.  Where no list is spliced the data of the value, however the references are
resolved, becomes the value as it is written when the references of the tree are put back. -/
theorem entry_remembers {t : Template} (hwhole : ∀ h, t ≠ .hole h) (ht : t.Distinct) :
    (∀ type d, (type = .color → ∃ v, Color.variants d = .ok v) →
      ∃ e, entry type t d = .ok e ∧ e.value = d ∧ e.reference = none ∧
        (e.references = none ↔ t.leaves = []) ∧
        ReferenceTree.noted? t.leaves = some e.references ∧
        ∀ tree, e.references = some tree → tree.leaves = t.leaves ∧
          ∀ steps r, tree.at? steps = some r ↔ (steps, r) ∈ t.leaves) ∧
    ((∀ h, t.HasHole h → h.spliced = false) → ∀ values : Values,
      (∀ h, t.HasHole h →
        ∃ d, valueAt values ⟨h.reference.target, h.reference.mode⟩ = .ok d) →
      ∃ d, t.fill (fun r => valueAt values ⟨r.target, r.mode⟩) = .ok d ∧
        ∀ type e, entry type t d = .ok e →
          match e.references with
          | none => d = t.written
          | some tree => Written.restore tree (.ofData d) = .ok (.ofData t.written)) := by
  have hentry : ∀ d v, entryOf t d v = ⟨d, t.references?, none, v⟩ := by
    intro d v
    cases t with
    | hole h => exact absurd rfl (hwhole h)
    | _ => rfl
  constructor
  · intro type d hcolor
    obtain ⟨v, hv⟩ : ∃ v, variantsOf type d = .ok v := by
      by_cases h : type = .color
      · exact (hcolor h).imp fun v hv => (if_pos h).trans hv
      · exact ⟨[], if_neg h⟩
    refine ⟨_, entry_eq_ok.mpr ⟨v, hv, rfl⟩, ?_⟩
    rw [hentry]
    refine ⟨rfl, rfl, Template.references?_eq_none_iff, Template.noteAll_leaves hwhole ht, ?_⟩
    intro tree (htree : t.references? = some tree)
    refine ⟨Template.leaves_of_references? htree, fun steps r => ?_⟩
    rw [← Template.at?_iff ht, htree, Option.bind_some]
  · intro hspliced values hvalues
    obtain ⟨d, hd⟩ : ∃ d, t.fill (fun r => valueAt values ⟨r.target, r.mode⟩) = .ok d :=
      Template.exists_fill hvalues
    refine ⟨d, hd, fun type e he => ?_⟩
    obtain ⟨v, -, rfl⟩ := entry_eq_ok.mp he
    rw [hentry]
    exact Written.restores_of_fill (ht.steady hspliced) hd

/-- A gradient whose first colour and whose second position are references. -/
def sky : Template :=
  .list
    [.object
      [("color", .hole ⟨⟨"blue", none⟩, .origin, some [.color], false⟩), ("position", .int 0)],
     .object
      [("color", .object [("space", .text "srgb"), ("channels", .list [.int 1, .int 1, .int 1])]),
       ("position", .hole ⟨⟨"half", some "dark"⟩, .origin, some [.number], false⟩)]]

/-- Values for its references, of which the first one has parts itself. -/
def skyValues : Values :=
  [(⟨"blue", "."⟩, .object [("space", .text "srgb"), ("position", .list [.int 0])]),
   (⟨"half", "dark"⟩, .int 1)]

theorem distinct_sky : sky.Distinct := by
  have hscalar : ∀ s, (Template.scalar s).Distinct := .scalar
  have hhole : ∀ h, (Template.hole h).Distinct := .hole
  refine .list _ ?_
  simp only [List.forall_mem_cons, List.not_mem_nil, false_imp_iff, implies_true, and_true]
  refine ⟨.object _ (by decide) (by simp [hscalar, hhole]), .object _ (by decide) ?_⟩
  simp only [List.forall_mem_cons, List.not_mem_nil, false_imp_iff, implies_true, and_true]
  refine ⟨.object _ (by decide) ?_, hhole _⟩
  simp only [List.forall_mem_cons, List.not_mem_nil, false_imp_iff, implies_true, and_true]
  exact ⟨hscalar _, .list _ (by simp [hscalar])⟩

/-- For instance, the parts of the colour that is filled in make no difference. -/
theorem entry_remembers_sky : ∃ d e tree,
    sky.fill (fun r => valueAt skyValues ⟨r.target, r.mode⟩) = .ok d ∧
    entry .gradient sky d = .ok e ∧ e.references = some tree ∧
    tree.leaves = [([.index 0, .field "color"], ⟨"blue", none⟩),
      ([.index 1, .field "position"], ⟨"half", some "dark"⟩)] ∧
    Written.restore tree (.ofData d) = .ok (.ofData sky.written) := by
  have hleaves : sky.leaves = [([.index 0, .field "color"], ⟨"blue", none⟩),
      ([.index 1, .field "position"], ⟨"half", some "dark"⟩)] := rfl
  have hholes : ∀ h, sky.HasHole h → h.spliced = false ∧
      ∃ d, valueAt skyValues ⟨h.reference.target, h.reference.mode⟩ = .ok d := by
    intro h hh
    obtain rfl | rfl : ⟨⟨"blue", none⟩, .origin, some [.color], false⟩ = h ∨
        ⟨⟨"half", some "dark"⟩, .origin, some [.number], false⟩ = h := by
      simpa [sky] using hh
    · exact ⟨rfl, _, rfl⟩
    · exact ⟨rfl, _, rfl⟩
  obtain ⟨hremembers, hrestores⟩ := entry_remembers (t := sky) (by simp [sky]) distinct_sky
  obtain ⟨d, hd, hrestores⟩ :=
    hrestores (fun h hh => (hholes h hh).1) skyValues fun h hh => (hholes h hh).2
  obtain ⟨e, he, -, -, hnone, -, htree⟩ := hremembers .gradient d (by simp)
  obtain ⟨tree, hsome⟩ : ∃ tree, e.references = some tree := by
    rw [← Option.ne_none_iff_exists']
    intro h
    simpa [hleaves] using hnone.mp h
  have hrestored := hrestores .gradient e he
  rw [hsome] at hrestored
  exact ⟨d, e, tree, hd, he, hsome, (htree tree hsome).1.trans hleaves, hrestored⟩

end Resolution

end DesignTokens
