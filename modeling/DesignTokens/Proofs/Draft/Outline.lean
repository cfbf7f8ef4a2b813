import DesignTokens.Proofs.Path
import DesignTokens.Proofs.Tree.OfData
import Mathlib.Data.List.Nodup

/-!
# Outlines of documents

An `Outline` is what is found in a document: tokens, and groups with tokens below them.  Whatever
discovery finds stands in an outline in which the members of each group have distinct names, so all
tokens and all groups have distinct paths.
-/

namespace DesignTokens.Discovery

open Outcome

/-! ## Outlines -/

/-- A token, or a group with what is below it. -/
inductive Outline where
  | token (name : String)
  | group (name : String) (g : Group) (children : List Outline)

namespace Outline

/-- The name of a token or a group. -/
def name : Outline → String
  | .token name => name
  | .group name _ _ => name

mutual

/-- The paths of tokens with those of the groups around them, in order. -/
def tokens (parent : Option String) : Outline → List (String × Option String)
  | .token name => [(Path.below parent name, parent)]
  | .group name _ children => tokensOf (some (Path.below parent name)) children

/-- The paths of the tokens of several outlines. -/
def tokensOf (parent : Option String) : List Outline → List (String × Option String)
  | [] => []
  | o :: os => o.tokens parent ++ tokensOf parent os

end

mutual

/-- The groups, each before the groups below it. -/
def groups : Outline → List Group
  | .token _ => []
  | .group _ g children => g :: groupsOf children

/-- The groups of several outlines. -/
def groupsOf : List Outline → List Group
  | [] => []
  | o :: os => o.groups ++ groupsOf os

end

theorem tokensOf_eq_flatMap (parent : Option String) (os : List Outline) :
    tokensOf parent os = os.flatMap (tokens parent) := by
  induction os with
  | nil => rfl
  | cons o os ih => rw [tokensOf, ih, List.flatMap_cons]

theorem groupsOf_eq_flatMap (os : List Outline) : groupsOf os = os.flatMap groups := by
  induction os with
  | nil => rfl
  | cons o os ih => rw [groupsOf, ih, List.flatMap_cons]

/-- The paths of the tokens right below a group. -/
def members (g : Group) (children : List Outline) : List String :=
  ((tokensOf (some g.id) children).filter fun p => p.2 = some g.id).map Prod.fst

/-- An outline below a group of a path and a type: names are names, a group has a type whenever the
group around it has one, and there is something in it. -/
inductive Standing : Option String → Option TokenType → Outline → Prop where
  /-- A token can stand everywhere. -/
  | token {parent : Option String} {type : Option TokenType} (name : String) :
      isReserved name = false → isName name = true → Standing parent type (.token name)
  /-- A group can stand where its children can stand below it. -/
  | group {parent : Option String} {type : Option TokenType} (name : String) (g : Group)
      (children : List Outline) : isReserved name = false → isName name = true →
      g.id = Path.below parent name → (g.type = none → type = none) →
      g.members = members g children → children ≠ [] → (children.map Outline.name).Nodup →
      (∀ c ∈ children, Standing (some g.id) g.type c) →
      Standing parent type (.group name g children)

/-- Where an outline can stand it can also stand without a type around it. -/
theorem Standing.untyped {parent : Option String} {type : Option TokenType} {o : Outline}
    (h : Standing parent type o) : Standing parent none o := by
  cases h with
  | token name hreserved hname => exact .token name hreserved hname
  | group name g children hreserved hname hid _ hmembers hne hnodup hall =>
    exact .group name g children hreserved hname hid (fun _ => rfl) hmembers hne hnodup hall

theorem Standing.isName {parent : Option String} {type : Option TokenType} {o : Outline}
    (h : Standing parent type o) : isReserved o.name = false ∧ isName o.name = true := by
  cases h with
  | token name hreserved hname => exact ⟨hreserved, hname⟩
  | group name g children hreserved hname => exact ⟨hreserved, hname⟩

/-! ## Distinct paths -/

/-- Every token of an outline has the name of the outline on its path. -/
theorem Standing.names_token {parent : Option String} {type : Option TokenType} {o : Outline}
    (h : Standing parent type o) :
    ∀ p ∈ o.tokens parent, ∃ rest, Path.names p.1 = Path.namesOf parent ++ o.name :: rest := by
  induction h with
  | token name _ hname =>
    intro p hp
    obtain rfl : p = _ := by simpa [tokens] using hp
    exact ⟨[], Path.names_below hname _⟩
  | @group parent type name g children _ hname hid _ _ _ _ _ ih =>
    intro p hp
    rw [tokens, tokensOf_eq_flatMap, ← hid, List.mem_flatMap] at hp
    obtain ⟨c, hc, hp⟩ := hp
    obtain ⟨rest, hrest⟩ := ih c hc p hp
    -- the path of a token inside goes on with the name of the outline that it is in
    exact ⟨c.name :: rest, by rw [hrest, hid, Path.namesOf_below_append hname, Outline.name]⟩

/-- Every group of an outline has the name of the outline on its path. -/
theorem Standing.names_group {parent : Option String} {type : Option TokenType} {o : Outline}
    (h : Standing parent type o) :
    ∀ g ∈ o.groups, ∃ rest, Path.names g.id = Path.namesOf parent ++ o.name :: rest := by
  induction h with
  | token name _ hname => simp [groups]
  | @group parent type name g children _ hname hid _ _ _ _ _ ih =>
    intro p hp
    rw [groups, groupsOf_eq_flatMap, List.mem_cons, List.mem_flatMap] at hp
    rcases hp with rfl | ⟨c, hc, hp⟩
    · exact ⟨[], by rw [hid, Path.names_below hname]; rfl⟩
    · obtain ⟨rest, hrest⟩ := ih c hc p hp
      exact ⟨c.name :: rest, by rw [hrest, hid, Path.namesOf_below_append hname, Outline.name]⟩

/-- What belongs to outlines with distinct names, under paths that have those names on them, has
distinct paths when that is so in each outline. -/
theorem nodup_flatMap {α : Type} {path : α → String} {below : Outline → List α}
    {pre : List String} {os : List Outline} (hnames : (os.map Outline.name).Nodup)
    (hpath : ∀ o ∈ os, ∀ a ∈ below o, ∃ rest, Path.names (path a) = pre ++ o.name :: rest)
    (hnodup : ∀ o ∈ os, ((below o).map path).Nodup) :
    ((os.flatMap below).map path).Nodup := by
  induction os with
  | nil => simp
  | cons o os ih =>
    obtain ⟨hnew, hnames⟩ := List.nodup_cons.mp hnames
    rw [List.flatMap_cons, List.map_append]
    refine List.nodup_append.mpr ⟨hnodup o List.mem_cons_self, ih hnames
      (fun u hu => hpath u (List.mem_cons_of_mem _ hu))
      (fun u hu => hnodup u (List.mem_cons_of_mem _ hu)), ?_⟩
    rintro _ hfirst _ hlater rfl
    obtain ⟨a, ha, rfl⟩ := List.mem_map.mp hfirst
    obtain ⟨b, hb, hab⟩ := List.mem_map.mp hlater
    obtain ⟨u, hu, hb⟩ := List.mem_flatMap.mp hb
    obtain ⟨rest, hrest⟩ := hpath o List.mem_cons_self a ha
    obtain ⟨rest', hrest'⟩ := hpath u (List.mem_cons_of_mem _ hu) b hb
    -- the same path would have the names of both outlines in the same place
    rw [hab, hrest] at hrest'
    have hsame := (List.append_right_inj pre).mp hrest'
    simp only [List.cons.injEq] at hsame
    exact hnew (hsame.1 ▸ List.mem_map_of_mem hu)

theorem Standing.tokens_nodup {parent : Option String} {type : Option TokenType} {o : Outline}
    (h : Standing parent type o) : ((o.tokens parent).map Prod.fst).Nodup := by
  induction h with
  | token name => simp [tokens]
  | @group parent type name g children _ _ hid _ _ _ hnodup hall ih =>
    rw [tokens, tokensOf_eq_flatMap, ← hid]
    exact nodup_flatMap hnodup (fun c hc => (hall c hc).names_token) ih

/-- The groups of an outline have distinct paths. -/
theorem Standing.groups_nodup {parent : Option String} {type : Option TokenType} {o : Outline}
    (h : Standing parent type o) : (o.groups.map Group.id).Nodup := by
  induction h with
  | token name => simp [groups]
  | @group parent type name g children _ hname hid _ _ _ hnodup hall ih =>
    rw [groups, groupsOf_eq_flatMap, List.map_cons]
    refine List.nodup_cons.mpr ⟨?_, nodup_flatMap hnodup (fun c hc => (hall c hc).names_group) ih⟩
    -- a group below has more names on its path
    intro hmem
    obtain ⟨b, hb, hid'⟩ := List.mem_map.mp hmem
    obtain ⟨c, hc, hb⟩ := List.mem_flatMap.mp hb
    obtain ⟨rest, hrest⟩ := (hall c hc).names_group b hb
    rw [hid'] at hrest
    have hlength := congrArg List.length hrest
    simp [Path.namesOf] at hlength

/-- Outlines next to each other, with distinct names. -/
structure Forest (parent : Option String) (type : Option TokenType) (os : List Outline) : Prop where
  nodup : (os.map Outline.name).Nodup
  standing : ∀ o ∈ os, Standing parent type o

theorem Forest.tokens_nodup {parent : Option String} {type : Option TokenType}
    {os : List Outline} (h : Forest parent type os) :
    ((tokensOf parent os).map Prod.fst).Nodup := by
  rw [tokensOf_eq_flatMap]
  exact nodup_flatMap h.nodup (fun o ho => (h.standing o ho).names_token)
    fun o ho => (h.standing o ho).tokens_nodup

theorem Forest.groups_nodup {parent : Option String} {type : Option TokenType}
    {os : List Outline} (h : Forest parent type os) : ((groupsOf os).map Group.id).Nodup := by
  rw [groupsOf_eq_flatMap]
  exact nodup_flatMap h.nodup (fun o ho => (h.standing o ho).names_group)
    fun o ho => (h.standing o ho).groups_nodup

/-- There is a token in every outline. -/
theorem Standing.tokens_ne_nil {parent : Option String} {type : Option TokenType} {o : Outline}
    (h : Standing parent type o) : o.tokens parent ≠ [] := by
  induction h with
  | token name => simp [tokens]
  | @group parent type name g children _ _ hid _ _ hne _ _ ih =>
    obtain ⟨c, rest, rfl⟩ := List.exists_cons_of_ne_nil hne
    have hc := ih c List.mem_cons_self
    rw [tokens, tokensOf, ← hid]
    simp [hc]

end Outline

end DesignTokens.Discovery
