import DesignTokens.Proofs.Draft.Positions

/-!
# Groups and their tokens

A group counts when there is a token somewhere below it, so the groups around a group that counts
count as well.  A token is a member of the group right around it and of no other one.  A walk through
a document gets there by marks, which it sets for each token up to the first one that is set; that
these are the marks of the groups with tokens below them is `Discovery.walkMembers_after`.

## Main statement

* `Discovery.inDocument_groups`: the groups and the tokens that are found in a document fit together
  (`Found.Grouped`).
-/

namespace DesignTokens

open Outcome

namespace Discovery

namespace Outline

variable {parent : Option String} {type : Option TokenType} {o : Outline} {os : List Outline}

/-! ## Groups around tokens -/

/-- The group of a token has the names of the token but the last one. -/
theorem Standing.namesOf_group (h : Standing parent type o) :
    ∀ t ∈ o.tokens parent, Path.namesOf t.2 = (Path.names t.1).dropLast := by
  induction h with
  | token name _ hname =>
    intro t ht
    obtain rfl : t = _ := by simpa [tokens] using ht
    rw [Path.names_below hname, List.dropLast_concat]
  | @group parent type name g children _ _ hid _ _ _ _ _ ih =>
    intro t ht
    rw [tokens, tokensOf_eq_flatMap, ← hid, List.mem_flatMap] at ht
    obtain ⟨c, hc, ht⟩ := ht
    exact ih c hc t ht

/-- Somewhere below each group there is a token. -/
theorem Standing.exists_beneath (h : Standing parent type o) :
    ∀ g ∈ o.groups, ∃ t ∈ o.tokens parent, Path.Beneath t.1 g.id := by
  induction h with
  | token name => simp [groups]
  | @group parent type name g children _ _ hid _ _ hne _ hall ih =>
    intro g' hg'
    rw [tokens, tokensOf_eq_flatMap, ← hid]
    rw [groups, groupsOf_eq_flatMap, List.mem_cons, List.mem_flatMap] at hg'
    obtain rfl | ⟨c, hc, hg'⟩ := hg'
    · -- any of the children has a token
      obtain ⟨c, hc⟩ := List.exists_mem_of_ne_nil _ hne
      obtain ⟨t, ht⟩ := List.exists_mem_of_ne_nil _ (hall c hc).tokens_ne_nil
      obtain ⟨rest, hrest⟩ := (hall c hc).names_token t ht
      exact ⟨t, List.mem_flatMap.mpr ⟨c, hc, ht⟩, c.name :: rest, by simp, hrest⟩
    · obtain ⟨t, ht, hbeneath⟩ := ih c hc g' hg'
      exact ⟨t, List.mem_flatMap.mpr ⟨c, hc, ht⟩, hbeneath⟩

/-- On the way from the group around an outline down to a token in it there are groups only. -/
theorem Standing.exists_group (h : Standing parent type o) :
    ∀ t ∈ o.tokens parent, ∀ way rest, way ≠ [] → rest ≠ [] →
      Path.names t.1 = Path.namesOf parent ++ way ++ rest →
      ∃ g ∈ o.groups, Path.names g.id = Path.namesOf parent ++ way := by
  induction h with
  | token name _ hname =>
    intro t ht way rest hway hrest hnames
    obtain rfl : t = _ := by simpa [tokens] using ht
    -- between the group and the token there is nothing
    rw [Path.names_below hname, List.append_assoc, List.append_right_inj] at hnames
    have hlength := congrArg List.length hnames
    have := List.length_pos_iff.mpr hway
    have := List.length_pos_iff.mpr hrest
    simp only [List.length_singleton, List.length_append] at hlength
    omega
  | @group parent type name g children _ hname hid _ _ _ _ hall ih =>
    intro t ht way rest hway hrest hnames
    rw [tokens, tokensOf_eq_flatMap, ← hid, List.mem_flatMap] at ht
    obtain ⟨c, hc, ht⟩ := ht
    have hbelow (l : List String) :
        Path.namesOf (some g.id) ++ l = Path.namesOf parent ++ name :: l := by
      rw [hid, Path.namesOf_below_append hname]
    obtain ⟨more, hmore⟩ := (hall c hc).names_token t ht
    obtain ⟨first, way, rfl⟩ := List.exists_cons_of_ne_nil hway
    -- the way starts with the name of the outline
    have hstart : name :: c.name :: more = first :: (way ++ rest) := by
      rw [hmore, hbelow, List.append_assoc, List.append_right_inj] at hnames
      exact hnames
    obtain ⟨rfl, -⟩ := List.cons.inj hstart
    by_cases hend : way = []
    · subst hend
      exact ⟨g, by simp [groups], by rw [hid, Path.names_below hname]⟩
    · -- from there it goes on inside the group
      have hinside : Path.names t.1 = Path.namesOf (some g.id) ++ way ++ rest := by
        rw [hnames, hbelow]
      obtain ⟨g', hg', hway'⟩ := ih c hc t ht way rest hend hrest hinside
      refine ⟨g', ?_, hway'.trans (hbelow way)⟩
      rw [groups, groupsOf_eq_flatMap]
      exact List.mem_cons_of_mem _ (List.mem_flatMap.mpr ⟨c, hc, hg'⟩)

/-- A path is that of a group when there is a token somewhere below it. -/
theorem Forest.mem_groupsOf_iff (h : Forest none type os) {path : String} :
    path ∈ (groupsOf os).map Group.id ↔ ∃ t ∈ tokensOf none os, Path.Beneath t.1 path := by
  rw [groupsOf_eq_flatMap, tokensOf_eq_flatMap]
  constructor
  · intro hpath
    obtain ⟨g, hg, rfl⟩ := List.mem_map.mp hpath
    obtain ⟨o, ho, hg⟩ := List.mem_flatMap.mp hg
    obtain ⟨t, ht, hbeneath⟩ := (h.standing o ho).exists_beneath g hg
    exact ⟨t, List.mem_flatMap.mpr ⟨o, ho, ht⟩, hbeneath⟩
  · rintro ⟨t, ht, rest, hrest, hnames⟩
    obtain ⟨o, ho, ht⟩ := List.mem_flatMap.mp ht
    obtain ⟨g, hg, hpath⟩ := (h.standing o ho).exists_group t ht (Path.names path) rest
      (Path.names_ne_nil path) hrest hnames
    rw [← Path.names_injective hpath]
    exact List.mem_map_of_mem (List.mem_flatMap.mpr ⟨o, ho, hg⟩)

/-! ## Members of groups -/

/-- What is looked for in outlines with distinct names, and can be in one of them only, is found
there. -/
theorem filter_flatMap {α : Type} {below : Outline → List α} {q : α → Bool}
    (hnames : (os.map Outline.name).Nodup) (ho : o ∈ os)
    (hq : ∀ u ∈ os, ∀ a ∈ below u, q a = true → u.name = o.name) :
    (os.flatMap below).filter q = (below o).filter q := by
  induction os with
  | nil => simp at ho
  | cons u os ih =>
    obtain ⟨hnew, hnames⟩ := List.nodup_cons.mp hnames
    obtain ⟨hu, hrest⟩ := List.forall_mem_cons.mp hq
    rw [List.flatMap_cons, List.filter_append]
    obtain rfl | ho := List.mem_cons.mp ho
    · -- the names of the others are different
      have hothers : (os.flatMap below).filter q = [] := by
        refine List.filter_eq_nil_iff.mpr fun a ha hqa => ?_
        obtain ⟨v, hv, ha⟩ := List.mem_flatMap.mp ha
        exact hnew (hrest v hv a ha hqa ▸ List.mem_map_of_mem hv)
      rw [hothers, List.append_nil]
    · have hfirst : (below u).filter q = [] := by
        refine List.filter_eq_nil_iff.mpr fun a ha hqa => ?_
        exact hnew (hu a ha hqa ▸ List.mem_map_of_mem ho)
      rw [hfirst, List.nil_append, ih hnames ho hrest]

/-- The tokens of a group in one of several outlines are in this outline. -/
theorem Forest.filter_tokensOf (h : Forest parent type os) (ho : o ∈ os) {g : Group}
    (hg : g ∈ o.groups) :
    (tokensOf parent os).filter (fun t => t.2 = some g.id) =
      (o.tokens parent).filter fun t => t.2 = some g.id := by
  rw [tokensOf_eq_flatMap]
  refine filter_flatMap h.nodup ho fun u hu t ht hgroup => ?_
  -- the token has the name of its outline on its path, and the group that of the other one
  obtain ⟨more, hmore⟩ := (h.standing u hu).names_token t ht
  obtain ⟨rest, hrest⟩ := (h.standing o ho).names_group g hg
  have hnames := (h.standing u hu).namesOf_group t ht
  rw [of_decide_eq_true hgroup, Path.namesOf, hrest, hmore] at hnames
  cases more with
  | nil =>
    -- a token that stands here has no group of this outline
    have hlength := congrArg List.length hnames
    simp at hlength
  | cons name more =>
    rw [List.dropLast_append_of_ne_nil (by simp), List.append_right_inj,
      List.dropLast_cons_cons] at hnames
    exact (List.cons.inj hnames).1.symm

/-- A group has the tokens right below it as its members. -/
def MembersIn (tokens : List (String × Option String)) (g : Group) : Prop :=
  g.members = (tokens.filter fun t => t.2 = some g.id).map Prod.fst

theorem Forest.membersIn (h : Forest parent type os)
    (hinside : ∀ o ∈ os, ∀ g ∈ o.groups, MembersIn (o.tokens parent) g) :
    ∀ g ∈ groupsOf os, MembersIn (tokensOf parent os) g := by
  intro g hg
  rw [groupsOf_eq_flatMap, List.mem_flatMap] at hg
  obtain ⟨o, ho, hg⟩ := hg
  rw [MembersIn, h.filter_tokensOf ho hg]
  exact hinside o ho g hg

theorem Standing.membersIn (h : Standing parent type o) :
    ∀ g ∈ o.groups, MembersIn (o.tokens parent) g := by
  induction h with
  | token name => simp [groups]
  | @group parent type name g children _ _ hid _ hmembers _ hnodup hall ih =>
    intro g' hg'
    rw [tokens, ← hid]
    obtain rfl | hg' := List.mem_cons.mp hg'
    · exact hmembers
    · exact Forest.membersIn ⟨hnodup, hall⟩ ih g' hg'

end Outline

open Outline

/-! ## What is found fits together -/

/-- Groups and tokens that were found in a document fit together. -/
structure Found.Grouped (found : Found) (root : Tree) : Prop where
  /-- The tokens are listed in the order of the document. -/
  tokens : found.drafts.map Draft.id =
    (root.positions.filter isToken).map fun p => ".".intercalate p.names
  /-- The groups are listed in the order of the document, each before the groups below it. -/
  groups : found.groups.map Group.id =
    (root.positions.filter isGroup).map fun p => ".".intercalate p.names
  /-- No two groups have the same path. -/
  nodup : (found.groups.map Group.id).Nodup
  /-- A path is that of a group that counts when there is a token somewhere below it. -/
  kept : ∀ path, path ∈ found.groups.map Group.id ↔ ∃ d ∈ found.drafts, Path.Beneath d.id path
  /-- The groups around a group that counts count as well. -/
  closed : ∀ path ∈ found.groups.map Group.id, ∀ above, Path.Beneath path above →
    above ∈ found.groups.map Group.id
  /-- The members of a group are the tokens right below it, in order and without repetition. -/
  members : ∀ g ∈ found.groups, g.members = (found.drafts.filter fun d =>
      (Path.names d.id).dropLast = Path.names g.id).map Draft.id ∧ g.members.Nodup
  /-- The group of a token is the one right around it. -/
  enclosing : ∀ d ∈ found.drafts, d.group = Path.ofNames (Path.names d.id).dropLast
  /-- The group of a token is there and has the token as a member once. -/
  listed : ∀ d ∈ found.drafts, ∀ id, d.group = some id →
    ∃ g ∈ found.groups, g.id = id ∧ g.members.count d.id = 1

/-- The groups that are found in a document are those with a token below them, in the order of the
document and with the groups around them.  Each of them lists the tokens right below it, and each
token that is not at the top is listed by the group right around it. -/
theorem inDocument_groups {root : Tree} (hroot : root.WellKeyed) {found : Found}
    (h : inDocument root = .ok found) : found.Grouped root := by
  have hcovers := inDocument_covers hroot h
  obtain ⟨os, hos, hdrafts, hgroups, -⟩ := inDocument_spec hroot h
  have hkept : ∀ path, path ∈ found.groups.map Group.id ↔
      ∃ d ∈ found.drafts, Path.Beneath d.id path := by
    intro path
    rw [hgroups, hos.mem_groupsOf_iff, ← hdrafts]
    simp
  have hmembers : ∀ g ∈ found.groups, g.members = (found.drafts.filter fun d =>
      (Path.names d.id).dropLast = Path.names g.id).map Draft.id := by
    intro g hg
    have hin := hos.membersIn (fun o ho => (hos.standing o ho).membersIn) g (hgroups ▸ hg)
    -- a draft names its group where its path is right below that of the group
    rw [hin, ← hdrafts, List.filter_map, List.map_map]
    refine congrArg _ (List.filter_congr fun d hd => ?_)
    exact decide_eq_decide.mpr (located_of_mem h hd).group_eq_some_iff
  have hnodup : ∀ g ∈ found.groups, g.members.Nodup := by
    intro g hg
    rw [hmembers g hg]
    exact (ids_nodup hroot h).sublist (List.filter_sublist.map _)
  refine ⟨by simpa using hcovers.ids, by simpa using hcovers.groupIds, hgroups ▸ hos.groups_nodup,
    hkept, ?_, fun g hg => ⟨hmembers g hg, hnodup g hg⟩, fun d hd => (located_of_mem h hd).group_eq, ?_⟩
  · -- a token below a group is below all the groups around it
    intro path hpath above habove
    obtain ⟨d, hd, hbeneath⟩ := (hkept path).mp hpath
    exact (hkept above).mpr ⟨d, hd, hbeneath.trans habove⟩
  · -- the draft is below its group, so the group counts and has the draft among its members
    intro d hd id hid
    have hright := (located_of_mem h hd).group_eq_some_iff.mp hid
    have hbeneath : Path.Beneath d.id id :=
      ⟨[(Path.names d.id).getLast (Path.names_ne_nil _)], by simp, by
        rw [← hright, List.dropLast_append_getLast]⟩
    obtain ⟨g, hg, rfl⟩ := List.mem_map.mp ((hkept id).mpr ⟨d, hd, hbeneath⟩)
    refine ⟨g, hg, rfl, List.count_eq_one_of_mem (hnodup g hg) ?_⟩
    rw [hmembers g hg]
    exact List.mem_map_of_mem (List.mem_filter.mpr ⟨hd, decide_eq_true hright⟩)

/-- A document with a group inside a group, a group without tokens in it, and a token at the top. -/
def groupsInside : Tree :=
  (Data.object [
    ("size", .object [
      ("gap", .object [("wide", .object [("$type", .text "number"), ("$value", .int 2)])]),
      ("none", .object [("inner", .object [])]),
      ("base", .object [("$type", .text "number"), ("$value", .int 1)])]),
    ("one", .object [("$type", .text "number"), ("$value", .int 1)])]).tree

/-- For instance, `size` has one token right below it, and a group that has another one. -/
theorem inDocument_groups_groupsInside : groupsInside.WellKeyed ∧ ∃ found,
    inDocument groupsInside = .ok found ∧ found.Grouped groupsInside ∧
      found.groups.map (fun g => (g.id, g.members)) =
        [("size", ["size.base"]), ("size.gap", ["size.gap.wide"])] := by
  have hkeyed : groupsInside.WellKeyed := by decide +kernel
  have hfound : inDocument groupsInside =
      .ok ((inDocument groupsInside).toOption.getD .empty) := rfl
  exact ⟨hkeyed, _, hfound, inDocument_groups hkeyed hfound, by decide +kernel⟩

end Discovery

end DesignTokens
