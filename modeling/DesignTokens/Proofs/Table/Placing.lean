import DesignTokens.Proofs.Draft.Rediscovery
import DesignTokens.Proofs.Table.Restoring
import DesignTokens.Table.ToData

/-!
# Tokens in their places

A table is written token by token, each at its path.  The tokens of a group follow each other, so
what comes out is the outline of the document as data (`document_eq`).
-/

namespace DesignTokens

open Outcome Written

theorem Written.setMember_setMember (step : Step) (a b : Written) (ms : List (Step × Written)) :
    setMember step b (setMember step a ms) = setMember step b ms := by
  induction ms with
  | nil => simp [setMember]
  | cons p ms ih =>
    obtain ⟨s, w⟩ := p
    by_cases h : s = step <;> simp [setMember, h, ih]

namespace Discovery.Outline

/-! ## Ways to tokens -/

mutual

/-- The names that lead to the tokens of an outline, with the paths of the tokens. -/
def sites (parent : Option String) : Outline → List (List String × String)
  | .token name => [([name], Path.below parent name)]
  | .group name _ children =>
    (sitesOf (some (Path.below parent name)) children).map fun s => (name :: s.1, s.2)

/-- The same for several outlines. -/
def sitesOf (parent : Option String) : List Outline → List (List String × String)
  | [] => []
  | o :: os => o.sites parent ++ sitesOf parent os

end

theorem sitesOf_eq_flatMap (parent : Option String) (os : List Outline) :
    sitesOf parent os = os.flatMap (sites parent) := by
  induction os with
  | nil => rfl
  | cons o os ih => rw [sitesOf, ih, List.flatMap_cons]

/-- The names of the path of a token are those of the path above the outline, and those that lead
to the token. -/
theorem Standing.map_sites {parent : Option String} {type : Option TokenType} {o : Outline}
    (h : Standing parent type o) :
    (o.sites parent).map (fun s => (Path.namesOf parent ++ s.1, s.2)) =
      (o.tokens parent).map fun p => (Path.names p.1, p.1) := by
  induction h with
  | token name _ hname => simp [sites, tokens, Path.names_below hname]
  | @group parent type name g children _ hname hid _ _ _ _ _ ih =>
    rw [sites, tokens, ← hid, sitesOf_eq_flatMap, tokensOf_eq_flatMap, List.map_map,
      List.map_flatMap, List.map_flatMap]
    refine List.flatMap_congr fun c hc => ?_
    rw [← ih c hc, Path.namesOf, hid, Path.names_below hname]
    refine List.map_congr_left fun s _ => ?_
    simp

/-- There is a way to a token in every outline. -/
theorem Standing.sites_ne_nil {parent : Option String} {type : Option TokenType} {o : Outline}
    (h : Standing parent type o) : o.sites parent ≠ [] := by
  intro hnil
  have hmap := h.map_sites
  rw [hnil, List.map_nil] at hmap
  exact h.tokens_ne_nil (List.map_eq_nil_iff.mp hmap.symm)

/-- Every way has a name on it. -/
theorem way_ne_nil {parent : Option String} {o : Outline} {s : List String × String}
    (hs : s ∈ o.sites parent) : s.1 ≠ [] := by
  cases o with
  | token name =>
    rw [sites, List.mem_singleton] at hs
    simp [hs]
  | group name g children =>
    rw [sites, List.mem_map] at hs
    obtain ⟨q, -, rfl⟩ := hs
    simp

end Discovery.Outline

namespace Table

open Discovery Discovery.Outline

variable {t : Table} {node : String → Data}

/-- A part of a document with the data of a token at the end of a way. -/
def placeAt (t : Table) (node : String → Data) (parent : Option String) (part : Written)
    (s : List String × String) : Except Fault Written :=
  t.place (.ok (ofData (node s.2))) s.1 parent part

/-- Tokens below a name are placed in the part of that name, which is there or is made. -/
theorem foldlM_below (parent : Option String) (name : String) (s : List String × String)
    (ss : List (List String × String)) (hne : ∀ q ∈ s :: ss, q.1 ≠ [])
    (ms : List (Step × Written)) :
    ((s :: ss).map fun q => (name :: q.1, q.2)).foldlM (placeAt t node parent) (.object ms) = (do
      let inner ← (s :: ss).foldlM (placeAt t node (some (Path.below parent name)))
        ((member? (.field name) ms).getD (t.groupNode (Path.below parent name)))
      return .object (setMember (.field name) inner ms)) := by
  -- the first token finds the part as it is, every other one as the token before has left it
  have hfirst : ∀ (q : List String × String) (ms : List (Step × Written)), q.1 ≠ [] →
      placeAt t node parent (.object ms) (name :: q.1, q.2) = (do
        let inner ← placeAt t node (some (Path.below parent name))
          ((member? (.field name) ms).getD (t.groupNode (Path.below parent name))) q
        return .object (setMember (.field name) inner ms)) := by
    rintro ⟨path, id⟩ ms hne
    obtain ⟨x, xs, rfl⟩ := List.exists_cons_of_ne_nil hne
    rw [placeAt, placeAt, place]
    exact hne
  induction ss generalizing s ms with
  | nil =>
    rw [List.map_singleton, List.foldlM_cons, List.foldlM_cons, hfirst s ms (hne s (by simp))]
    simp
  | cons s' ss ih =>
    rw [List.map_cons, List.foldlM_cons, List.foldlM_cons, hfirst s ms (hne s (by simp)),
      bind_assoc, bind_assoc]
    congr 1
    funext inner
    rw [pure_bind, ih s' fun q hq => hne q (List.mem_cons_of_mem _ hq)]
    simp [member?_setMember, setMember_setMember]

theorem groupNode_eq {g : Group} (h : Members.get? g.id t.groups = some g) :
    t.groupNode g.id = .object (ofMembers (header g)) := by
  have hmap : ∀ {α : Type} (name : String) (a : Option α) (f : α → Data),
      (a.map fun x => (name, f x)).toList = Members.optional name (a.map f) := by
    intro α name a f
    cases a <;> rfl
  -- extensions that are empty are left out
  have hextensions : (if g.extensions.isEmpty then []
      else [("$extensions", Data.object g.extensions)]) =
        Members.optional "$extensions" (extensionsData g.extensions) := by
    rw [extensionsData]
    split <;> rfl
  rw [groupNode, h, header]
  simp only [hmap, hextensions, ofData]

/-- Outlines with distinct names are placed one after the other. -/
theorem foldlM_sitesOf {parent : Option String} {os : List Outline}
    (hnodup : (os.map Outline.name).Nodup)
    (h : ∀ o ∈ os, ∀ ms, member? (.field o.name) ms = none →
      (o.sites parent).foldlM (placeAt t node parent) (.object ms) =
        .ok (.object (ms ++ [(.field o.name, ofData (o.data node parent))])))
    (ms : List (Step × Written)) (hnew : ∀ o ∈ os, member? (.field o.name) ms = none) :
    (sitesOf parent os).foldlM (placeAt t node parent) (.object ms) =
      .ok (.object (ms ++ ofMembers (dataOf node parent os))) := by
  induction os generalizing ms with
  | nil =>
    rw [sitesOf, dataOf, ofMembers, List.append_nil]
    rfl
  | cons o os ih =>
    obtain ⟨hname, hnodup⟩ := List.nodup_cons.mp hnodup
    have hrest := ih hnodup (fun u hu => h u (List.mem_cons_of_mem _ hu))
      (ms ++ [(.field o.name, ofData (o.data node parent))]) fun u hu => by
        -- the outline that was placed has another name
        have hne : o.name ≠ u.name := fun heq => hname (heq ▸ List.mem_map_of_mem hu)
        rw [member?_append (hnew u (List.mem_cons_of_mem _ hu))]
        simp [member?, hne]
    rw [sitesOf, List.foldlM_append, h o List.mem_cons_self ms (hnew o List.mem_cons_self), dataOf,
      ofMembers]
    rwa [List.append_assoc] at hrest

/-- An outline is placed as its data, in an object that has nothing of its name yet. -/
theorem foldlM_sites {parent : Option String} {type : Option TokenType} {o : Outline}
    (h : Standing parent type o) (hgroups : ∀ g ∈ o.groups, Members.get? g.id t.groups = some g)
    (ms : List (Step × Written)) (hnew : member? (.field o.name) ms = none) :
    (o.sites parent).foldlM (placeAt t node parent) (.object ms) =
      .ok (.object (ms ++ [(.field o.name, ofData (o.data node parent))])) := by
  induction h generalizing ms with
  | @token parent type name _ _ =>
    rw [Outline.name] at hnew
    rw [sites, List.foldlM_cons, placeAt, place]
    simp only [bind, Except.bind, pure, Except.pure, setMember_of_none hnew]
    rw [List.foldlM_nil, Outline.data, Outline.name]
    rfl
  | @group parent type name g children hreserved hname hid htype hmembers hne hnodup hall ih =>
    rw [Outline.groups] at hgroups
    rw [Outline.name] at hnew
    -- the group starts as its header, and its children come after it
    have hgroup := groupNode_eq (hgroups g List.mem_cons_self)
    have hchildren : (sitesOf (some g.id) children).foldlM (placeAt t node (some g.id))
        (.object (ofMembers (header g))) =
          .ok (.object (ofMembers (header g) ++ ofMembers (dataOf node (some g.id) children))) := by
      refine foldlM_sitesOf hnodup (fun c hc ms hms => ih c hc (fun u hu => hgroups u ?_) ms hms)
        _ fun c hc => ?_
      · rw [groupsOf_eq_flatMap]
        exact List.mem_cons_of_mem _ (List.mem_flatMap.mpr ⟨c, hc, hu⟩)
      · -- the names in the header are reserved, so no child has one of them
        refine member?_ofMembers_of_not_mem fun hmem => ?_
        obtain ⟨m, hm, hmname⟩ := List.mem_map.mp hmem
        have hreserved := isReserved_header hm
        rw [hmname, (hall c hc).isName.1] at hreserved
        cases hreserved
    -- a group is made by its first token
    obtain ⟨s, ss, hsites⟩ : ∃ s ss, sitesOf (some g.id) children = s :: ss := by
      obtain ⟨c, rest, rfl⟩ := List.exists_cons_of_ne_nil hne
      refine List.exists_cons_of_ne_nil ?_
      rw [sitesOf, ne_eq, List.append_eq_nil_iff, not_and]
      exact fun hnil => absurd hnil (hall c List.mem_cons_self).sites_ne_nil
    have hways : ∀ q ∈ s :: ss, q.1 ≠ [] := by
      intro q hq
      rw [← hsites, sitesOf_eq_flatMap, List.mem_flatMap] at hq
      obtain ⟨c, -, hq⟩ := hq
      exact way_ne_nil hq
    rw [sites, ← hid, hsites, foldlM_below parent name s ss hways ms, ← hid, hnew, ← hsites]
    simp only [Option.getD_none, hgroup, hchildren, bind, Except.bind, pure, Except.pure]
    rw [setMember_of_none hnew, Outline.data, ← hid, Outline.name, ofData, ofMembers_append]

/-! ## Documents -/

/-- A table whose tokens and groups are those of a forest is written as the data of the forest. -/
theorem document_eq {os : List Outline} (hos : Forest none none os)
    (hnames : t.tokens.names = (tokensOf none os).map Prod.fst)
    (hnode : ∀ p ∈ t.tokens, p.2.id = p.1 ∧ t.tokenNode p.2 = .ok (ofData (node p.1)))
    (hgroups : t.groups = (groupsOf os).map fun g => (g.id, g)) :
    t.document = .ok (ofData (.object (dataOf node none os))) := by
  have hget : ∀ g ∈ groupsOf os, Members.get? g.id t.groups = some g := by
    intro g hg
    have hnodup : t.groups.names.Nodup := by
      rw [hgroups, Members.names, List.map_map]
      exact hos.groups_nodup
    rw [Members.get?_eq_some_iff hnodup, hgroups]
    exact List.mem_map_of_mem hg
  -- the tokens of the table with their paths are the ways of the forest
  have hways : t.tokens.map (fun p => (Path.names p.1, p.1)) = sitesOf none os := by
    have hmap : t.tokens.map (fun p => (Path.names p.1, p.1)) =
        (tokensOf none os).map fun p => (Path.names p.1, p.1) := by
      have hsame := congrArg (List.map fun id => (Path.names id, id)) hnames
      simpa only [Members.names, List.map_map, Function.comp_def] using hsame
    rw [hmap, tokensOf_eq_flatMap, sitesOf_eq_flatMap, List.map_flatMap]
    refine List.flatMap_congr fun o ho => ?_
    rw [← (hos.standing o ho).map_sites]
    simp [Path.namesOf]
  -- the document is placed token by token
  have hfold : t.document = (sitesOf none os).foldlM (placeAt t node none) (.object []) := by
    rw [← hways, List.foldlM_map, document]
    refine foldlM_congr (fun p hp part => ?_) _
    obtain ⟨hid, hnode⟩ := hnode p hp
    dsimp only
    rw [hid, hnode, placeAt]
  rw [hfold, foldlM_sitesOf hos.nodup (fun o ho ms hms => foldlM_sites (hos.standing o ho)
    (fun g hg => hget g ?_) ms hms) [] fun _ _ => rfl]
  · rfl
  · rw [groupsOf_eq_flatMap]
    exact List.mem_flatMap.mpr ⟨o, ho, hg⟩

end Table

end DesignTokens
