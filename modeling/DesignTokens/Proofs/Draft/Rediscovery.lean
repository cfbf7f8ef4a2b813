import DesignTokens.Proofs.Draft.Discovery

/-!
# Finding what was written

A token or a group is written with what is said about it, and a group with its members behind.  In
an outline that is written so everything is found again (`inDocument_data`).
-/

namespace DesignTokens

open Outcome

namespace Discovery

/-! ## What is said about a group or a token -/

/-- Extensions as they are written: not at all when there are none. -/
def extensionsData (extensions : Members Data) : Option Data :=
  if extensions.isEmpty then none else some (.object extensions)

/-- What is said about a group. -/
def header (g : Group) : Members Data :=
  Members.optional "$type" (g.type.map fun type => .text type.name) ++
    Members.optional "$description" (g.description.map .text) ++
    Members.optional "$extensions" (extensionsData g.extensions)

/-- Extensions with the modes among them. -/
def withModes (extensions modes : Members Data) : Members Data :=
  extensions ++ if modes.isEmpty then [] else [(modeField, .object modes)]

/-- What is said about a token. -/
def tokenMembers (type : TokenType) (description : Option String) (value : Data)
    (extensions modes : Members Data) : Members Data :=
  [("$type", .text type.name)] ++ Members.optional "$description" (description.map .text) ++
    [(valueField, value)] ++
    Members.optional "$extensions" (extensionsData (withModes extensions modes))

theorem givenType_tree {ms : Members Data} {type : Option TokenType}
    (h : Members.get? "$type" ms = type.map fun type => .text type.name) :
    givenType (Data.object ms).tree = .ok type := by
  rw [givenType, Data.get?_tree_object, h]
  cases type with
  | none => rfl
  | some type =>
    simp [Data.tree, Tree.text?, TokenType.ofName?_name]

theorem description_tree {ms : Members Data} {text : Option String}
    (h : Members.get? "$description" ms = text.map .text) :
    description (Data.object ms).tree = .ok text := by
  rw [description, Data.get?_tree_object, h]
  cases text with
  | none => rfl
  | some s => rfl

theorem extensions_tree {ms ext : Members Data}
    (h : Members.get? "$extensions" ms = extensionsData ext) :
    extensions (Data.object ms).tree = .ok (Data.treeMembers ext) := by
  rw [extensions, Data.get?_tree_object, h, extensionsData]
  cases ext with
  | nil => rfl
  | cons m ext => rfl

/-! ## Tokens -/

/-- The modes that are written are found, as long as none of them is the default mode. -/
theorem modes_treeMembers {ext ms : Members Data} (hext : modeField ∉ ext.names)
    (hms : defaultMode ∉ ms.names) :
    modes (Data.treeMembers (withModes ext ms)) = .ok (ms.map fun m => (m.1, m.2.tree)) := by
  -- the modes stand after all other extensions
  have hnone : (Data.treeMembers ext).find? (·.1.name = modeField) = none := by
    rw [List.find?_eq_none, Data.treeMembers_eq_map]
    intro p hp
    obtain ⟨m, hm, rfl⟩ := List.mem_map.mp hp
    simp only [decide_eq_true_eq]
    rintro heq
    exact hext (heq ▸ List.mem_map_of_mem hm)
  have happend : Data.treeMembers (withModes ext ms) = Data.treeMembers ext ++
      Data.treeMembers (if ms.isEmpty then [] else [(modeField, .object ms)]) := by
    rw [withModes, Data.treeMembers_eq_map, List.map_append, ← Data.treeMembers_eq_map,
      ← Data.treeMembers_eq_map]
  rw [modes, happend, List.find?_append, hnone, Option.none_or]
  cases ms with
  | nil => rfl
  | cons m ms =>
    -- no mode is refused, because none is the default mode
    have hread : ((Data.treeMembers (m :: ms)).mapM fun p : Key × Tree =>
        if p.1.name = defaultMode then .error (.issue (.ofKey .reservedMode p.1))
        else (.ok (p.1.name, p.2) : Except Failure (String × Tree))) =
          .ok ((m :: ms).map fun m => (m.1, m.2.tree)) := by
      rw [Data.treeMembers_eq_map, mapM_eq_ok_iff, List.forall₂_map_left_iff,
        List.forall₂_map_right_iff, List.forall₂_same]
      intro q hq
      rw [if_neg]
      exact fun heq => hms (heq ▸ List.mem_map_of_mem hq)
    exact hread

/-- The draft of a token that is written. -/
def draftOf (id : String) (group : Option String) (type : TokenType)
    (description : Option String) (value : Data) (extensions modes : Members Data) : Draft where
  id := id
  type := some type
  node := (Data.object (tokenMembers type description value extensions modes)).tree
  value := value.tree
  modes := modes.map fun m => (m.1, m.2.tree)
  description := description
  extensions := extensions
  group := group

/-- A token that is written is found, whatever type is given around it. -/
theorem gatherChild_token (id : String) (group : Option String) (type : TokenType)
    (text : Option String) (value : Data) {ext ms : Members Data} (hext : modeField ∉ ext.names)
    (hms : defaultMode ∉ ms.names) (inherited : Option TokenType) :
    gatherChild group id inherited (Data.object (tokenMembers type text value ext ms)).tree =
      .ok ⟨[draftOf id group type text value ext ms], []⟩ := by
  -- the members get a name, so that looking things up does not unfold the whole token
  obtain ⟨members, hmembers⟩ : ∃ members, members = tokenMembers type text value ext ms := ⟨_, rfl⟩
  have htype : givenType (Data.object members).tree = .ok (some type) :=
    givenType_tree (by simp [hmembers, tokenMembers, Members.get?])
  have hvalue : (Data.object members).tree.get? valueField = some value.tree := by
    rw [Data.get?_tree_object]
    simp [hmembers, tokenMembers, Members.get?_append, Members.get?, valueField]
  have htext : description (Data.object members).tree = .ok text :=
    description_tree (by
      simp [hmembers, tokenMembers, Members.get?_append, Members.get?, valueField])
  have hextensions : extensions (Data.object members).tree =
      .ok (Data.treeMembers (withModes ext ms)) :=
    extensions_tree (by
      simp [hmembers, tokenMembers, Members.get?_append, Members.get?, valueField])
  -- without the modes the extensions are what they were
  have herase : Members.erase modeField (withModes ext ms) = ext := by
    rw [Members.erase, withModes, List.filter_append, List.filter_eq_self.mpr]
    · cases ms <;> simp
    · intro m hm
      simp only [ne_eq, decide_eq_true_eq]
      rintro heq
      exact hext (heq ▸ List.mem_map_of_mem hm)
  have htoken : token id group (some type) (Data.object members).tree value.tree =
      .ok (draftOf id group type text value ext ms) := by
    refine token_eq_ok.mpr ⟨by simp, _, hextensions, _, modes_treeMembers hext hms, _, htext, ?_⟩
    rw [Data.dataMembers_treeMembers, herase, hmembers]
    rfl
  have htree : (Data.object members).tree = .mapping (Data.treeMembers members) .origin := by
    rw [Data.tree]
  rw [htree] at htype hvalue htoken
  rw [← hmembers, htree]
  exact gatherChild_eq_ok_iff.mpr (.token htype hvalue htoken)

/-! ## Groups -/

theorem isReserved_header {g : Group} {m : String × Data} (hm : m ∈ header g) :
    isReserved m.1 = true := by
  have hname : m.1 ∈ ["$type", "$description", "$extensions"] := by
    simp only [header, Members.optional, List.mem_append, Option.mem_toList,
      Option.map_eq_some_iff] at hm
    obtain (⟨_, -, rfl⟩ | ⟨_, -, rfl⟩) | ⟨_, -, rfl⟩ := hm <;> simp
  have hall : ∀ name ∈ ["$type", "$description", "$extensions"], isReserved name = true := by
    decide
  exact hall _ hname

/-- What is reserved is passed over. -/
theorem gatherMembers_reserved {parent : Option String} {type : Option TokenType}
    {ms : Members Data} (h : ∀ m ∈ ms, isReserved m.1 = true) (rest : Members Data) :
    gatherMembers parent type (Data.treeMembers (ms ++ rest)) =
      gatherMembers parent type (Data.treeMembers rest) := by
  induction ms with
  | nil => rfl
  | cons m ms ih =>
    obtain ⟨name, d⟩ := m
    rw [List.cons_append, Data.treeMembers, gatherMembers, if_pos (h _ List.mem_cons_self),
      ih fun m hm => h m (List.mem_cons_of_mem _ hm)]

namespace Outline

mutual

/-- An outline as data, with given data for its tokens. -/
def data (node : String → Data) (parent : Option String) : Outline → Data
  | .token name => node (Path.below parent name)
  | .group name g children =>
    .object (header g ++ dataOf node (some (Path.below parent name)) children)

/-- Several outlines as members under their names. -/
def dataOf (node : String → Data) (parent : Option String) : List Outline → Members Data
  | [] => []
  | o :: os => (o.name, o.data node parent) :: dataOf node parent os

end

theorem dataOf_eq_map (node : String → Data) (parent : Option String) (os : List Outline) :
    dataOf node parent os = os.map fun o => (o.name, o.data node parent) := by
  induction os with
  | nil => rfl
  | cons o os ih => rw [dataOf, ih, List.map_cons]

theorem names_dataOf (node : String → Data) (parent : Option String) (os : List Outline) :
    (dataOf node parent os).names = os.map name := by
  rw [dataOf_eq_map, Members.names, List.map_map]
  rfl

variable {node : String → Data} {draft : String × Option String → Draft}

/-- No reserved name is found among outlines, which have names of their own. -/
theorem get?_dataOf_reserved {parent : Option String} {type : Option TokenType} {os : List Outline}
    (hos : ∀ o ∈ os, Standing parent type o) {name : String} (hname : isReserved name = true) :
    Members.get? name (dataOf node parent os) = none := by
  rw [Members.get?_eq_none_iff, names_dataOf]
  intro hmem
  obtain ⟨o, ho, rfl⟩ := List.mem_map.mp hmem
  rw [(hos o ho).isName.1] at hname
  cases hname

/-- The drafts of the tokens of an outline, found with any type around them. -/
def Finds (node : String → Data) (draft : String × Option String → Draft)
    (tokens : List (String × Option String)) : Prop :=
  ∀ p ∈ tokens, (draft p).id = p.1 ∧ (draft p).group = p.2 ∧
    ∀ type, gatherChild p.2 p.1 type (node p.1).tree = .ok ⟨[draft p], []⟩

/-- Outlines are found one after the other when each of them is. -/
theorem gatherMembers_dataOf {parent : Option String} {type : Option TokenType} {os : List Outline}
    (hos : ∀ o ∈ os, Standing parent type o)
    (h : ∀ o ∈ os, gatherChild parent (Path.below parent o.name) type (o.data node parent).tree =
      .ok ⟨(o.tokens parent).map draft, o.groups⟩) :
    gatherMembers parent type (Data.treeMembers (dataOf node parent os)) =
      .ok ⟨(tokensOf parent os).map draft, groupsOf os⟩ := by
  induction os with
  | nil => rfl
  | cons o os ih =>
    -- no member is passed over or refused
    obtain ⟨hreserved, hname⟩ := (hos o List.mem_cons_self).isName
    have hrest := ih (fun u hu => hos u (List.mem_cons_of_mem _ hu))
      fun u hu => h u (List.mem_cons_of_mem _ hu)
    rw [dataOf, Data.treeMembers, gatherMembers]
    simp only [hreserved, hname, h o List.mem_cons_self, hrest, Found.append, tokensOf, groupsOf,
      List.map_append, bind, Except.bind, pure, Except.pure, Bool.not_true, Bool.false_eq_true,
      if_false]

/-- What was found in a group becomes the group of the outline again. -/
theorem inGroup_eq {g : Group} {children : List Outline} (hmembers : g.members = members g children)
    (htokens : tokensOf (some g.id) children ≠ [])
    (hfinds : Finds node draft (tokensOf (some g.id) children)) :
    (⟨(tokensOf (some g.id) children).map draft, groupsOf children⟩ : Found).inGroup
        { g with members := [] } =
      ⟨(tokensOf (some g.id) children).map draft, g :: groupsOf children⟩ := by
  -- the drafts of the group are those of its own tokens
  have hsame : ((tokensOf (some g.id) children).map draft).filter (fun d => d.group = some g.id) =
      ((tokensOf (some g.id) children).filter fun p => p.2 = some g.id).map draft := by
    rw [List.filter_map]
    congr 1
    refine List.filter_congr fun p hp => ?_
    rw [Function.comp_apply, (hfinds p hp).2.1]
  have hids : (((tokensOf (some g.id) children).filter fun p => p.2 = some g.id).map draft).map
      Draft.id = g.members := by
    rw [hmembers, members, List.map_map]
    exact List.map_congr_left fun p hp => (hfinds p (List.mem_of_mem_filter hp)).1
  rw [Found.inGroup, if_neg (by simpa using htokens)]
  dsimp only
  rw [hsame, hids]

/-- In the data of an outline its tokens and groups are found. -/
theorem Standing.gatherChild_data {parent : Option String} {type : Option TokenType} {o : Outline}
    (h : Standing parent type o) (hfinds : Finds node draft (o.tokens parent)) :
    gatherChild parent (Path.below parent o.name) type (o.data node parent).tree =
      .ok ⟨(o.tokens parent).map draft, o.groups⟩ := by
  induction h with
  | @token parent type name hreserved hname =>
    exact (hfinds (Path.below parent name, parent) (by simp [tokens])).2.2 type
  | @group parent type name g children hreserved hname hid htype hmembers hne hnodup hall ih =>
    rw [tokens, ← hid] at hfinds
    have hinside : gatherMembers (some g.id) g.type
        (Data.treeMembers (dataOf node (some g.id) children)) =
          .ok ⟨(tokensOf (some g.id) children).map draft, groupsOf children⟩ := by
      refine gatherMembers_dataOf hall fun c hc => ih c hc fun p hp => hfinds p ?_
      rw [tokensOf_eq_flatMap]
      exact List.mem_flatMap.mpr ⟨c, hc, hp⟩
    -- all that is reserved is found in the header of the group
    obtain ⟨ms, hms⟩ : ∃ ms, ms = header g ++ dataOf node (some g.id) children := ⟨_, rfl⟩
    have hget : ∀ name, isReserved name = true →
        Members.get? name ms = Members.get? name (header g) := by
      intro name hname
      rw [hms, Members.get?_append, get?_dataOf_reserved hall hname, Option.or_none]
    have hgiven : givenType (Data.object ms).tree = .ok g.type :=
      givenType_tree (by rw [hget _ (by decide)]; simp [header, Members.get?_append])
    have htext : description (Data.object ms).tree = .ok g.description :=
      description_tree (by rw [hget _ (by decide)]; simp [header, Members.get?_append])
    have hextensions : extensions (Data.object ms).tree = .ok (Data.treeMembers g.extensions) :=
      extensions_tree (by rw [hget _ (by decide)]; simp [header, Members.get?_append])
    have hvalue : (Data.object ms).tree.get? valueField = none := by
      rw [Data.get?_tree_object, hget _ (by decide)]
      simp [header, Members.get?_append, valueField]
    -- a group without a type stands where there is none around it
    have hor : g.type.or type = g.type := by
      cases hg : g.type with
      | none => rw [htype hg]; rfl
      | some _ => rfl
    have hchildren : gatherMembers (some g.id) g.type (Data.treeMembers ms) =
        .ok ⟨(tokensOf (some g.id) children).map draft, groupsOf children⟩ := by
      rw [hms, gatherMembers_reserved fun m hm => isReserved_header hm, hinside]
    have htokens : tokensOf (some g.id) children ≠ [] := by
      have hgroup : Standing parent type (.group name g children) :=
        .group name g children hreserved hname hid htype hmembers hne hnodup hall
      have hsome := hgroup.tokens_ne_nil
      rwa [tokens, ← hid] at hsome
    have hinGroup := inGroup_eq hmembers htokens hfinds
    have htree : (Data.object ms).tree = .mapping (Data.treeMembers ms) .origin := by
      rw [Data.tree]
    rw [htree] at hgiven hvalue htext hextensions
    have hfound : FoundAt parent g.id type (.mapping (Data.treeMembers ms) .origin) _ :=
      .group hgiven hvalue htext hextensions (hor.symm ▸ hchildren)
    rw [hor, Data.dataMembers_treeMembers, hinGroup] at hfound
    rw [data, Outline.name, tokens, groups, ← hid, ← hms, htree]
    exact gatherChild_eq_ok_iff.mpr hfound

/-! ## Names of their own -/

/-- A token that is found has a value. -/
theorem Finds.has_value {tokens : List (String × Option String)} (h : Finds node draft tokens)
    {p : String × Option String} (hp : p ∈ tokens) : (node p.1).tree.has valueField = true := by
  obtain ⟨-, -, hfound⟩ := h p hp
  obtain ⟨found, heq⟩ : ∃ found, found = (⟨[draft p], []⟩ : Found) := ⟨_, rfl⟩
  have hat := gatherChild_eq_ok_iff.mp (heq ▸ hfound none)
  generalize (node p.1).tree = t at hat
  cases hat with
  | token _ hvalue _ =>
    simpa [Tree.get?, Tree.has] using congrArg Option.isSome hvalue
  | group _ _ _ _ _ =>
    -- a group with a token in it would be among the groups
    rw [Found.inGroup] at heq
    split at heq
    · rename_i hempty
      simp [heq] at hempty
    · simp at heq

/-- Outlines with different names are written with names of their own, whatever is said in front of
them. -/
theorem parted_dataOf {parent : Option String} {os : List Outline}
    (hnodup : (os.map name).Nodup) (hinside : ∀ o ∈ os,
      (o.data node parent).tree.has valueField = false →
        Parted (o.data node parent).tree.members)
    {front : Members Data} (hfront : ∀ m ∈ front, isReserved m.1 = true) :
    Parted (Data.treeMembers (front ++ dataOf node parent os)) := by
  have hmembers : memberNames (Data.treeMembers (front ++ dataOf node parent os)) =
      (os.map name).filter fun n => !isReserved n := by
    have hnone : front.filter (fun m => !isReserved m.1) = [] := by
      simpa using hfront
    have hnames : (dataOf node parent os).map Prod.fst = os.map name := names_dataOf node parent os
    rw [memberNames, Data.treeMembers_eq_map, List.filter_map, List.map_map, List.filter_append,
      ← hnames, List.filter_map]
    simp only [Function.comp_def, hnone, List.nil_append]
  refine .intro (hmembers ▸ hnodup.sublist List.filter_sublist) fun m hm hreserved hvalue => ?_
  rw [Data.treeMembers_eq_map, List.map_append, List.mem_append] at hm
  obtain hm | hm := hm
  · obtain ⟨p, hp, rfl⟩ := List.mem_map.mp hm
    simp [hfront p hp] at hreserved
  · obtain ⟨p, hp, rfl⟩ := List.mem_map.mp hm
    rw [dataOf_eq_map] at hp
    obtain ⟨o, ho, rfl⟩ := List.mem_map.mp hp
    exact hinside o ho hvalue

/-- What is written for an outline has names of its own, down to the tokens. -/
theorem Standing.parted {parent : Option String} {type : Option TokenType} {o : Outline}
    (h : Standing parent type o) (hfinds : Finds node draft (o.tokens parent)) :
    (o.data node parent).tree.has valueField = false →
      Parted (o.data node parent).tree.members := by
  induction h with
  | @token parent type name _ _ =>
    intro hvalue
    have hhas := hfinds.has_value (p := (Path.below parent name, parent)) (by simp [tokens])
    rw [data, hhas] at hvalue
    cases hvalue
  | @group parent type name g children _ _ hid _ _ _ hnodup _ ih =>
    intro _
    rw [tokens, ← hid] at hfinds
    have hmembers : (Outline.data node parent (.group name g children)).tree.members =
        Data.treeMembers (header g ++ dataOf node (some g.id) children) := by
      rw [data, ← hid, Data.tree]
      rfl
    rw [hmembers]
    refine parted_dataOf hnodup (fun c hc => ih c hc fun p hp => hfinds p ?_)
      fun m hm => isReserved_header hm
    rw [tokensOf_eq_flatMap]
    exact List.mem_flatMap.mpr ⟨c, hc, hp⟩

end Outline

open Outline in
/-- In the data of a forest everything is found again, with the drafts of its tokens. -/
theorem inDocument_data {os : List Outline} (hos : Forest none none os)
    {node : String → Data} {draft : String × Option String → Draft}
    (hfinds : Finds node draft (tokensOf none os)) :
    inDocument (Data.object (dataOf node none os)).tree =
      .ok ⟨(tokensOf none os).map draft, groupsOf os⟩ := by
  -- the document itself has no type
  have hgiven : givenType (Data.object (dataOf node none os)).tree = .ok none :=
    givenType_tree (by rw [get?_dataOf_reserved hos.standing (by decide)]; rfl)
  have htree : (Data.object (dataOf node none os)).tree =
      .mapping (Data.treeMembers (dataOf node none os)) .origin := by
    rw [Data.tree]
  have heach : ∀ o ∈ os, Finds node draft (o.tokens none) := by
    intro o ho p hp
    refine hfinds p ?_
    rw [tokensOf_eq_flatMap]
    exact List.mem_flatMap.mpr ⟨o, ho, hp⟩
  have hinside : gatherMembers none none (Data.treeMembers (dataOf node none os)) =
      .ok ⟨(tokensOf none os).map draft, groupsOf os⟩ :=
    gatherMembers_dataOf hos.standing fun o ho => (hos.standing o ho).gatherChild_data (heach o ho)
  have hgather : gather (Data.object (dataOf node none os)).tree =
      .ok ⟨(tokensOf none os).map draft, groupsOf os⟩ := by
    rw [htree, gather, ← htree, hgiven]
    exact hinside
  have hparted : Parted (Data.object (dataOf node none os)).tree.members := by
    rw [htree]
    have hfront : ∀ m ∈ ([] : Members Data), isReserved m.1 = true := by simp
    exact parted_dataOf hos.nodup (fun o ho => (hos.standing o ho).parted (heach o ho)) hfront
  rw [inDocument_eq_gather hparted, hgather]

end Discovery

end DesignTokens
