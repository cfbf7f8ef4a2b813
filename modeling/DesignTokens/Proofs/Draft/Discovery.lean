import DesignTokens.Proofs.Draft.Outline
import DesignTokens.Proofs.Draft.Walk

/-!
# What discovery finds

The tokens and the groups that are found in a document with distinct keys are those of an outline,
and the values and the modes of each token come from the document.
-/

namespace DesignTokens

open Outcome

/-- A draft as it is found: its values have distinct keys, its modes are distinct and none of them
is the default mode, and the modes are not among the extensions. -/
structure Draft.Sound (d : Draft) : Prop where
  value_wellKeyed : d.value.WellKeyed
  modes_wellKeyed : ∀ m ∈ d.modes, m.2.WellKeyed
  modes_nodup : (d.modes.map Prod.fst).Nodup
  default_not_mem : defaultMode ∉ d.modes.map Prod.fst
  mode_not_mem : Discovery.modeField ∉ d.extensions.names

/-- Whether a node is that of the value of a mode. -/
def Draft.HasValue (d : Draft) (mode : String) (node : Tree) : Prop :=
  (mode = defaultMode ∧ node = d.value) ∨ (mode, node) ∈ d.modes

namespace Discovery

open Outline

/-! ## Tokens -/

theorem not_mem_names_erase {α : Type} (name : String) (m : Members α) :
    name ∉ (Members.erase name m).names := by
  simp [Members.erase, Members.names]

/-- Modes that are found are the members of a member of the extensions, and none of them is the
default mode. -/
theorem modes_eq {members : List (Key × Tree)} {found : List (String × Tree)}
    (h : modes members = .ok found) :
    found = ((members.find? (·.1.name = modeField)).elim [] (·.2.members)).map
        (fun m => (m.1.name, m.2)) ∧
      defaultMode ∉ found.map Prod.fst := by
  unfold modes at h
  split at h
  · -- without the member there are no modes
    obtain rfl := Except.ok.inj h
    simp [*]
  · rename_i k t hfind
    split at h
    · simp [Grammar.failKind, Grammar.fail] at h
    · rename_i inner hinner
      have hmembers : t.members = inner := by simp [Tree.members, hinner]
      -- what one step keeps, and the name that it refuses
      have hstep : ∀ (p : Key × Tree) (q : String × Tree),
          (if p.1.name = defaultMode then .error (.issue (.ofKey .reservedMode p.1))
            else .ok (p.1.name, p.2) : Except Failure (String × Tree)) = .ok q →
          q = (p.1.name, p.2) ∧ p.1.name ≠ defaultMode := by
        intro p q hq
        split at hq
        · simp at hq
        · rename_i hne
          exact ⟨(Except.ok.inj hq).symm, hne⟩
      have hfound : found = inner.map fun m => (m.1.name, m.2) := by
        simpa using map_eq_map_of_mapM (q := id) (fun p q hq => (hstep p q hq).1) h
      refine ⟨by simpa [hfind, hmembers] using hfound, fun hmem => ?_⟩
      obtain ⟨q, hq, hqname⟩ := List.mem_map.mp hmem
      obtain ⟨p, -, hp⟩ := exists_of_mem_mapM h hq
      obtain ⟨rfl, hne⟩ := hstep p q hp
      exact hne hqname

/-- The modes of extensions with distinct keys are distinct, and their values have distinct keys. -/
theorem modes_spec {members : List (Key × Tree)} {found : List (String × Tree)}
    (hkeyed : ∀ m ∈ members, m.2.WellKeyed)
    (h : modes members = .ok found) :
    (found.map Prod.fst).Nodup ∧ defaultMode ∉ found.map Prod.fst ∧ ∀ m ∈ found, m.2.WellKeyed := by
  obtain ⟨rfl, hdefault⟩ := modes_eq h
  cases hfind : members.find? (·.1.name = modeField) with
  | none => simp
  | some m =>
    have ht : m.2.WellKeyed := hkeyed _ (List.mem_of_find?_eq_some hfind)
    refine ⟨?_, hfind ▸ hdefault, ?_⟩
    · rw [Option.elim_some, List.map_map]
      exact ht.nodup
    · rw [Option.elim_some]
      exact List.forall_mem_map.mpr fun p hp => ht.member (k := p.1) hp

/-- Extensions that are found have distinct keys inside. -/
theorem extensions_spec {node : Tree} {members : List (Key × Tree)} (hnode : node.WellKeyed)
    (h : extensions node = .ok members) : ∀ m ∈ members, m.2.WellKeyed := by
  unfold extensions at h
  split at h
  · obtain rfl := Except.ok.inj h
    simp
  · rename_i t hget
    have ht : t.WellKeyed := hnode.get? hget
    split at h
    · rename_i inner hinner
      obtain rfl := Except.ok.inj h
      have hmembers : t.members = inner := by simp [Tree.members, hinner]
      exact fun m hm => ht.member (k := m.1) (hmembers ▸ hm)
    · simp [Grammar.failKind, Grammar.fail] at h

/-- A token that is found has the path and the group it was found with, and it is sound. -/
theorem token_spec {id : String} {group : Option String} {type : Option TokenType}
    {node value : Tree} {d : Draft} (hnode : node.WellKeyed) (hvalue : value.WellKeyed)
    (h : token id group type node value = .ok d) :
    d.id = id ∧ d.group = group ∧ d.Sound := by
  obtain ⟨-, members, hmembers, ms, hms, text, -, rfl⟩ := token_eq_ok.mp h
  obtain ⟨hnodup, hdefault, hkeyed⟩ := modes_spec (extensions_spec hnode hmembers) hms
  exact ⟨rfl, rfl, hvalue, hkeyed, hnodup, hdefault, not_mem_names_erase _ _⟩

/-! ## Documents -/

/-- What was found below a parent stands in a forest. -/
structure Found.Outlined (found : Found) (parent : Option String) (type : Option TokenType)
    (os : List Outline) : Prop where
  forest : ∀ o ∈ os, Standing parent type o
  drafts : found.drafts.map (fun d => (d.id, d.group)) = tokensOf parent os
  groups : found.groups = groupsOf os
  sound : ∀ d ∈ found.drafts, d.Sound

theorem tokensOf_append (parent : Option String) (a b : List Outline) :
    tokensOf parent (a ++ b) = tokensOf parent a ++ tokensOf parent b := by
  simp [tokensOf_eq_flatMap]

theorem groupsOf_append (a b : List Outline) : groupsOf (a ++ b) = groupsOf a ++ groupsOf b := by
  simp [groupsOf_eq_flatMap]

/-- What was found in two places stands in both outlines, one after the other. -/
theorem Found.Outlined.append {a b : Found} {parent : Option String} {type : Option TokenType}
    {os us : List Outline} (ha : a.Outlined parent type os) (hb : b.Outlined parent type us) :
    (a.append b).Outlined parent type (os ++ us) where
  forest := by
    intro o ho
    exact (List.mem_append.mp ho).elim (ha.forest o) (hb.forest o)
  drafts := by rw [Found.append, List.map_append, ha.drafts, hb.drafts, tokensOf_append]
  groups := by rw [Found.append, ha.groups, hb.groups, groupsOf_append]
  sound := by
    intro d hd
    exact (List.mem_append.mp hd).elim (ha.sound d) (hb.sound d)

/-- What was found in a group stands in the outline of the group, unless there is nothing. -/
theorem Found.Outlined.inGroup {inside : Found} {parent : Option String}
    {type : Option TokenType} {name : String} {g : Group} {os : List Outline}
    (hreserved : isReserved name = false) (hname : isName name = true)
    (hid : g.id = Path.below parent name) (htype : g.type = none → type = none)
    (hnodup : (os.map Outline.name).Nodup) (h : inside.Outlined (some g.id) g.type os) :
    ∃ us, (inside.inGroup g).Outlined parent type us ∧ (us.map Outline.name).Sublist [name] := by
  rw [Found.inGroup]
  split
  · rename_i hempty
    rw [List.isEmpty_iff] at hempty
    -- an outline without tokens has no groups either
    have hnil : os = [] := by
      cases os with
      | nil => rfl
      | cons o os =>
        have hne := (h.forest o List.mem_cons_self).tokens_ne_nil
        have hdrafts := h.drafts
        rw [hempty, tokensOf] at hdrafts
        simp [hne] at hdrafts
    subst hnil
    exact ⟨[], ⟨by simp, h.drafts, h.groups, h.sound⟩, by simp⟩
  · rename_i hsome
    let g' : Group := { g with members := members g os }
    have hmembers : (inside.drafts.filter fun d => d.group = some g.id).map Draft.id =
        members g os := by
      rw [members, ← h.drafts, List.filter_map, List.map_map]
      rfl
    have hne : os ≠ [] := by
      rintro rfl
      have hdrafts := h.drafts
      simp only [tokensOf, List.map_eq_nil_iff] at hdrafts
      exact hsome (List.isEmpty_iff.mpr hdrafts)
    refine ⟨[.group name g' os], ⟨?_, ?_, ?_, h.sound⟩, by simp [Outline.name]⟩
    · intro o ho
      obtain rfl := List.mem_singleton.mp ho
      exact .group name g' os hreserved hname hid htype rfl hne hnodup h.forest
    · simp [tokensOf, tokens, h.drafts, hid]
    · rw [h.groups, hmembers, groupsOf, Outline.groups, groupsOf, List.append_nil]

mutual

/-- What is found in members with distinct keys stands in outlines with names among theirs. -/
theorem gatherMembers_spec {parent : Option String} {type : Option TokenType} :
    (ms : List (Key × Tree)) → (∀ m ∈ ms, m.2.WellKeyed) → (found : Found) →
    gatherMembers parent type ms = .ok found →
    ∃ os, found.Outlined parent type os ∧
      (os.map Outline.name).Sublist (ms.map (·.1.name))
  | [], _, found, h => by
    obtain rfl := Except.ok.inj h
    exact ⟨[], ⟨by simp, rfl, rfl, by simp [Found.empty]⟩, .slnil⟩
  | (key, child) :: rest, hkeyed, found, h => by
    have hrest : ∀ m ∈ rest, m.2.WellKeyed := fun m hm => hkeyed m (List.mem_cons_of_mem _ hm)
    obtain ⟨-, h⟩ | ⟨hreserved, hname, first, later, hfirst, hlater, rfl⟩ :=
      gatherMembers_cons_eq_ok.mp h
    · -- a reserved member has no outline, so the names are some of the names only
      obtain ⟨os, hos, hnames⟩ := gatherMembers_spec rest hrest found h
      exact ⟨os, hos, hnames.cons _⟩
    · obtain ⟨os, hos, hosnames⟩ := gatherChild_spec child (hkeyed _ List.mem_cons_self) key.name
        hreserved hname first hfirst
      -- the outlines of the later members follow
      obtain ⟨us, hus, husnames⟩ := gatherMembers_spec rest hrest later hlater
      refine ⟨os ++ us, hos.append hus, ?_⟩
      rw [List.map_append]
      exact hosnames.append husnames

/-- What is found at a node with distinct keys stands in an outline of its name. -/
theorem gatherChild_spec {parent : Option String} {type : Option TokenType} :
    (node : Tree) → node.WellKeyed → (name : String) → isReserved name = false →
    isName name = true → (found : Found) →
    gatherChild parent (Path.below parent name) type node = .ok found →
    ∃ os, found.Outlined parent type os ∧ (os.map Outline.name).Sublist [name]
  | .mapping members span, hnode, name, hreserved, hname, found, h => by
    cases gatherChild_eq_ok_iff.mp h with
    | token hgiven hvalue hd =>
      -- a node with a value is a token
      obtain ⟨hid, hgroup, hsound⟩ := token_spec hnode (hnode.get? hvalue) hd
      refine ⟨[.token name], ⟨?_, ?_, rfl, by simpa using hsound⟩, by simp [Outline.name]⟩
      · intro o ho
        obtain rfl := List.mem_singleton.mp ho
        exact .token name hreserved hname
      · simp [tokensOf, tokens, hid, hgroup]
    | group hgiven hvalue htext hext hinside =>
      -- every other node is a group of what is found inside
      obtain ⟨os, hos, hnames⟩ :=
        gatherMembers_spec members (fun m hm => hnode.member (k := m.1) hm) _ hinside
      refine Found.Outlined.inGroup hreserved hname rfl ?_ (hnames.nodup hnode.nodup) hos
      intro hnone
      exact (Option.or_eq_none_iff.mp hnone).2
  | .null _, _, _, _, _, _, h => nomatch gatherChild_eq_ok_iff.mp h
  | .scalar .., _, _, _, _, _, h => nomatch gatherChild_eq_ok_iff.mp h
  | .sequence .., _, _, _, _, _, h => nomatch gatherChild_eq_ok_iff.mp h

end

/-- What is found in a document with distinct keys stands in a forest, and its tokens are sound. -/
theorem inDocument_spec {root : Tree} (hroot : root.WellKeyed) {found : Found}
    (h : inDocument root = .ok found) :
    ∃ os, Forest none none os ∧
      found.drafts.map (fun d => (d.id, d.group)) = tokensOf none os ∧
      found.groups = groupsOf os ∧ ∀ d ∈ found.drafts, d.Sound := by
  have h := gather_of_inDocument hroot h
  cases hroot with
  | mapping members span hnodup hkeyed =>
    simp only [gather, bind_eq_ok] at h
    obtain ⟨type, -, h⟩ := h
    obtain ⟨os, hos, hnames⟩ := gatherMembers_spec members hkeyed found h
    -- the type of the document is no part of a forest
    refine ⟨os, ⟨hnames.nodup hnodup, fun o ho => (hos.forest o ho).untyped⟩, hos.drafts,
      hos.groups, hos.sound⟩
  | _ => simp [gather, Grammar.failKind, Grammar.fail] at h

theorem ids_nodup {root : Tree} (hroot : root.WellKeyed) {found : Found}
    (h : inDocument root = .ok found) : (found.drafts.map Draft.id).Nodup := by
  obtain ⟨os, hos, hdrafts, -, -⟩ := inDocument_spec hroot h
  have hnodup := hos.tokens_nodup
  rwa [← hdrafts, List.map_map] at hnodup

end Discovery

end DesignTokens
