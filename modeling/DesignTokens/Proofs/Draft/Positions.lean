import DesignTokens.Proofs.Draft.Discovery
import DesignTokens.Proofs.Tree.Positions

/-!
# Which positions are tokens

A position is one of a token or of a group when the keys that lead to it are names and no token
stands on the way.  Discovery finds one draft for each of these positions that has a value, in the
order of the document, and one group for each other one with a token below it (`Found.Covers`).
With distinct keys all of them have paths of their own (`inDocument_tokens`).
-/

namespace DesignTokens

open Outcome Position

namespace Discovery

/-! ## Positions of tokens and groups -/

/-- Whether names lead to a position and no token stands on the way. -/
def isMember (p : Position) : Bool :=
  p.names.all (fun name => !isReserved name) && p.between.all fun t => !t.has valueField

/-- Whether a position is that of a token. -/
def isToken (p : Position) : Bool := isMember p && p.node.has valueField

/-- Whether a position is that of a group with a token somewhere below it. -/
def isGroup (p : Position) : Bool :=
  isMember p && !p.node.has valueField && p.node.positions.any isToken

theorem isMember_of_isToken {p : Position} (h : isToken p = true) : isMember p = true := by
  rw [isToken, Bool.and_eq_true] at h
  exact h.1

theorem isMember_of_isGroup {p : Position} (h : isGroup p = true) : isMember p = true := by
  rw [isGroup, Bool.and_eq_true, Bool.and_eq_true] at h
  exact h.1.1

theorem isGroup_of_isToken {p : Position} (h : isToken p = true) : isGroup p = false := by
  rw [isToken, Bool.and_eq_true] at h
  simp [isGroup, h.2]

variable {name : String} {t : Tree}

theorem isMember_under (p : Position) :
    isMember (p.under name t) = (!isReserved name && !t.has valueField && isMember p) := by
  simp only [isMember, under, List.all_cons]
  ac_rfl

theorem isToken_under (p : Position) :
    isToken (p.under name t) = (!isReserved name && !t.has valueField && isToken p) := by
  rw [isToken, isMember_under, isToken, under]
  simp only [Bool.and_assoc]

theorem isGroup_under (p : Position) :
    isGroup (p.under name t) = (!isReserved name && !t.has valueField && isGroup p) := by
  rw [isGroup, isMember_under, isGroup, under]
  simp only [Bool.and_assoc]

/-- Nothing below a reserved key or below a token counts. -/
theorem filter_under_of_closed {below : List Position} {q : Position → Bool}
    (hq : ∀ p, q (under name t p) = (!isReserved name && !t.has valueField && q p))
    (h : (!isReserved name && !t.has valueField) = false) :
    (below.map (under name t)).filter q = [] := by
  simp [List.filter_map, hq, h]

theorem filter_under_of_open {below : List Position} {q : Position → Bool}
    (hq : ∀ p, q (under name t p) = (!isReserved name && !t.has valueField && q p))
    (h : (!isReserved name && !t.has valueField) = true) :
    (below.map (under name t)).filter q = (below.filter q).map (under name t) := by
  have hsame : q ∘ under name t = q := by
    funext p
    rw [Function.comp_apply, hq, h, Bool.true_and]
  rw [List.filter_map, hsame]

end Discovery

open Discovery

/-! ## Drafts at positions -/

/-- The members of the node that keys lead to; without such a node there are none. -/
def Tree.membersAt : List String → Tree → List (Key × Tree)
  | [], t => t.members
  | name :: names, t => ((t.get? name).map (membersAt names)).getD []

theorem Tree.membersAt_singleton (t : Tree) (name : String) :
    t.membersAt [name] = (t.members.find? (·.1.name = name)).elim [] (·.2.members) := by
  rw [membersAt, get?, member?]
  cases t.members.find? (·.1.name = name) <;> rfl

/-- With distinct keys a member is where its name leads. -/
theorem Tree.at?_of_mem_membersAt {names : List String} {t : Tree} (ht : t.WellKeyed)
    {m : Key × Tree} (hm : m ∈ t.membersAt names) :
    t.at? ((names ++ [m.1.name]).map .field) = some m.2 := by
  induction names generalizing t with
  | nil => simp [at?, ht.get?_of_mem hm]
  | cons name names ih =>
    rw [membersAt] at hm
    cases hget : t.get? name with
    | none => simp [hget] at hm
    | some u =>
      simp only [hget, Option.map_some, Option.getD_some] at hm
      simpa [at?, hget] using ih (ht.get? hget) hm

/-- A draft is that of the token to which names lead: it has the path of the names, the node of the
token with its value, the modes that the extensions list, and the other extensions. -/
structure Draft.StandsAt (d : Draft) (names : List String) (node : Tree) : Prop where
  id_eq : d.id = ".".intercalate names
  group_eq : d.group = Path.ofNames names.dropLast
  node_eq : d.node = node
  value : node.get? valueField = some d.value
  modes : d.modes = (node.membersAt ["$extensions", modeField]).map fun m => (m.1.name, m.2)
  default_not_mem : defaultMode ∉ d.modes.map Prod.fst
  extensions : d.extensions =
    Members.erase modeField (Tree.dataMembers (node.membersAt ["$extensions"]))

namespace Discovery

/-- The names that lead from a token to the value of a mode. -/
def valuePath (mode : String) : List String :=
  if mode = defaultMode then [valueField] else ["$extensions", modeField, mode]

theorem members_of_extensions {node : Tree} {ms : List (Key × Tree)}
    (h : extensions node = .ok ms) : node.membersAt ["$extensions"] = ms := by
  unfold extensions at h
  split at h
  · obtain rfl := Except.ok.inj h
    simp [Tree.membersAt, *]
  · rename_i t ht
    split at h
    · rename_i ms' hms
      obtain rfl := Except.ok.inj h
      simp [Tree.membersAt, ht, Tree.members, hms]
    · simp [Grammar.failKind, Grammar.fail] at h

/-- The modes are the members of a member of the extensions, and none is the default mode. -/
theorem members_of_modes {node : Tree} {ms : List (Key × Tree)} {found : List (String × Tree)}
    (hext : extensions node = .ok ms) (h : modes ms = .ok found) :
    found = (node.membersAt ["$extensions", modeField]).map (fun m => (m.1.name, m.2)) ∧
      defaultMode ∉ found.map Prod.fst := by
  obtain ⟨hfound, hdefault⟩ := modes_eq h
  refine ⟨?_, hdefault⟩
  have hlast : node.membersAt ["$extensions", modeField] =
      (ms.find? (·.1.name = modeField)).elim [] (·.2.members) := by
    rw [← members_of_extensions hext]
    cases hget : node.get? "$extensions" with
    | none => simp [Tree.membersAt, hget]
    | some t =>
      rw [Tree.membersAt, Tree.membersAt, hget]
      exact t.membersAt_singleton modeField
  rw [hfound, hlast]

/-- From a token the names of a mode lead to the value of the mode. -/
theorem at?_value {d : Draft} {names : List String} {node : Tree} (h : d.StandsAt names node)
    (hnode : node.WellKeyed) {mode : String} {value : Tree} (hvalue : d.HasValue mode value) :
    node.at? ((valuePath mode).map .field) = some value := by
  obtain ⟨rfl, rfl⟩ | hmem := hvalue
  · simp [valuePath, Tree.at?, h.value]
  · -- the default mode is none of the modes that the extensions list
    have hmode : mode ≠ defaultMode := by
      rintro rfl
      exact h.default_not_mem (List.mem_map_of_mem hmem)
    rw [h.modes, List.mem_map] at hmem
    obtain ⟨m, hm, heq⟩ := hmem
    obtain ⟨rfl, rfl⟩ := Prod.mk.inj heq
    rw [valuePath, if_neg hmode]
    exact Tree.at?_of_mem_membersAt hnode hm

/-- A token that is found below names stands where they lead. -/
theorem standsAt_of_token {names : List String} {name : String} {type : Option TokenType}
    {node value : Tree} {d : Draft} (hvalue : node.get? valueField = some value)
    (h : token (Path.below (Path.ofNames names) name) (Path.ofNames names) type node value =
      .ok d) : d.StandsAt (names ++ [name]) node := by
  obtain ⟨-, members, hmembers, ms, hms, text, -, rfl⟩ := token_eq_ok.mp h
  obtain ⟨hmodes, hdefault⟩ := members_of_modes hmembers hms
  exact {
    id_eq := Path.below_ofNames names name
    group_eq := by rw [List.dropLast_concat]
    node_eq := rfl
    value := hvalue
    modes := hmodes
    default_not_mem := hdefault
    extensions := by rw [members_of_extensions hmembers] }

/-! ## What the positions below a node make -/

/-- What was found below a node lists the positions there: the drafts are those of the tokens and
the groups those of the groups, in the same order. -/
structure Found.Lists (D : Position → Draft → Prop) (G : Position → Group → Prop) (found : Found)
    (ps : List Position) : Prop where
  drafts : List.Forall₂ D (ps.filter isToken) found.drafts
  groups : List.Forall₂ G (ps.filter isGroup) found.groups

namespace Found.Lists

variable {D : Position → Draft → Prop} {G : Position → Group → Prop} {found inside : Found}
  {ps : List Position}

theorem nil : Found.empty.Lists D G [] := ⟨.nil, .nil⟩

/-- What was found in two places lists the positions of both. -/
theorem append {a b : Found} {qs : List Position} (ha : a.Lists D G ps) (hb : b.Lists D G qs) :
    (a.append b).Lists D G (ps ++ qs) where
  drafts := by
    rw [List.filter_append]
    exact List.rel_append ha.drafts hb.drafts
  groups := by
    rw [List.filter_append]
    exact List.rel_append ha.groups hb.groups

/-- Below a reserved key there is nothing to list. -/
theorem reserved (hreserved : isReserved name = true) (t : Tree) (below : List Position) :
    Found.empty.Lists D G (branch name t below) := by
  have hclosed : (!isReserved name && !t.has valueField) = false := by simp [hreserved]
  have hhead : isMember ⟨[name], [], t⟩ = false := by simp [isMember, hreserved]
  constructor
  · rw [branch, List.filter_cons_of_neg (by simp [isToken, hhead]),
      filter_under_of_closed isToken_under hclosed]
    exact .nil
  · rw [branch, List.filter_cons_of_neg (by simp [isGroup, hhead]),
      filter_under_of_closed isGroup_under hclosed]
    exact .nil

/-- The draft of a token lists the token and everything below it. -/
theorem token (hreserved : isReserved name = false) (hvalue : t.has valueField = true) {d : Draft}
    (hd : D ⟨[name], [], t⟩ d) (below : List Position) :
    Found.Lists D G ⟨[d], []⟩ (branch name t below) := by
  have hclosed : (!isReserved name && !t.has valueField) = false := by simp [hvalue]
  have hhead : isMember ⟨[name], [], t⟩ = true := by simp [isMember, hreserved]
  constructor
  · rw [branch, List.filter_cons_of_pos (by simp [isToken, hhead, hvalue]),
      filter_under_of_closed isToken_under hclosed]
    exact .cons hd .nil
  · rw [branch, List.filter_cons_of_neg (by simp [isGroup, hvalue]),
      filter_under_of_closed isGroup_under hclosed]
    exact .nil

/-- A group counts when a token was found inside. -/
theorem isGroup_eq (hreserved : isReserved name = false) (hvalue : t.has valueField = false)
    (h : inside.Lists D G t.positions) :
    isGroup ⟨[name], [], t⟩ = !inside.drafts.isEmpty := by
  have hhead : isMember ⟨[name], [], t⟩ = true := by simp [isMember, hreserved]
  have hany : t.positions.any isToken = !(t.positions.filter isToken).isEmpty := by
    rw [Bool.eq_iff_iff]
    simp [List.filter_eq_nil_iff]
  rw [isGroup, hhead, hvalue, hany, isEmpty_eq_of_length_eq h.drafts.length_eq, Bool.not_false,
    Bool.true_and, Bool.true_and]

/-- What was found in a group lists the group and everything below it. -/
theorem inGroup (hreserved : isReserved name = false) (hvalue : t.has valueField = false)
    {g : Group} (h : inside.Lists (fun p => D (p.under name t)) (fun p => G (p.under name t))
      t.positions)
    (hg : ∀ members, G ⟨[name], [], t⟩ { g with members := members }) :
    (inside.inGroup g).Lists D G (branch name t t.positions) := by
  have hopen : (!isReserved name && !t.has valueField) = true := by simp [hreserved, hvalue]
  have hdrafts : List.Forall₂ D ((t.positions.map (Position.under name t)).filter isToken)
      inside.drafts := by
    rw [filter_under_of_open isToken_under hopen, List.forall₂_map_left_iff]
    exact h.drafts
  have hgroups : List.Forall₂ G ((t.positions.map (Position.under name t)).filter isGroup)
      inside.groups := by
    rw [filter_under_of_open isGroup_under hopen, List.forall₂_map_left_iff]
    exact h.groups
  constructor
  · rwa [branch, List.filter_cons_of_neg (by simp [isToken, hvalue]), Found.drafts_inGroup]
  · rw [branch, List.filter_cons, h.isGroup_eq hreserved hvalue, Found.inGroup]
    cases inside.drafts.isEmpty with
    | true => exact hgroups
    | false => exact .cons (hg _) hgroups

end Found.Lists

/-- What was found below a node accounts for the positions there: keys that count are names, the
drafts stand at the tokens, and the groups have the paths of the groups. -/
structure Found.Covers (found : Found) (names : List String) (ps : List Position) : Prop extends
    found.Lists (fun p d => d.StandsAt (names ++ p.names) p.node)
      (fun p g => ".".intercalate (names ++ p.names) = g.id) ps where
  named : ∀ p ∈ ps, isMember p → ∀ name ∈ p.names, isName name = true

namespace Found.Covers

variable {names : List String}

/-- The drafts have the paths of the tokens. -/
theorem ids {found : Found} {ps : List Position} (h : found.Covers names ps) :
    found.drafts.map Draft.id =
      (ps.filter isToken).map fun p => ".".intercalate (names ++ p.names) :=
  (forall₂_map_eq.mp (h.drafts.imp fun _ _ hd => hd.id_eq.symm)).symm

/-- The groups have the paths of the groups. -/
theorem groupIds {found : Found} {ps : List Position} (h : found.Covers names ps) :
    found.groups.map Group.id =
      (ps.filter isGroup).map fun p => ".".intercalate (names ++ p.names) :=
  (forall₂_map_eq.mp h.groups).symm

theorem nil : Found.empty.Covers names [] := ⟨.nil, by simp⟩

/-- What was found in two places accounts for the positions of both. -/
theorem append {a b : Found} {ps qs : List Position} (ha : a.Covers names ps)
    (hb : b.Covers names qs) : (a.append b).Covers names (ps ++ qs) where
  toLists := ha.toLists.append hb.toLists
  named p hp := (List.mem_append.mp hp).elim (ha.named p) (hb.named p)

/-- Below a reserved key there is nothing to account for. -/
theorem reserved {name : String} (hreserved : isReserved name = true) (t : Tree)
    (below : List Position) : Found.empty.Covers names (branch name t below) := by
  refine ⟨.reserved hreserved t below, fun p hp hmember => ?_⟩
  obtain rfl | ⟨q, -, rfl⟩ := Tree.mem_branch.mp hp
  · simp [isMember, hreserved] at hmember
  · simp [isMember_under, hreserved] at hmember

/-- The draft of a token accounts for the token and for everything below it. -/
theorem token {name : String} (hreserved : isReserved name = false) (hname : isName name = true)
    {t : Tree} {d : Draft} (hd : d.StandsAt (names ++ [name]) t) (below : List Position) :
    Found.Covers ⟨[d], []⟩ names (branch name t below) := by
  have hvalue : t.has valueField = true := Tree.has_iff.mpr ⟨_, hd.value⟩
  refine ⟨.token hreserved hvalue hd below, fun p hp hmember => ?_⟩
  obtain rfl | ⟨q, -, rfl⟩ := Tree.mem_branch.mp hp
  · simpa using hname
  · simp [isMember_under, hvalue] at hmember

/-- What was found in a group accounts for the group and for everything below it. -/
theorem inGroup {name : String} (hreserved : isReserved name = false)
    (hname : isName name = true) {t : Tree} (hvalue : t.has valueField = false) {g : Group}
    (hid : g.id = ".".intercalate (names ++ [name])) {inside : Found}
    (h : inside.Covers (names ++ [name]) t.positions) :
    (inside.inGroup g).Covers names (branch name t t.positions) := by
  -- seen from further up, a position has the name in front of its names
  have hnames : ∀ p : Position,
      names ++ [name] ++ p.names = names ++ (Position.under name t p).names := by
    intro p
    simp [Position.under]
  have hlists := h.toLists
  simp only [hnames] at hlists
  refine ⟨.inGroup hreserved hvalue hlists fun _ => hid.symm, fun p hp hmember => ?_⟩
  obtain rfl | ⟨q, hq, rfl⟩ := Tree.mem_branch.mp hp
  · simpa using hname
  · rw [isMember_under, Bool.and_eq_true] at hmember
    exact List.forall_mem_cons.mpr ⟨hname, h.named q hq hmember.2⟩

end Found.Covers

mutual

/-- What is found in members accounts for the positions below them. -/
theorem gatherMembers_covers {names : List String} {type : Option TokenType} :
    (ms : List (Key × Tree)) → (found : Found) →
    gatherMembers (Path.ofNames names) type ms = .ok found →
    found.Covers names (Tree.positionsOf ms)
  | [], found, h => by
    obtain rfl := Except.ok.inj h
    exact .nil
  | (key, child) :: rest, found, h => by
    rw [Tree.positionsOf]
    obtain ⟨hreserved, h⟩ | ⟨hreserved, hname, first, later, hfirst, hlater, rfl⟩ :=
      gatherMembers_cons_eq_ok.mp h
    · exact (Found.Covers.reserved hreserved child _).append (gatherMembers_covers rest found h)
    · exact (gatherChild_covers child key.name hreserved hname first hfirst).append
        (gatherMembers_covers rest later hlater)

/-- What is found at a node with a name accounts for the node and the positions below it. -/
theorem gatherChild_covers {names : List String} {type : Option TokenType} :
    (node : Tree) → (name : String) → isReserved name = false → isName name = true →
    (found : Found) →
    gatherChild (Path.ofNames names) (Path.below (Path.ofNames names) name) type node = .ok found →
    found.Covers names (branch name node node.positions)
  | .mapping members span, name, hreserved, hname, found, h => by
    cases gatherChild_eq_ok_iff.mp h with
    | token hgiven hvalue hd =>
      exact .token hreserved hname (standsAt_of_token hvalue hd) _
    | group hgiven hvalue htext hext hinside =>
      -- the members are looked at with the path of the group
      rw [Path.some_below_ofNames] at hinside
      have hinside := gatherMembers_covers members _ hinside
      refine .inGroup hreserved hname ?_ (Path.below_ofNames names name)
        (by rwa [Tree.positions])
      simpa [Tree.get?, Tree.has] using hvalue
  | .null _, _, _, _, _, h => nomatch gatherChild_eq_ok_iff.mp h
  | .scalar .., _, _, _, _, h => nomatch gatherChild_eq_ok_iff.mp h
  | .sequence .., _, _, _, _, h => nomatch gatherChild_eq_ok_iff.mp h

end

/-- What is gathered from a document accounts for all its positions. -/
theorem gather_covers {root : Tree} {found : Found} (h : gather root = .ok found) :
    found.Covers [] root.positions := by
  cases root with
  | mapping members span =>
    simp only [gather, bind_eq_ok] at h
    obtain ⟨type, -, h⟩ := h
    rw [Tree.positions]
    exact gatherMembers_covers members found h
  | _ => simp [gather, Grammar.failKind, Grammar.fail] at h

/-- What is found in a document with distinct keys accounts for all its positions. -/
theorem inDocument_covers {root : Tree} (hroot : root.WellKeyed) {found : Found}
    (h : inDocument root = .ok found) : found.Covers [] root.positions :=
  gather_covers (gather_of_inDocument hroot h)

/-- A draft stands at the position of a token, and the names there are those of its path. -/
theorem Found.Covers.exists_position {root : Tree} {found : Found}
    (h : found.Covers [] root.positions) {d : Draft} (hd : d ∈ found.drafts) :
    ∃ p ∈ root.positions, d.StandsAt p.names p.node ∧ Path.names d.id = p.names ∧
      ∀ n ∈ p.names, isName n = true := by
  obtain ⟨p, hp, hstands⟩ := exists_left h.drafts hd
  obtain ⟨hp, htoken⟩ := List.mem_filter.mp hp
  have hnamed := h.named p hp (isMember_of_isToken htoken)
  refine ⟨p, hp, hstands, ?_, hnamed⟩
  rw [hstands.id_eq, List.nil_append, Path.names_intercalate (Tree.names_ne_nil hp) hnamed]

/-- A draft has a path of names, and the path of its group is made of all of them but the last. -/
theorem located_of_mem {root : Tree} {found : Found} (h : inDocument root = .ok found)
    {d : Draft} (hd : d ∈ found.drafts) : d.Located := by
  obtain ⟨all, hall, hmem⟩ := exists_gather h
  obtain ⟨p, -, hstands, hnames, hnamed⟩ := (gather_covers hall).exists_position (hmem d hd)
  refine ⟨hnames ▸ hnamed, ?_⟩
  rw [hnames, hstands.group_eq]

/-! ## Paths of positions -/

/-- Names are told apart by their path. -/
theorem intercalate_inj {a b : List String} (ha : a ≠ []) (hb : b ≠ [])
    (hnameda : ∀ n ∈ a, isName n = true) (hnamedb : ∀ n ∈ b, isName n = true)
    (h : ".".intercalate a = ".".intercalate b) : a = b := by
  rw [← Path.names_intercalate ha hnameda, h, Path.names_intercalate hb hnamedb]

/-- With distinct keys no two positions of tokens and groups have the same path. -/
theorem Found.Covers.nodup_paths {root : Tree} (hroot : root.WellKeyed) {found : Found}
    (h : found.Covers [] root.positions) :
    ((root.positions.filter isMember).map fun p => ".".intercalate p.names).Nodup := by
  have hnames : ((root.positions.filter isMember).map Position.names).Nodup :=
    (root.nodup_positions hroot).sublist (List.filter_sublist.map _)
  refine List.Nodup.map_on ?_ hnames.of_map
  intro p hp q hq heq
  obtain ⟨hp', hmemberp⟩ := List.mem_filter.mp hp
  obtain ⟨hq', hmemberq⟩ := List.mem_filter.mp hq
  refine List.inj_on_of_nodup_map hnames hp hq ?_
  exact intercalate_inj (Tree.names_ne_nil hp') (Tree.names_ne_nil hq') (h.named p hp' hmemberp)
    (h.named q hq' hmemberq) heq

/-- A position of a token or a group can be told from its path. -/
theorem Found.Covers.eq_of_path {root : Tree} (hroot : root.WellKeyed) {found : Found}
    (h : found.Covers [] root.positions) {p q : Position} (hp : p ∈ root.positions)
    (hq : q ∈ root.positions) (hpmember : isMember p = true) (hqmember : isMember q = true)
    (hpath : ".".intercalate p.names = ".".intercalate q.names) : p = q :=
  List.inj_on_of_nodup_map (h.nodup_paths hroot) (List.mem_filter.mpr ⟨hp, hpmember⟩)
    (List.mem_filter.mpr ⟨hq, hqmember⟩) hpath

/-- No token has the path of a group. -/
theorem Found.Covers.id_not_mem_groups {root : Tree} (hroot : root.WellKeyed) {found : Found}
    (h : found.Covers [] root.positions) :
    ∀ d ∈ found.drafts, d.id ∉ found.groups.map Group.id := by
  intro d hd hgroup
  have htoken := List.mem_map_of_mem (f := Draft.id) hd
  rw [h.ids, List.mem_map] at htoken
  rw [h.groupIds, List.mem_map] at hgroup
  obtain ⟨p, hp, hpath⟩ := htoken
  obtain ⟨q, hq, hsame⟩ := hgroup
  obtain ⟨hp, htoken⟩ := List.mem_filter.mp hp
  obtain ⟨hq, hisGroup⟩ := List.mem_filter.mp hq
  -- the two would be at one position
  obtain rfl := h.eq_of_path hroot hp hq (isMember_of_isToken htoken)
    (isMember_of_isGroup hisGroup) (hpath.trans hsame.symm)
  simp [isGroup_of_isToken htoken] at hisGroup

/-- Discovery is complete and unambiguous: in a document with distinct keys it finds exactly the
tokens, in the order of the document, each with what stands at its position; no two positions of
tokens and groups have the same path, so no token has that of a group. -/
theorem inDocument_tokens {root : Tree} (hroot : root.WellKeyed) {found : Found}
    (h : inDocument root = .ok found) :
    List.Forall₂ (fun p d => d.StandsAt p.names p.node) (root.positions.filter isToken)
        found.drafts ∧
      ((root.positions.filter isMember).map fun p => ".".intercalate p.names).Nodup ∧
      ∀ d ∈ found.drafts, d.id ∉ found.groups.map Group.id := by
  have hcovers := inDocument_covers hroot h
  exact ⟨hcovers.drafts, hcovers.nodup_paths hroot, hcovers.id_not_mem_groups hroot⟩

/-- A document with a text that is passed over, and a group with a token of two modes. -/
def fastInside : Tree :=
  (Data.object [
    ("$note", .object [("$value", .text "unread")]),
    ("time", .object [
      ("$type", .text "duration"),
      ("fast", .object [
        ("$value", .text "1s"),
        ("$extensions", .object [("mode", .object [("still", .text "0s")]), ("by", .text "hand")]),
        ("part", .object [("$value", .text "2s")])])])]).tree

/-- For instance, the token in the group is the only one, and `time` is the only group. -/
theorem inDocument_tokens_fastInside : fastInside.WellKeyed ∧ ∃ found,
    inDocument fastInside = .ok found ∧
      List.Forall₂ (fun p d => d.StandsAt p.names p.node)
        (fastInside.positions.filter isToken) found.drafts ∧
      ((fastInside.positions.filter isMember).map fun p => ".".intercalate p.names) =
        ["time", "time.fast"] ∧
      ∀ d ∈ found.drafts, d.id ∉ found.groups.map Group.id := by
  have hkeyed : fastInside.WellKeyed := by decide +kernel
  have hfound : inDocument fastInside =
      .ok ((inDocument fastInside).toOption.getD .empty) := rfl
  obtain ⟨htokens, -, hgroups⟩ := inDocument_tokens hkeyed hfound
  exact ⟨hkeyed, _, hfound, htokens, by decide +kernel, hgroups⟩

end Discovery

end DesignTokens
