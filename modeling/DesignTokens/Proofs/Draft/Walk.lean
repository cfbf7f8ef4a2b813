import DesignTokens.Proofs.Draft.Gathering
import DesignTokens.Proofs.Members
import DesignTokens.Proofs.Path
import DesignTokens.Proofs.Tree.OfData

/-!
# Marks on a walk

On a walk through a document every token marks the groups around it, from the inside outwards, and
stops at the first one that is marked.  Nothing is left out by this, because the groups around a
marked group are marked as well.  So at each moment a group is marked when there is a token below it
among those that were met, and its members are the tokens right below it (`Trail.after`).

## Main statements

* `Discovery.mark_eq`: marking until a mark is met marks all groups on a path.
* `Discovery.Trail.addGroup_after`, `Discovery.Trail.addToken_after`: what one step does to a state.
* `Discovery.walkMembers_after`: what a walk through the members of a group does to it.
* `Discovery.inDocument_eq_gather`: with distinct keys a walk finds what can be gathered.
-/

namespace DesignTokens

open Outcome

/-- A draft has a path of names, and stands in the group right around it. -/
structure Draft.Located (d : Draft) : Prop where
  named : ∀ n ∈ Path.names d.id, Discovery.isName n = true
  group_eq : d.group = Path.ofNames (Path.names d.id).dropLast

theorem Draft.Located.group_eq_some_iff {d : Draft} (h : d.Located) {path : String} :
    d.group = some path ↔ (Path.names d.id).dropLast = Path.names path := by
  rw [h.group_eq]
  exact Path.ofNames_eq_some_iff fun n hn => h.named n ((List.dropLast_sublist _).mem hn)

namespace Discovery

/-! ## Marking -/

/-- The groups around a group that counts count as well, for groups with at most so many names on
their paths. -/
def ClosedUpTo (depth : Nat) (groups : Members Entered) : Prop :=
  ∀ p ∈ groups, p.2.counts = true → (Path.names p.1).length ≤ depth →
    ∀ q ∈ groups, Path.names q.1 <+: Path.names p.1 → q.2.counts = true

/-- Marks all groups on a path of names, up to a depth. -/
def markAll (names : List String) (depth : Nat) (groups : Members Entered) : Members Entered :=
  groups.map fun p => (p.1, { p.2 with
    counts := p.2.counts ||
      decide (Path.names p.1 <+: names ∧ (Path.names p.1).length ≤ depth) })

variable {names : List String} {groups : Members Entered}

/-- A change of groups that are too deep does not matter. -/
theorem ClosedUpTo.modify {depth : Nat} {path : String} {f : Entered → Entered}
    (h : ClosedUpTo depth groups) (hnodup : groups.names.Nodup)
    (hf : (Path.names path).length ≤ depth → ∀ e, (f e).counts = e.counts) :
    ClosedUpTo depth (Members.modify path f groups) := by
  rw [Members.modify_eq_map hnodup]
  intro p' hp' hcounts hlength q' hq' hstart
  obtain ⟨p, hp, rfl⟩ := List.mem_map.mp hp'
  obtain ⟨q, hq, rfl⟩ := List.mem_map.mp hq'
  -- a group that is not too deep has kept its mark
  have hkept : ∀ e : String × Entered, (Path.names e.1).length ≤ depth →
      (if e.1 = path then f e.2 else e.2).counts = e.2.counts := by
    intro e he
    split
    · rename_i heq
      exact hf (heq ▸ he) e.2
    · rfl
  dsimp only at hlength hstart ⊢
  rw [hkept p hlength] at hcounts
  rw [hkept q (hstart.length_le.trans hlength)]
  exact h p hp hcounts hlength q hq hstart

/-- Where all groups on a path count already, up to a depth, there is nothing to mark. -/
theorem markAll_eq_self {depth : Nat} (h : ∀ p ∈ groups, Path.names p.1 <+: names →
    (Path.names p.1).length ≤ depth → p.2.counts = true) : markAll names depth groups = groups := by
  have hsame : ∀ p ∈ groups, (p.1, { p.2 with
      counts := p.2.counts ||
        decide (Path.names p.1 <+: names ∧ (Path.names p.1).length ≤ depth) }) = p := by
    intro p hp
    by_cases hon : Path.names p.1 <+: names ∧ (Path.names p.1).length ≤ depth
    · have hcounts : p.2.counts = true := h p hp hon.1 hon.2
      rw [hcounts, Bool.true_or, ← hcounts]
    · simp [hon]
  rw [markAll, List.map_congr_left hsame, List.map_id']

/-- When the group at a depth is marked, marking those further out marks all of them. -/
theorem markAll_modify {depth : Nat} {path : String} (hnodup : groups.names.Nodup)
    (hpath : Path.names path = names.take (depth + 1)) (hdepth : depth < names.length) :
    markAll names depth (Members.modify path ({ · with counts := true }) groups) =
      markAll names (depth + 1) groups := by
  have hlength : (Path.names path).length = depth + 1 := by
    rw [hpath, List.length_take]
    omega
  rw [markAll, markAll, Members.modify_eq_map hnodup, List.map_map]
  refine List.map_congr_left fun p _ => ?_
  rw [Function.comp_apply]
  by_cases hp : p.1 = path
  · have hon : Path.names path <+: names := hpath ▸ List.take_prefix _ _
    simp [hp, hon, hlength]
  · -- no other group on the path has so many names
    have hother : Path.names p.1 <+: names → (Path.names p.1).length ≠ depth + 1 := by
      intro hstart hlength'
      refine hp (Path.names_injective ?_)
      rw [hpath, ← hlength']
      exact List.prefix_iff_eq_take.mp hstart
    simp only [hp, if_false]
    congr 3
    exact decide_eq_decide.mpr (and_congr_right fun hstart => by
      have := hother hstart
      omega)

/-- Marking until a mark is met marks all groups on a path, when the groups around a group that
counts count already. -/
theorem mark_eq (hnames : ∀ n ∈ names, isName n = true) (hnodup : groups.names.Nodup)
    (hentered : ∀ path, Path.names path <+: names → path ∈ groups.names) {depth : Nat}
    (hdepth : depth ≤ names.length) (hclosed : ClosedUpTo depth groups) :
    mark names depth groups = markAll names depth groups := by
  induction depth generalizing groups with
  | zero =>
    -- no path is without names
    rw [mark, markAll_eq_self]
    intro p _ _ hlength
    exact absurd (List.length_eq_zero_iff.mp (Nat.le_zero.mp hlength)) (Path.names_ne_nil p.1)
  | succ depth ih =>
    obtain ⟨path, hpath⟩ : ∃ path, path = ".".intercalate (names.take (depth + 1)) := ⟨_, rfl⟩
    have htake : Path.names path = names.take (depth + 1) := by
      rw [hpath, Path.names_intercalate]
      · exact List.ne_nil_of_length_pos (by rw [List.length_take]; omega)
      · exact fun n hn => hnames n (List.mem_of_mem_take hn)
    obtain ⟨group, hgroup⟩ : ∃ group, Members.get? path groups = some group := by
      refine Option.ne_none_iff_exists'.mp fun hnone => ?_
      exact Members.get?_eq_none_iff.mp hnone (hentered path (htake ▸ List.take_prefix _ _))
    rw [mark, ← hpath, hgroup]
    dsimp only
    split
    · -- the marking ends here, and everything further out is marked
      rename_i hcounts
      have hlength : (Path.names path).length ≤ depth + 1 := htake ▸ List.length_take_le _ _
      rw [markAll_eq_self]
      intro p hp hon hle
      exact hclosed _ (Members.mem_of_get? hgroup) hcounts hlength p hp
        (htake ▸ List.prefix_take_iff.mpr ⟨hon, hle⟩)
    · -- the group at this depth is marked, and what is further out is still closed
      have hless : ClosedUpTo depth groups := fun p hp hcounts hle =>
        hclosed p hp hcounts (by omega)
      have hlength : (Path.names path).length = depth + 1 := by
        rw [htake, List.length_take]
        omega
      rw [ih (by rwa [Members.names_modify]) (by rwa [Members.names_modify]) (by omega)
        (hless.modify hnodup fun hle => by omega), markAll_modify hnodup htake (by omega)]

/-! ## States of a walk -/

variable {drafts others : List Draft} {passed new : List Group} {d : Draft} {g : Group}

/-- A group as it stands when some drafts were found: its members are those right below it, and it
counts when there is one somewhere below it. -/
def Entered.after (drafts : List Draft) (g : Group) : Entered where
  toGroup := { g with members := (drafts.filter fun d => d.group = some g.id).map Draft.id }
  counts := drafts.any fun d => Path.Beneath d.id g.id

/-- The state of a walk that has found some drafts and has entered some groups. -/
def Trail.after (drafts : List Draft) (passed : List Group) : Trail where
  tokens := drafts.map fun d => (d.id, d)
  groups := passed.map fun g => (g.id, .after drafts g)

/-- The groups that count among those that were entered. -/
def kept (drafts : List Draft) (passed : List Group) : List Group :=
  ((passed.map (Entered.after drafts)).filter (·.counts)).map (·.toGroup)

theorem Trail.names_groups_after (drafts : List Draft) (passed : List Group) :
    (Trail.after drafts passed).groups.names = passed.map Group.id := by
  rw [after, Members.names, List.map_map]
  rfl

theorem Trail.found_after (drafts : List Draft) (passed : List Group) :
    (Trail.after drafts passed).found = ⟨drafts, kept drafts passed⟩ := by
  rw [found, after, kept, List.map_map, List.filter_map, List.map_map, List.filter_map,
    List.map_map]
  congr 1
  exact List.map_id' drafts

/-- At each moment of a walk the groups around a group that counts count as well. -/
theorem Trail.closed_after (drafts : List Draft) (passed : List Group) (depth : Nat) :
    ClosedUpTo depth (Trail.after drafts passed).groups := by
  intro p hp hcounts _ q hq hstart
  obtain ⟨g, -, rfl⟩ := List.mem_map.mp hp
  obtain ⟨h, -, rfl⟩ := List.mem_map.mp hq
  simp only [Entered.after, List.any_eq_true, decide_eq_true_eq] at hcounts ⊢
  obtain ⟨d, hd, hbeneath⟩ := hcounts
  -- the token below the inner group is below the outer one as well
  exact ⟨d, hd, Path.beneath_iff.mpr (hstart.trans (Path.beneath_iff.mp hbeneath))⟩

/-- Further drafts give a group further members, and may make it count. -/
theorem Entered.after_append (drafts others : List Draft) (g : Group) :
    Entered.after (drafts ++ others) g =
      ⟨{ g with members := (Entered.after drafts g).members ++ (Entered.after others g).members },
        (Entered.after drafts g).counts || (Entered.after others g).counts⟩ := by
  simp [after]

/-- Drafts that are not below a group give it no members, and it does not count. -/
theorem Entered.after_of_not_beneath (hlocated : ∀ d ∈ drafts, d.Located)
    (hapart : ∀ d ∈ drafts, ¬ Path.Beneath d.id g.id) :
    Entered.after drafts g = ⟨{ g with members := [] }, false⟩ := by
  have hmembers : (drafts.filter fun d => d.group = some g.id) = [] := by
    refine List.filter_eq_nil_iff.mpr fun d hd hgroup => hapart d hd (Path.beneath_iff.mpr ?_)
    exact (hlocated d hd).group_eq_some_iff.mp (of_decide_eq_true hgroup) ▸ List.prefix_rfl
  have hcounts : (drafts.any fun d => Path.Beneath d.id g.id) = false := by
    simpa using hapart
  rw [after, hmembers, hcounts, List.map_nil]

theorem Entered.after_append_left (hlocated : ∀ d ∈ others, d.Located)
    (hapart : ∀ d ∈ others, ¬ Path.Beneath d.id g.id) :
    Entered.after (drafts ++ others) g = .after drafts g := by
  rw [after_append, after_of_not_beneath hlocated hapart, List.append_nil, Bool.or_false]
  rfl

theorem Entered.after_append_right (hlocated : ∀ d ∈ drafts, d.Located)
    (hapart : ∀ d ∈ drafts, ¬ Path.Beneath d.id g.id) :
    Entered.after (drafts ++ others) g = .after others g := by
  rw [after_append, after_of_not_beneath hlocated hapart, List.nil_append, Bool.false_or]
  rfl

/-! ## Steps of a walk -/

/-- Nothing that was met has a path that starts with some names. -/
structure Fresh (pre : List String) (drafts : List Draft) (passed : List Group) : Prop where
  drafts : ∀ d ∈ drafts, ¬ pre <+: Path.names d.id
  groups : ∀ g ∈ passed, ¬ pre <+: Path.names g.id

/-- Entering a group that is new adds it to the groups that were entered. -/
theorem Trail.addGroup_after (hlocated : ∀ d ∈ drafts, d.Located) (hmembers : g.members = [])
    (hfresh : Fresh (Path.names g.id) drafts passed) :
    (Trail.after drafts passed).addGroup g = .after drafts (passed ++ [g]) := by
  have hnew : g.id ∉ (Trail.after drafts passed).groups.names := by
    rw [names_groups_after]
    intro hmem
    obtain ⟨h, hh, heq⟩ := List.mem_map.mp hmem
    exact hfresh.groups h hh (heq ▸ List.prefix_rfl)
  have hgroup : Entered.after drafts g = ⟨g, false⟩ := by
    rw [Entered.after_of_not_beneath hlocated fun d hd hbeneath =>
      hfresh.drafts d hd hbeneath.names_start, ← hmembers]
  rw [addGroup, Members.set_of_not_mem hnew, after, after, List.map_append, List.map_singleton,
    hgroup]

/-- A token becomes a member of the group right around it, and all groups around it count. -/
theorem mark_after (hd : d.Located) {path : String} (hgroup : d.group = some path)
    (hnodup : (passed.map Group.id).Nodup)
    (haround : ∀ other, Path.names other <+: Path.names path → other ∈ passed.map Group.id) :
    mark (Path.names path) (Path.names path).length
        (Members.modify path (fun group => { group with members := group.members ++ [d.id] })
          (Trail.after drafts passed).groups) =
      (Trail.after (drafts ++ [d]) passed).groups := by
  have hpath := hd.group_eq_some_iff.mp hgroup
  have hkeys : (Trail.after drafts passed).groups.names.Nodup := by
    rwa [Trail.names_groups_after]
  -- a further member changes no mark
  have hclosed : ClosedUpTo (Path.names path).length (Members.modify path
      (fun group => { group with members := group.members ++ [d.id] })
      (Trail.after drafts passed).groups) :=
    (Trail.closed_after drafts passed _).modify hkeys fun _ _ => rfl
  have hentered : ∀ other, Path.names other <+: Path.names path → other ∈ (Members.modify path
      (fun group => { group with members := group.members ++ [d.id] })
      (Trail.after drafts passed).groups).names := by
    intro other hother
    rw [Members.names_modify, Trail.names_groups_after]
    exact haround other hother
  rw [mark_eq (fun n hn => hd.named n ((List.dropLast_sublist _).mem (hpath ▸ hn)))
    (by rwa [Members.names_modify]) hentered le_rfl hclosed]
  rw [markAll, Members.modify_eq_map hkeys, Trail.after, List.map_map, List.map_map]
  refine List.map_congr_left fun g _ => ?_
  have hcounts : (Entered.after [d] g).counts =
      decide (Path.names g.id <+: Path.names path ∧
        (Path.names g.id).length ≤ (Path.names path).length) := by
    simpa [Entered.after, Path.beneath_iff, hpath] using List.IsPrefix.length_le
  rw [Entered.after_append, hcounts]
  by_cases hself : g.id = path
  · simp [Entered.after, hgroup, hself]
  · simp [Entered.after, hgroup, hself, Ne.symm hself]

/-- Taking a token that is new adds it to the tokens, and to the members and the marks of the groups
around it. -/
theorem Trail.addToken_after (hd : d.Located) (hnew : d.id ∉ drafts.map Draft.id)
    (hnodup : (passed.map Group.id).Nodup)
    (haround : ∀ path, Path.names path <+: (Path.names d.id).dropLast →
      path ∈ passed.map Group.id) :
    (Trail.after drafts passed).addToken d = .after (drafts ++ [d]) passed := by
  have htokens : Members.set d.id d (Trail.after drafts passed).tokens =
      (Trail.after (drafts ++ [d]) passed).tokens := by
    rw [Members.set_of_not_mem]
    · simp [after]
    · rwa [after, Members.names, List.map_map]
  rw [addToken, htokens]
  congr 1
  cases hgroup : d.group with
  | none =>
    -- at the top there is no group to mark
    have hnone : (Path.names d.id).dropLast = [] := by
      rw [hd.group_eq] at hgroup
      cases hnames : (Path.names d.id).dropLast with
      | nil => rfl
      | cons name rest => simp [hnames, Path.ofNames] at hgroup
    refine List.map_congr_left fun g _ => ?_
    have hapart : ¬ Path.Beneath d.id g.id := by
      rw [Path.beneath_iff, hnone, List.prefix_nil]
      exact Path.names_ne_nil g.id
    rw [Entered.after_append_left (List.forall_mem_singleton.mpr hd)
      (List.forall_mem_singleton.mpr hapart)]
  | some path => exact mark_after hd hgroup hnodup (hd.group_eq_some_iff.mp hgroup ▸ haround)

/-! ## What is gathered on the way -/

/-- The names of the members that are tokens or groups. -/
def memberNames (ms : List (Key × Tree)) : List String :=
  (ms.filter fun m => !isReserved m.1.name).map (·.1.name)

/-- The tokens and the groups of each group have names of their own. -/
inductive Parted : List (Key × Tree) → Prop where
  | intro {ms : List (Key × Tree)} : (memberNames ms).Nodup →
    (∀ m ∈ ms, isReserved m.1.name = false → m.2.has valueField = false → Parted m.2.members) →
    Parted ms

/-- Distinct keys are names of their own. -/
theorem parted_of_wellKeyed {t : Tree} (h : t.WellKeyed) : Parted t.members := by
  induction h with
  | mapping members span hnodup _ ih =>
    exact .intro (hnodup.sublist (List.filter_sublist.map _)) fun m hm _ _ => ih m hm
  | _ => exact .intro .nil (by simp [Tree.members, Tree.members?])

theorem Parted.rest {m : Key × Tree} {ms : List (Key × Tree)} (h : Parted (m :: ms)) :
    Parted ms := by
  obtain ⟨hnodup, hinside⟩ := h
  exact ⟨hnodup.sublist (((List.sublist_cons_self m ms).filter _).map _),
    fun n hn => hinside n (List.mem_cons_of_mem _ hn)⟩

/-- What is gathered has paths that start with the names of a group and one of some further names;
its groups are those that count among the groups that a walk enters. -/
structure Found.Below (found : Found) (names next : List String) (passed : List Group) : Prop where
  located : ∀ d ∈ found.drafts, d.Located
  drafts : ∀ d ∈ found.drafts, ∃ name ∈ next, names ++ [name] <+: Path.names d.id
  groups : ∀ g ∈ passed, ∃ name ∈ next, names ++ [name] <+: Path.names g.id
  nodup : (passed.map Group.id).Nodup
  groups_eq : found.groups = kept found.drafts passed

/-- Paths that go on with different names are different. -/
theorem eq_of_common_path {path : List String} {a b : String} (ha : names ++ [a] <+: path)
    (hb : names ++ [b] <+: path) : a = b := by
  have heq : names ++ [a] = names ++ [b] :=
    (List.prefix_of_prefix_length_le ha hb (by simp)).eq_of_length (by simp)
  simpa using heq

/-- Groups that are put together have paths of their own when no path is in both lists. -/
theorem nodup_ids_append (hpassed : (passed.map Group.id).Nodup) (hnew : (new.map Group.id).Nodup)
    (hapart : ∀ g ∈ passed, ∀ h ∈ new, g.id ≠ h.id) : ((passed ++ new).map Group.id).Nodup := by
  rw [List.map_append]
  refine List.nodup_append.mpr ⟨hpassed, hnew, fun a ha b hb => ?_⟩
  obtain ⟨g, hg, rfl⟩ := List.mem_map.mp ha
  obtain ⟨h, hh, rfl⟩ := List.mem_map.mp hb
  exact hapart g hg h hh

theorem kept_congr (h : ∀ g ∈ passed, Entered.after drafts g = .after others g) :
    kept drafts passed = kept others passed := by
  rw [kept, kept, List.map_congr_left h]

namespace Found.Below

variable {a b : Found} {next later : List String} {name : String}

theorem nil : Found.empty.Below names [] [] :=
  ⟨by simp [empty], by simp [empty], by simp, .nil, rfl⟩

/-- What is gathered in two places counts in each of them as it does alone. -/
theorem append (ha : a.Below names next passed) (hb : b.Below names later new)
    (hapart : ∀ name ∈ next, name ∉ later) :
    (a.append b).Below names (next ++ later) (passed ++ new) := by
  have hleft : ∀ d ∈ a.drafts, ∀ g ∈ new, ¬ Path.Beneath d.id g.id := by
    intro d hd g hg hbeneath
    obtain ⟨n, hn, hpre⟩ := ha.drafts d hd
    obtain ⟨m, hm, hpre'⟩ := hb.groups g hg
    exact hapart n hn (eq_of_common_path hpre (hpre'.trans hbeneath.names_start) ▸ hm)
  have hright : ∀ d ∈ b.drafts, ∀ g ∈ passed, ¬ Path.Beneath d.id g.id := by
    intro d hd g hg hbeneath
    obtain ⟨n, hn, hpre⟩ := hb.drafts d hd
    obtain ⟨m, hm, hpre'⟩ := ha.groups g hg
    exact hapart m hm (eq_of_common_path hpre (hpre'.trans hbeneath.names_start) ▸ hn)
  refine ⟨List.forall_mem_append.mpr ⟨ha.located, hb.located⟩,
    List.forall_mem_append.mpr ⟨fun d hd => ?_, fun d hd => ?_⟩,
    List.forall_mem_append.mpr ⟨fun g hg => ?_, fun g hg => ?_⟩, ?_, ?_⟩
  · exact (ha.drafts d hd).imp fun _ h => ⟨List.mem_append_left _ h.1, h.2⟩
  · exact (hb.drafts d hd).imp fun _ h => ⟨List.mem_append_right _ h.1, h.2⟩
  · exact (ha.groups g hg).imp fun _ h => ⟨List.mem_append_left _ h.1, h.2⟩
  · exact (hb.groups g hg).imp fun _ h => ⟨List.mem_append_right _ h.1, h.2⟩
  · refine nodup_ids_append ha.nodup hb.nodup fun g hg h hh hsame => ?_
    obtain ⟨n, hn, hpre⟩ := ha.groups g hg
    obtain ⟨m, hm, hpre'⟩ := hb.groups h hh
    exact hapart n hn (eq_of_common_path hpre (hsame ▸ hpre') ▸ hm)
  · have hkept : kept (a.drafts ++ b.drafts) (passed ++ new) =
        kept (a.drafts ++ b.drafts) passed ++ kept (a.drafts ++ b.drafts) new := by
      simp [kept]
    rw [Found.append, ha.groups_eq, hb.groups_eq, hkept,
      kept_congr fun g hg => Entered.after_append_left hb.located fun d hd => hright d hd g hg,
      kept_congr fun g hg => Entered.after_append_right ha.located fun d hd => hleft d hd g hg]

theorem token (hd : d.Located) (hid : Path.names d.id = names ++ [name]) :
    Found.Below ⟨[d], []⟩ names [name] [] where
  located := List.forall_mem_singleton.mpr hd
  drafts := List.forall_mem_singleton.mpr ⟨name, List.mem_cons_self, hid ▸ List.prefix_rfl⟩
  groups := by simp
  nodup := .nil
  groups_eq := rfl

/-- What is gathered in a group has the names of the group on its paths, and the group counts when
there is a token. -/
theorem inGroup {inside : Found} (h : inside.Below (names ++ [name]) next passed)
    (hid : Path.names g.id = names ++ [name]) :
    (inside.inGroup g).Below names [name] (g :: passed) := by
  have hself : ∀ path : String, (∃ n ∈ next, names ++ [name] ++ [n] <+: Path.names path) →
      names ++ [name] <+: Path.names path := by
    rintro path ⟨n, -, hpre⟩
    exact (List.prefix_append _ _).trans hpre
  refine ⟨Found.drafts_inGroup g inside ▸ h.located, ?_, List.forall_mem_cons.mpr ⟨?_, ?_⟩, ?_, ?_⟩
  · rw [Found.drafts_inGroup]
    exact fun d hd => ⟨name, List.mem_cons_self, hself d.id (h.drafts d hd)⟩
  · exact ⟨name, List.mem_cons_self, hid ▸ List.prefix_rfl⟩
  · exact fun g hg => ⟨name, List.mem_cons_self, hself g.id (h.groups g hg)⟩
  · -- a group inside has more names on its path
    refine List.nodup_cons.mpr ⟨fun hmem => ?_, h.nodup⟩
    obtain ⟨g', hg', heq⟩ := List.mem_map.mp hmem
    obtain ⟨n, -, hpre⟩ := h.groups g' hg'
    have hlength := hpre.length_le
    rw [heq, hid] at hlength
    simp at hlength
  · rw [Found.drafts_inGroup, Found.inGroup]
    cases hinside : inside.drafts with
    | nil =>
      have hnone : ∀ gs : List Group, kept [] gs = [] := by
        intro gs
        simp [kept, Entered.after]
      rw [List.isEmpty_nil, if_pos rfl, h.groups_eq, hinside, hnone, hnone]
    | cons d rest =>
      obtain ⟨n, -, rest', hrest⟩ := h.drafts d (hinside ▸ List.mem_cons_self)
      have hbeneath : Path.Beneath d.id g.id :=
        ⟨n :: rest', by simp, by rw [hid, ← hrest, List.append_assoc, List.singleton_append]⟩
      have hcounts : (Entered.after (d :: rest) g).counts = true := by
        simp [Entered.after, hbeneath]
      rw [List.isEmpty_cons, if_neg (by simp), h.groups_eq, hinside, kept, kept, List.map_cons,
        List.filter_cons_of_pos hcounts, List.map_cons]
      rfl

end Found.Below

/-! ## Runs of a walk -/

/-- A walk can go on below names: what was found is located, the groups that were entered have paths
of their own, and all groups on the way to the names are among them. -/
structure Ready (names : List String) (drafts : List Draft) (passed : List Group) : Prop where
  located : ∀ d ∈ drafts, d.Located
  nodup : (passed.map Group.id).Nodup
  around : ∀ path, Path.names path <+: names → path ∈ passed.map Group.id

variable {next : List String} {name : String} {found : Found}

theorem Fresh.append (h : Fresh (names ++ [name]) drafts passed)
    (hfound : found.Below names next new) (hname : name ∉ next) :
    Fresh (names ++ [name]) (drafts ++ found.drafts) (passed ++ new) := by
  constructor
  · refine List.forall_mem_append.mpr ⟨h.drafts, fun d hd hpre => ?_⟩
    obtain ⟨n, hn, hpre'⟩ := hfound.drafts d hd
    exact hname (eq_of_common_path hpre hpre' ▸ hn)
  · refine List.forall_mem_append.mpr ⟨h.groups, fun g hg hpre => ?_⟩
    obtain ⟨n, hn, hpre'⟩ := hfound.groups g hg
    exact hname (eq_of_common_path hpre hpre' ▸ hn)

/-- Inside a group that was new everything is new. -/
theorem Fresh.inside (h : Fresh (names ++ [name]) drafts passed)
    (hid : Path.names g.id = names ++ [name]) (inner : String) :
    Fresh (names ++ [name] ++ [inner]) drafts (passed ++ [g]) := by
  have hshort : names ++ [name] <+: names ++ [name] ++ [inner] := List.prefix_append _ _
  constructor
  · exact fun d hd hpre => h.drafts d hd (hshort.trans hpre)
  · refine List.forall_mem_append.mpr ⟨fun g hg hpre => h.groups g hg (hshort.trans hpre), ?_⟩
    refine List.forall_mem_singleton.mpr fun hpre => ?_
    have hlength := hpre.length_le
    rw [hid] at hlength
    simp at hlength

/-- After what was gathered below some names a walk can go on below the same names. -/
theorem Ready.append (h : Ready names drafts passed) (hfound : found.Below names next new)
    (hfresh : ∀ name ∈ next, Fresh (names ++ [name]) drafts passed) :
    Ready names (drafts ++ found.drafts) (passed ++ new) where
  located := List.forall_mem_append.mpr ⟨h.located, hfound.located⟩
  nodup := by
    refine nodup_ids_append h.nodup hfound.nodup fun g hg g' hg' hsame => ?_
    obtain ⟨n, hn, hpre⟩ := hfound.groups g' hg'
    exact (hfresh n hn).groups g hg (hsame ▸ hpre)
  around path hpath := by
    rw [List.map_append]
    exact List.mem_append_left _ (h.around path hpath)

/-- With a group that is new a walk can go on below the names of the group. -/
theorem Ready.enter (h : Ready names drafts passed) (hid : Path.names g.id = names ++ [name])
    (hfresh : Fresh (names ++ [name]) drafts passed) :
    Ready (names ++ [name]) drafts (passed ++ [g]) where
  located := h.located
  nodup := by
    refine nodup_ids_append h.nodup (List.nodup_singleton _) fun g' hg' _ hself hsame => ?_
    obtain rfl := List.mem_singleton.mp hself
    exact hfresh.groups g' hg' (hsame ▸ hid ▸ List.prefix_rfl)
  around path hpath := by
    rw [List.map_append, List.mem_append]
    obtain heq | hpath := List.prefix_concat_iff.mp hpath
    · exact .inr (List.mem_singleton.mpr (Path.names_injective (heq.trans hid.symm)))
    · exact .inl (h.around path hpath)

/-- Below the names of a group a token can be taken that is new. -/
theorem Ready.addToken (h : Ready names drafts passed) (hd : d.Located)
    (hid : Path.names d.id = names ++ [name]) (hfresh : Fresh (names ++ [name]) drafts passed) :
    (Trail.after drafts passed).addToken d = .after (drafts ++ [d]) passed := by
  refine Trail.addToken_after hd (fun hmem => ?_) h.nodup ?_
  · obtain ⟨e, he, heq⟩ := List.mem_map.mp hmem
    exact hfresh.drafts e he (heq ▸ hid ▸ List.prefix_rfl)
  · rw [hid, List.dropLast_concat]
    exact h.around

mutual

-- The induction is on the tree.  What is gathered says which state the walk comes to from any state
-- in which it can go on, so the state is generalized.

/-- A walk through the members of a group adds what is gathered from them to the state. -/
theorem walkMembers_after {names : List String} (hnames : ∀ n ∈ names, isName n = true)
    {type : Option TokenType} : (ms : List (Key × Tree)) → Parted ms → {found : Found} →
    gatherMembers (Path.ofNames names) type ms = .ok found →
    ∃ new, found.Below names (memberNames ms) new ∧
      ∀ drafts passed, Ready names drafts passed →
        (∀ name ∈ memberNames ms, Fresh (names ++ [name]) drafts passed) →
        walkMembers (Path.ofNames names) type ms (.after drafts passed) =
          .ok (.after (drafts ++ found.drafts) (passed ++ new))
  | [], _, found, h => by
    obtain rfl := Except.ok.inj h
    refine ⟨[], .nil, fun drafts passed _ _ => ?_⟩
    rw [walkMembers, Found.empty, List.append_nil, List.append_nil]
  | (key, child) :: rest, hparted, found, h => by
    obtain ⟨hreserved, h⟩ | ⟨hreserved, hname, first, later, hfirst, hlater, rfl⟩ :=
      gatherMembers_cons_eq_ok.mp h
    · obtain ⟨new, hbelow, hwalk⟩ := walkMembers_after hnames rest hparted.rest h
      have hmembers : memberNames ((key, child) :: rest) = memberNames rest := by
        simp [memberNames, hreserved]
      rw [hmembers]
      refine ⟨new, hbelow, fun drafts passed hready hfresh => ?_⟩
      rw [walkMembers, if_pos hreserved, hwalk drafts passed hready hfresh]
    · have hmembers : memberNames ((key, child) :: rest) = [key.name] ++ memberNames rest := by
        simp [memberNames, hreserved]
      have hlater' := walkMembers_after hnames rest hparted.rest hlater
      obtain ⟨hnodup, hinside⟩ := hparted
      rw [hmembers, List.singleton_append] at hnodup
      obtain ⟨hnew, -⟩ := List.nodup_cons.mp hnodup
      obtain ⟨new, hbelow, hwalk⟩ := walkChild_after hnames child key.name hname
        (hinside _ List.mem_cons_self hreserved) hfirst
      obtain ⟨new', hbelow', hwalk'⟩ := hlater'
      rw [hmembers]
      refine ⟨new ++ new', hbelow.append hbelow' (by simpa using hnew),
        fun drafts passed hready hfresh => ?_⟩
      obtain ⟨hself, hothers⟩ := List.forall_mem_cons.mp hfresh
      rw [walkMembers, if_neg (by simp [hreserved]), if_neg (by simp [hname]),
        hwalk drafts passed hready hself]
      -- the names of the later members are still new
      have hrest := hwalk' (drafts ++ first.drafts) (passed ++ new)
        (hready.append hbelow (by simpa using hself)) fun n hn =>
          (hothers n hn).append hbelow fun hmem => hnew (List.mem_singleton.mp hmem ▸ hn)
      rw [Found.append, ← List.append_assoc, ← List.append_assoc]
      exact hrest

/-- A walk through a node adds what is gathered at the node to the state. -/
theorem walkChild_after {names : List String} (hnames : ∀ n ∈ names, isName n = true)
    {type : Option TokenType} : (node : Tree) → (name : String) → isName name = true →
    (node.has valueField = false → Parted node.members) → {found : Found} →
    gatherChild (Path.ofNames names) (Path.below (Path.ofNames names) name) type node = .ok found →
    ∃ new, found.Below names [name] new ∧
      ∀ drafts passed, Ready names drafts passed → Fresh (names ++ [name]) drafts passed →
        walkChild (Path.ofNames names) (Path.below (Path.ofNames names) name) type node
            (.after drafts passed) =
          .ok (.after (drafts ++ found.drafts) (passed ++ new))
  | .mapping members span, name, hname, hparted, found, h => by
    have hpath : Path.names (Path.below (Path.ofNames names) name) = names ++ [name] := by
      rw [Path.names_below hname, Path.namesOf_ofNames hnames]
    have hall : ∀ n ∈ names ++ [name], isName n = true :=
      List.forall_mem_append.mpr ⟨hnames, List.forall_mem_singleton.mpr hname⟩
    cases gatherChild_eq_ok_iff.mp h with
    | @token _ _ _ _ d hgiven hvalue hd =>
      obtain ⟨hid, hgroup⟩ : d.id = Path.below (Path.ofNames names) name ∧
          d.group = Path.ofNames names := by
        obtain ⟨-, _, -, _, -, _, -, rfl⟩ := token_eq_ok.mp hd
        exact ⟨rfl, rfl⟩
      have hlocated : d.Located := by
        refine ⟨by rwa [hid, hpath], ?_⟩
        rw [hgroup, hid, hpath, List.dropLast_concat]
      refine ⟨[], .token hlocated (hid ▸ hpath), fun drafts passed hready hfresh => ?_⟩
      have hstep := hready.addToken hlocated (hid ▸ hpath) hfresh
      simp [walkChild, hgiven, hvalue, hd, hstep]
    | @group _ _ given text ext inside hgiven hvalue htext hext hinside =>
      have hhas : (Tree.mapping members span).has valueField = false := by
        simpa [Tree.get?, Tree.has] using hvalue
      rw [Path.some_below_ofNames] at hinside
      obtain ⟨new, hbelow, hwalk⟩ := walkMembers_after hall members (hparted hhas) hinside
      obtain ⟨g, hg⟩ : ∃ g : Group, g = ⟨Path.below (Path.ofNames names) name, given.or type, text,
        Tree.dataMembers ext, []⟩ := ⟨_, rfl⟩
      have hid : Path.names g.id = names ++ [name] := by rw [hg, hpath]
      rw [← hg]
      refine ⟨g :: new, hbelow.inGroup hid, fun drafts passed hready hfresh => ?_⟩
      have hstep : (Trail.after drafts passed).addGroup g = .after drafts (passed ++ [g]) :=
        Trail.addGroup_after hready.located (by rw [hg]) (hid ▸ hfresh)
      have hrest := hwalk drafts (passed ++ [g]) (hready.enter hid hfresh) fun n _ =>
        hfresh.inside hid n
      rw [Found.drafts_inGroup, ← List.singleton_append, ← List.append_assoc, ← hrest, walkChild,
        hgiven]
      subst hg
      simp [hvalue, htext, hext, hstep, Path.some_below_ofNames, bind, Except.bind]
  | .null _, _, _, _, _, h => nomatch gatherChild_eq_ok_iff.mp h
  | .scalar .., _, _, _, _, h => nomatch gatherChild_eq_ok_iff.mp h
  | .sequence .., _, _, _, _, h => nomatch gatherChild_eq_ok_iff.mp h

end

/-- A walk through a document in which the tokens and the groups of each group have names of their
own finds what can be gathered. -/
theorem inDocument_eq_gather {root : Tree} (h : Parted root.members) :
    inDocument root = gather root := by
  cases hgather : gather root with
  | error e => exact (alike_inDocument root).error_iff.mpr hgather
  | ok found =>
    cases root with
    | mapping members span =>
      rw [gather, bind_eq_ok] at hgather
      obtain ⟨type, htype, hmembers⟩ := hgather
      have hnames : ∀ n ∈ ([] : List String), isName n = true := by simp
      obtain ⟨new, hbelow, hwalk⟩ := walkMembers_after hnames members h hmembers
      have hready : Ready [] [] [] := by
        refine ⟨by simp, .nil, fun path hpath => ?_⟩
        exact absurd (List.prefix_nil.mp hpath) (Path.names_ne_nil path)
      have hend : walkMembers none type members .start = .ok (.after found.drafts new) :=
        hwalk [] [] hready fun name _ => ⟨by simp, by simp⟩
      -- the marks that are left say which groups count
      have hfound : (Trail.after found.drafts new).found = found := by
        rw [Trail.found_after, ← hbelow.groups_eq]
      simp [inDocument, htype, hend, hfound]
    | _ => simp [gather, Grammar.failKind, Grammar.fail] at hgather

/-- What a walk finds in a document with distinct keys is what can be gathered. -/
theorem gather_of_inDocument {root : Tree} (hroot : root.WellKeyed) {found : Found}
    (h : inDocument root = .ok found) : gather root = .ok found :=
  inDocument_eq_gather (parted_of_wellKeyed hroot) ▸ h

end Discovery

end DesignTokens
