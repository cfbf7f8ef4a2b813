import DesignTokens.Proofs.Draft.Gathering
import DesignTokens.Proofs.Draft.Inference
import DesignTokens.Proofs.Value.Places

/-!
# Places of issues of tokens

What discovery and inference report points into the document.  The tokens that are found are nodes
of the document, and their values stand inside them.
-/

namespace DesignTokens

open DesignTokens.Outcome (exists_left)

/-- A draft as it stands in a node: the node of the token is inside, with all the values. -/
structure Draft.StandsIn (d : Draft) (t : Tree) : Prop where
  node : d.node.Inside t
  value : d.value.Inside d.node
  modes : ∀ m ∈ d.modes, m.2.Inside d.node

theorem Draft.StandsIn.inside {d : Draft} {t u : Tree} (h : d.StandsIn u) (hut : u.Inside t) :
    d.StandsIn t :=
  ⟨h.node.trans hut, h.value, h.modes⟩

/-- The issues of a computation are about no reference and point into a node, and what it returns
satisfies `Q`. -/
abbrev Placed {α : Type} (t : Tree) (x : Except Failure α) (Q : α → Prop) : Prop :=
  Reports (fun i => i.problem.reference? = none ∧ i.PointsInto t) (fun _ => True) x Q

section Placed

variable {α : Type} {t n : Tree} {x : Except Failure α} {Q : α → Prop}

theorem Placed.inside (hx : Placed n x Q) (hn : n.Inside t) : Placed t x Q :=
  hx.imp (fun _ ⟨hi, hpoints⟩ => ⟨hi, hpoints.inside hn⟩) fun _ => id

theorem Grammar.Traced.placed {F : Fault → Prop} (hx : Grammar.Traced F t x Q) : Placed t x Q :=
  (hx.imp (fun _ ⟨hi, hn⟩ => ⟨hi, .inl hn⟩) fun _ => id).weaken fun _ _ => trivial

theorem placed_fail {problem : Problem} (hproblem : problem.reference? = none)
    (hn : n.Inside t) : Placed t (Grammar.fail problem n) Q :=
  (Grammar.traced_fail (F := fun _ => True) hproblem hn).placed

theorem placed_failKind {what : Expectation} (hn : n.Inside t) :
    Placed t (Grammar.failKind what n) Q :=
  placed_fail rfl hn

theorem placed_key {problem : Problem} (hproblem : problem.reference? = none) {k : Key}
    (hk : t.HasKey k) : Placed t (.error (.issue (.ofKey problem k)) : Except Failure α) Q :=
  reports_issue ⟨hproblem, .inr ⟨k, hk, rfl, rfl⟩⟩

end Placed

/-- The values of a token with a type are read without any other fault than a number that is too
large. -/
theorem Draft.reports_values {d : Draft} {type : TokenType} (htype : d.type = some type) :
    Reports (fun _ => True) (· = .tooLarge) d.values fun _ => True := by
  have hvalue : ∀ n, Reports (fun _ => True) (· = .tooLarge) (Grammar.value type n) fun _ => True :=
    fun n => ((Grammar.traces_value type n).imp (fun _ _ => trivial) fun _ _ => trivial).weaken
      fun _ hfault => hfault.1
  unfold Draft.values
  rw [htype]
  refine (hvalue d.value).bind fun _ _ => .bind (reports_mapM (Q := fun _ => True) fun m _ => ?_)
    fun _ _ => reports_ok trivial
  exact (hvalue m.2).bind fun _ _ => reports_ok trivial

/-! ## Finding tokens -/

namespace Discovery

variable {t : Tree}

theorem placed_givenType : Placed t (givenType t) fun _ => True := by
  unfold givenType
  split
  · exact reports_ok trivial
  · rename_i n hn
    have hn := Tree.inside_of_get? hn
    split
    · exact placed_failKind hn
    · split
      · exact reports_ok trivial
      · exact placed_fail rfl hn

theorem placed_description : Placed t (description t) fun _ => True := by
  unfold description
  split
  · exact reports_ok trivial
  · split
    · exact reports_ok trivial
    · exact placed_failKind (Tree.inside_of_get? ‹_›)

theorem placed_extensions :
    Placed t (extensions t) fun ms => ∀ m ∈ ms, m.2.Inside t := by
  unfold extensions
  split
  · exact reports_ok (by simp)
  · rename_i n hn
    have hn := Tree.inside_of_get? hn
    split
    · rename_i ms hms
      refine reports_ok fun m hm => ?_
      exact (Tree.inside_of_mem_members (Tree.mem_members_of_members? hms hm)).trans hn
    · exact placed_failKind hn

theorem placed_modes {extensions : List (Key × Tree)} (hext : ∀ m ∈ extensions, m.2.Inside t) :
    Placed t (modes extensions) fun ms => ∀ m ∈ ms, m.2.Inside t := by
  unfold modes
  split
  · exact reports_ok (by simp)
  · rename_i k n hfind
    have hn : n.Inside t := hext _ (List.mem_of_find?_eq_some hfind)
    split
    · exact placed_failKind hn
    · rename_i ms hms
      refine reports_mapM ?_
      rintro ⟨key, node⟩ hm
      have hmem := Tree.mem_members_of_members? hms hm
      dsimp only
      split
      · -- the name of a mode is reported at its key
        exact placed_key rfl ⟨n, node, hn, hmem⟩
      · exact reports_ok ((Tree.inside_of_mem_members hmem).trans hn)

theorem placed_token {id : String} {group : Option String} {type : Option TokenType}
    {value : Tree} (hvalue : value.Inside t) :
    Placed t (token id group type t value) fun d => d.StandsIn t := by
  have hrest : Placed t (do
      let members ← extensions t
      let ms ← modes members
      return (⟨id, type, t, value, ms, ← description t,
        Members.erase modeField (Tree.dataMembers members), group⟩ : Draft)) (·.StandsIn t) :=
    placed_extensions.bind fun members hmembers => (placed_modes hmembers).bind fun ms hms =>
      placed_description.bind fun _ _ => reports_ok ⟨.here, hvalue, hms⟩
  cases type with
  | some type => exact hrest
  | none =>
    refine ((Grammar.traced_hole? (F := fun _ => True) none false).placed.inside hvalue).bind
      fun hole _ => ?_
    cases hole with
    | none => exact placed_fail rfl .here
    | some hole => exact hrest

/-- Everything that was found stands in a node. -/
def Found.StandsIn (found : Found) (t : Tree) : Prop := ∀ d ∈ found.drafts, d.StandsIn t

mutual

theorem placed_gatherMembers {parent : Option String} {type : Option TokenType} :
    (ms : List (Key × Tree)) → (t : Tree) → (∀ m ∈ ms, m ∈ t.members) →
    Placed t (gatherMembers parent type ms) (·.StandsIn t)
  | [], _, _ => reports_ok (by simp [Found.StandsIn, Found.empty])
  | (key, child) :: rest, t, hms => by
    obtain ⟨hkey, hrest⟩ := List.forall_mem_cons.mp hms
    rw [gatherMembers]
    split
    · exact placed_gatherMembers rest t hrest
    · split
      · exact placed_key rfl ⟨t, child, .here, hkey⟩
      · have hinside := Tree.inside_of_mem_members hkey
        have hchild : Placed t (gatherChild parent (Path.below parent key.name) type child)
            fun found : Found => found.StandsIn t :=
          Placed.inside ((placed_gatherChild child).imp (fun _ => id)
            fun _ hfound d hd => (hfound d hd).inside hinside) hinside
        refine hchild.bind fun first hfirst => (placed_gatherMembers rest t hrest).bind
          fun later hlater => reports_ok ?_
        exact List.forall_mem_append.mpr ⟨hfirst, hlater⟩

theorem placed_gatherChild {parent : Option String} {id : String} {type : Option TokenType} :
    (n : Tree) → Placed n (gatherChild parent id type n) (·.StandsIn n)
  | .mapping members span => by
    rw [gatherChild]
    refine placed_givenType.bind fun given _ => ?_
    split
    · rename_i value hvalue
      exact (placed_token (Tree.inside_of_get? hvalue)).bind fun d hd =>
        reports_ok (List.forall_mem_singleton.mpr hd)
    · refine placed_description.bind fun text _ => placed_extensions.bind fun ext _ => ?_
      refine (placed_gatherMembers members (.mapping members span) fun _ h => h).bind
        fun inside hinside => reports_ok ?_
      rwa [Found.StandsIn, Found.drafts_inGroup]
  | .null _ => by
    rw [gatherChild]
    exact placed_failKind .here
    all_goals simp
  | .scalar .. => by
    rw [gatherChild]
    exact placed_failKind .here
    all_goals simp
  | .sequence .. => by
    rw [gatherChild]
    exact placed_failKind .here
    all_goals simp

end

theorem placed_gather : Placed t (gather t) (·.StandsIn t) := by
  unfold gather
  split
  · exact placed_givenType.bind fun _ _ => placed_gatherMembers _ _ fun _ => id
  · exact placed_failKind .here

/-- Discovery reports issues at nodes of the document, and its drafts stand in the document. -/
theorem placed_inDocument : Placed t (inDocument t) (·.StandsIn t) where
  issue i hi := placed_gather.issue i ((alike_inDocument t).error_iff.mp hi)
  fault a ha := placed_gather.fault a ((alike_inDocument t).error_iff.mp ha)
  answer found hfound d hd := by
    obtain ⟨all, hall, hmem⟩ := exists_gather hfound
    exact placed_gather.answer all hall d (hmem d hd)

end Discovery

/-! ## Types from references -/

namespace Inference

/-- An issue of inference points at the value of a token.  Where a reference leads nowhere, the value
is the text of this reference. -/
def Issues (drafts : List Draft) (i : Issue) : Prop :=
  ∃ d ∈ drafts, (i.problem.reference? = none ∧ i.PointsAt d.value) ∨
    ∃ r, i.problem = .unknownTarget r d.id ∧ i.PointsAt d.value ∧
      d.value.text?.bind Reference.parse? = some r

theorem issues_of_follow {drafts : List Draft} {start current : Draft} {fuel : Nat}
    {chain : List String} {i : Issue} (hstart : start ∈ drafts) (hcurrent : current ∈ drafts)
    (h : follow drafts start fuel chain current = .failed (.issue i)) : Issues drafts i := by
  induction fuel generalizing chain current with
  | zero => simp [follow] at h
  | succ fuel ih =>
    rw [follow] at h
    split at h
    · simp at h
    · split at h
      · simp at h
      · rename_i r hr
        split at h
        · cases h
          exact ⟨current, hcurrent, .inr ⟨r, rfl, ⟨rfl, rfl⟩, hr⟩⟩
        · rename_i target hfind
          split at h
          · cases h
            exact ⟨start, hstart, .inl ⟨rfl, ⟨rfl, rfl⟩⟩⟩
          · exact ih (List.mem_of_find?_eq_some hfind) h

/-- Inference reports issues of the drafts that it started from. -/
theorem issues_of_inferAll {ids : List String} {drafts drafts' : List Draft} {i : Issue}
    (h : inferAll ids drafts = (drafts', some (.issue i))) : Issues drafts i := by
  induction ids generalizing drafts with
  | nil => simp [inferAll] at h
  | cons id rest ih =>
    rw [inferAll] at h
    split at h
    · exact ih h
    · rename_i draft hfind
      split at h
      · exact ih h
      · split at h
        · rename_i chain type hfollow
          -- a draft with its type has the node, the value and the path of the draft before
          obtain ⟨d, hd, hissue⟩ := ih h
          obtain ⟨e, he, hext⟩ := exists_left (extends_assign chain type drafts) hd
          rw [hext.eq] at hissue
          exact ⟨e, he, hissue⟩
        · rename_i failure hfollow
          simp only [Prod.mk.injEq, Option.some.injEq] at h
          have hmem := List.mem_of_find?_eq_some hfind
          exact issues_of_follow hmem hmem (h.2 ▸ hfollow)
        all_goals simp at h

end Inference

end DesignTokens
