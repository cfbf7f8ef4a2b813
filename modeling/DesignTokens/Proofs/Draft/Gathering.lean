import DesignTokens.Draft.Discovery
import DesignTokens.Proofs.Outcome

/-!
# Gathering tokens and groups

What is found in a document can be said without a state: the members of a group give their tokens
and groups one after the other, and the group itself comes in front of them when there are tokens
among them.  A walk fails wherever gathering does, with the same failure, and has no other tokens
(`alike_inDocument`).
-/

namespace DesignTokens

open Outcome

namespace Discovery

/-- Of lists with the same length both are empty, or none is. -/
theorem isEmpty_eq_of_length_eq {α β : Type} {xs : List α} {ys : List β}
    (h : xs.length = ys.length) : xs.isEmpty = ys.isEmpty := by
  rw [Bool.eq_iff_iff, List.isEmpty_iff_length_eq_zero, h, List.isEmpty_iff_length_eq_zero]

/-! ## Gathering -/

namespace Found

/-- Nothing. -/
def empty : Found := ⟨[], []⟩

/-- What was found first, and what was found after it. -/
def append (a b : Found) : Found := ⟨a.drafts ++ b.drafts, a.groups ++ b.groups⟩

/-- What was found in a group, with the group itself unless it has no tokens. -/
def inGroup (group : Group) (inside : Found) : Found :=
  if inside.drafts.isEmpty then inside
  else
    let members := (inside.drafts.filter fun d => d.group = some group.id).map Draft.id
    ⟨inside.drafts, { group with members := members } :: inside.groups⟩

/-- A group is no draft, so the drafts are those inside it. -/
theorem drafts_inGroup (group : Group) (inside : Found) :
    (inside.inGroup group).drafts = inside.drafts := by
  rw [inGroup]
  split <;> rfl

end Found

mutual

/-- What is gathered from the members of a group; `inherited` is the type of the group. -/
def gatherMembers (parent : Option String) (inherited : Option TokenType) :
    List (Key × Tree) → Except Failure Found
  | [] => .ok .empty
  | (key, child) :: rest =>
    if isReserved key.name then gatherMembers parent inherited rest
    else if !isName key.name then .error (.issue (.ofKey (.invalidName key.name) key))
    else do
      let first ← gatherChild parent (Path.below parent key.name) inherited child
      return first.append (← gatherMembers parent inherited rest)

/-- What is gathered at a node with a name. -/
def gatherChild (parent : Option String) (id : String) (inherited : Option TokenType) :
    Tree → Except Failure Found
  | .mapping members span => do
    let node := Tree.mapping members span
    let type := (← givenType node).or inherited
    match node.get? valueField with
    | some value => return ⟨[← token id parent type node value], []⟩
    | none =>
      let group : Group := {
        id := id
        type := type
        description := ← description node
        extensions := Tree.dataMembers (← extensions node)
        members := [] }
      return (← gatherMembers (some id) type members).inGroup group
  | node => Grammar.failKind .member node

end

/-- What is gathered from a document. -/
def gather (root : Tree) : Except Failure Found :=
  match root with
  | .mapping members _ => do gatherMembers none (← givenType root) members
  | _ => Grammar.failKind .object root

/-! ## What gathering comes to -/

/-- A token is found when it has a type or is a reference, and its extensions, its modes and its
description can be taken. -/
theorem token_eq_ok {id : String} {group : Option String} {type : Option TokenType}
    {node value : Tree} {d : Draft} :
    token id group type node value = .ok d ↔
      (type = none → ∃ h, Grammar.hole? none false value = .ok (some h)) ∧
        ∃ members, extensions node = .ok members ∧ ∃ ms, modes members = .ok ms ∧
          ∃ text, description node = .ok text ∧
            d = ⟨id, type, node, value, ms, text,
              Members.erase modeField (Tree.dataMembers members), group⟩ := by
  -- the part that does not depend on the type
  have hrest : ∀ d, (do
      let members ← extensions node
      let ms ← modes members
      return ⟨id, type, node, value, ms, ← description node,
        Members.erase modeField (Tree.dataMembers members), group⟩ : Except Failure Draft) = .ok d ↔
      ∃ members, extensions node = .ok members ∧ ∃ ms, modes members = .ok ms ∧
        ∃ text, description node = .ok text ∧
          d = ⟨id, type, node, value, ms, text,
            Members.erase modeField (Tree.dataMembers members), group⟩ := by
    intro d
    simp only [bind_eq_ok, pure_eq_ok, eq_comm (a := d)]
  rw [← hrest]
  cases type with
  | some type => simp [token]
  | none =>
    -- without a type the value has to be a reference
    cases hhole : Grammar.hole? none false value with
    | error e => simp [token, hhole, bind, Except.bind]
    | ok found =>
      cases found with
      | none => simp [token, hhole, Grammar.fail, bind, Except.bind]
      | some h => simp [token, hhole]

/-- What is gathered at a node: the draft of a token, or a group with what its members give. -/
inductive FoundAt (parent : Option String) (id : String) (inherited : Option TokenType) :
    Tree → Found → Prop where
  | token {members : List (Key × Tree)} {span : Span} {given : Option TokenType} {value : Tree}
    {d : Draft} :
    givenType (.mapping members span) = .ok given →
    (Tree.mapping members span).get? valueField = some value →
    Discovery.token id parent (given.or inherited) (.mapping members span) value = .ok d →
    FoundAt parent id inherited (.mapping members span) ⟨[d], []⟩
  | group {members : List (Key × Tree)} {span : Span} {given : Option TokenType}
    {text : Option String} {ext : List (Key × Tree)} {inside : Found} :
    givenType (.mapping members span) = .ok given →
    (Tree.mapping members span).get? valueField = none →
    description (.mapping members span) = .ok text →
    extensions (.mapping members span) = .ok ext →
    gatherMembers (some id) (given.or inherited) members = .ok inside →
    FoundAt parent id inherited (.mapping members span)
      (inside.inGroup ⟨id, given.or inherited, text, Tree.dataMembers ext, []⟩)

theorem gatherChild_eq_ok_iff {parent : Option String} {id : String} {inherited : Option TokenType}
    {node : Tree} {found : Found} :
    gatherChild parent id inherited node = .ok found ↔ FoundAt parent id inherited node found := by
  constructor
  · intro h
    cases node with
    | mapping members span =>
      rw [gatherChild] at h
      simp only [bind_eq_ok] at h
      obtain ⟨given, hgiven, h⟩ := h
      split at h
      · simp only [bind_eq_ok, pure_eq_ok] at h
        obtain ⟨d, hd, rfl⟩ := h
        exact .token hgiven ‹_› hd
      · simp only [bind_eq_ok, pure_eq_ok] at h
        obtain ⟨text, htext, ext, hext, inside, hinside, rfl⟩ := h
        exact .group hgiven ‹_› htext hext hinside
    | _ => simp [gatherChild, Grammar.failKind, Grammar.fail] at h
  · rintro (⟨hgiven, hvalue, hd⟩ | ⟨hgiven, hvalue, htext, hext, hinside⟩)
    · simp [gatherChild, hgiven, hvalue, hd]
    · simp [gatherChild, hgiven, hvalue, htext, hext, hinside]

/-- A reserved member is passed over, and what any other one gives comes first. -/
theorem gatherMembers_cons_eq_ok {parent : Option String} {inherited : Option TokenType} {key : Key}
    {child : Tree} {rest : List (Key × Tree)} {found : Found} :
    gatherMembers parent inherited ((key, child) :: rest) = .ok found ↔
      (isReserved key.name = true ∧ gatherMembers parent inherited rest = .ok found) ∨
      (isReserved key.name = false ∧ isName key.name = true ∧ ∃ first later,
        gatherChild parent (Path.below parent key.name) inherited child = .ok first ∧
        gatherMembers parent inherited rest = .ok later ∧ first.append later = found) := by
  rw [gatherMembers]
  cases isReserved key.name <;> cases isName key.name <;> simp

/-! ## Walks and gathering -/

/-- A walk has only tokens that it had before, or that are gathered. -/
def Trail.Collects (before after : Trail) (found : Found) : Prop :=
  ∀ d ∈ after.tokens.map Prod.snd, d ∈ before.tokens.map Prod.snd ∨ d ∈ found.drafts

theorem mem_of_mem_set {α : Type} {name : String} {a b : α} {m : Members α}
    (h : b ∈ (Members.set name a m).map Prod.snd) : b = a ∨ b ∈ m.map Prod.snd := by
  induction m with
  | nil => exact .inl (List.mem_singleton.mp h)
  | cons p rest ih =>
    obtain ⟨k, v⟩ := p
    rw [Members.set] at h
    split at h
    · exact (List.mem_cons.mp h).imp_right (List.mem_cons_of_mem _)
    · obtain rfl | h := List.mem_cons.mp h
      · exact .inr List.mem_cons_self
      · exact (ih h).imp_right (List.mem_cons_of_mem _)

mutual

-- The induction is on the tree.  Each step of the walk comes to the same failure as the step of
-- gathering beside it, so all that has to be followed are the tokens.

theorem alike_walkMembers {parent : Option String} {inherited : Option TokenType} :
    (ms : List (Key × Tree)) → (s : Trail) →
    Alike (s.Collects · ·) (walkMembers parent inherited ms s) (gatherMembers parent inherited ms)
  | [], s => .ok fun _ => .inl
  | (key, child) :: rest, s => by
    rw [walkMembers, gatherMembers]
    split
    · exact alike_walkMembers rest s
    · split
      · exact .error _
      · refine (alike_walkChild child s).bind fun s' first hfirst => ?_
        rw [← bind_pure (walkMembers parent inherited rest s')]
        refine (alike_walkMembers rest s').bind fun s'' later hlater => .ok fun d hd => ?_
        -- what is found later comes behind what was found first
        obtain hd | hd := hlater d hd
        · exact (hfirst d hd).imp_right (List.mem_append_left _)
        · exact .inr (List.mem_append_right _ hd)

theorem alike_walkChild {parent : Option String} {id : String} {inherited : Option TokenType} :
    (node : Tree) → (s : Trail) →
    Alike (s.Collects · ·) (walkChild parent id inherited node s)
      (gatherChild parent id inherited node)
  | .mapping members span, s => by
    rw [walkChild, gatherChild]
    refine .same_bind fun given => ?_
    dsimp only
    cases (Tree.mapping members span).get? valueField with
    | some value =>
      refine .same_bind fun d => .ok fun e he => ?_
      obtain rfl | he := mem_of_mem_set he
      · exact .inr List.mem_cons_self
      · exact .inl he
    | none =>
      refine .same_bind fun text => .same_bind fun ext => ?_
      rw [← bind_pure (walkMembers (some id) (given.or inherited) members _)]
      refine (alike_walkMembers members _).bind fun s' inside hinside => .ok fun e he => ?_
      rw [Found.drafts_inGroup]
      exact hinside e he
  | .null _, _ => .error _
  | .scalar .., _ => .error _
  | .sequence .., _ => .error _

end

/-- A walk through a document fails as gathering does, and has only tokens that are gathered. -/
theorem alike_inDocument (root : Tree) :
    Alike (fun found all => ∀ d ∈ found.drafts, d ∈ all.drafts) (inDocument root) (gather root) := by
  cases root with
  | mapping members span =>
    rw [inDocument, gather]
    refine .same_bind fun type => ?_
    rw [← bind_pure (gatherMembers none type members)]
    refine (alike_walkMembers members .start).bind fun s all hall => .ok fun d hd => ?_
    exact (hall d hd).resolve_left (by simp [Trail.start])
  | _ => exact .error _

/-- What is found by a walk through a document is gathered. -/
theorem exists_gather {root : Tree} {found : Found} (h : inDocument root = .ok found) :
    ∃ all, gather root = .ok all ∧ ∀ d ∈ found.drafts, d ∈ all.drafts :=
  (alike_inDocument root).exists_right h

end Discovery

end DesignTokens
