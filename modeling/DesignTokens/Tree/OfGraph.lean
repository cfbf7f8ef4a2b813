import DesignTokens.Limits
import DesignTokens.Yaml.Graph

/-!
# Trees from graphs

A graph unfolds into a tree: a node that is shared stands at every place where it is used.  A node
that leads back to itself would unfold without end, so the limits decide how far it goes: the
recursion is over the levels that are left, and every visit to a node is counted.
-/

namespace DesignTokens.Tree

open Yaml

/-! ## Places -/

/-- The range between two places. -/
def spanBetween (start stop : Mark) : Span :=
  ⟨start.line + 1, start.column + 1, start.offset, (stop.offset - start.offset : Nat), none⟩

/-- The range of a node. -/
def nodeSpan (n : Node) : Span := spanBetween n.start n.stop

/-! ## Keys -/

/-- The key that a node is: a scalar that was not a key of the same mapping before. -/
def keyOf (g : Graph) (seen : List String) (number : Nat) : Except Failure Key :=
  let node := g.node number
  let span := nodeSpan node
  match node.content with
  | .scalar _ name =>
    if seen.contains name then .error (.issue (.ofKey (.duplicateKey name) ⟨name, span⟩))
    else .ok ⟨name, span⟩
  | _ => .error (.issue (.ofKey .keyNotText ⟨"", span⟩))

/-! ## Nodes -/

/-- Unfolding counts the nodes that were visited, also when it fails. -/
abbrev Unfold := ExceptT Failure (StateM Nat)

/-- Counts a visit to a node at a place. -/
def visit (limits : Limits) (span : Span) : Unfold Unit := do
  let count ← get
  set (count + 1)
  let _ ← (limits.countNode span count : Except Failure Nat)

/-- Unfolds the members of a mapping by a function for the values; `seen` holds the names of the
members before them. -/
def unfoldMembers (g : Graph) (unfoldValue : Nat → Unfold Tree) :
    (seen : List String) → List (Nat × Nat) → Unfold (List (Key × Tree))
  | _, [] => return []
  | seen, (k, v) :: rest => do
    let key ← (keyOf g seen k : Except Failure Key)
    let value ← unfoldValue v
    return (key, value) :: (← unfoldMembers g unfoldValue (key.name :: seen) rest)

/-- Unfolds items by a function for each of them. -/
def unfoldItems (unfoldItem : Nat → Unfold Tree) : List Nat → Unfold (List Tree)
  | [] => return []
  | n :: rest => do
    let item ← unfoldItem n
    return item :: (← unfoldItems unfoldItem rest)

/-- The tree of a scalar. -/
def ofScalar (version : Version) (tag : ScalarTag) (text : String) (span : Span) :
    Except Failure Tree :=
  match readScalar version tag text with
  | .ok (.scalar value) => .ok (.scalar value span)
  | .ok _ => .ok (.null span)
  | .error fault => .error (.fault fault)

/-- Unfolds the node of a number into as many levels as are left. -/
def unfold (g : Graph) (version : Version) (limits : Limits) : (levels : Nat) → (number : Nat) →
    Unfold Tree
  | 0, number => do
    let span := nodeSpan (g.node number)
    visit limits span
    (limits.tooDeep span : Except Failure Tree)
  | levels + 1, number => do
    -- a node that leads back to itself is visited again and again, until a limit ends it
    let node := g.node number
    let span := nodeSpan node
    visit limits span
    match node.content with
    | .scalar tag text => (ofScalar version tag text span : Except Failure Tree)
    | .sequence items =>
      return .sequence (← unfoldItems (unfold g version limits levels) items) span
    | .mapping members =>
      return .mapping (← unfoldMembers g (unfold g version limits levels) [] members) span

/-- The tree that a node of a graph unfolds to. -/
def ofGraph (g : Graph) (version : Version) (limits : Limits) (root : Nat) :
    Except Failure Tree :=
  ((unfold g version limits limits.levels root).run.run 0).1

end DesignTokens.Tree
