import DesignTokens.Limits

/-!
# Trees from structured data

Structured data that has no text becomes a tree whose nodes are all at the origin.
-/

namespace DesignTokens.Tree

/-! ## Counting -/

/-- The number of nodes after counting one more at a depth, or why it cannot be one. -/
def enter (limits : Limits) (depth count : Nat) : Except Failure Nat := do
  let count ← limits.countNode .origin count
  if limits.depth < depth then limits.tooDeep .origin else return count

mutual

/-- The tree of structured data at a depth, and the number of nodes counted with it. -/
def wrap (limits : Limits) (depth count : Nat) : Data → Except Failure (Tree × Nat)
  | .null => do return (.null .origin, ← enter limits depth count)
  | .scalar v => do return (.scalar v .origin, ← enter limits depth count)
  | .list xs => do
    let (items, count) ← wrapItems limits (depth + 1) (← enter limits depth count) xs
    return (.sequence items .origin, count)
  | .object ms => do
    let (members, count) ← wrapMembers limits (depth + 1) (← enter limits depth count) ms
    return (.mapping members .origin, count)

/-- The trees of items. -/
def wrapItems (limits : Limits) (depth count : Nat) :
    List Data → Except Failure (List Tree × Nat)
  | [] => .ok ([], count)
  | x :: xs => do
    let (item, count) ← wrap limits depth count x
    let (items, count) ← wrapItems limits depth count xs
    return (item :: items, count)

/-- The trees of members. -/
def wrapMembers (limits : Limits) (depth count : Nat) :
    List (String × Data) → Except Failure (List (Key × Tree) × Nat)
  | [] => .ok ([], count)
  | (k, v) :: ms => do
    let (value, count) ← wrap limits depth count v
    let (members, count) ← wrapMembers limits depth count ms
    return ((⟨k, .origin⟩, value) :: members, count)

end

/-- The tree of structured data. -/
def ofData (limits : Limits) (d : Data) : Except Failure Tree :=
  (·.1) <$> wrap limits 0 0 d

end DesignTokens.Tree
