import DesignTokens.Problem

/-!
# Limits

Documents may come from anywhere, so their size, the number of their nodes and their depth are
limited.  The root of a tree is at depth zero.
-/

namespace DesignTokens

/-- The limits of documents. -/
structure Limits where
  /-- The most characters of a text. -/
  size : Int
  /-- The most nodes of a tree. -/
  nodes : Int
  /-- The depth of the deepest nodes. -/
  depth : Int
deriving DecidableEq

namespace Limits

/-- The usual limits. -/
def standard : Limits := ⟨5000000, 200000, 64⟩

/-- The number of levels that a tree may have. -/
def levels (l : Limits) : Nat := (l.depth + 1).toNat

/-- Fails for a text that is too long. -/
def checkSize (l : Limits) (size : Nat) : Except Failure Unit :=
  if l.size < size then .error (.issue (.ofDocument (.tooLong size l.size) .origin)) else .ok ()

/-- Counts one more node after `count` others, or fails when that is one too many. -/
def countNode (l : Limits) (span : Span) (count : Nat) : Except Failure Nat :=
  if l.nodes < (count + 1 : Nat) then
    .error (.issue (.ofDocument (.tooManyNodes l.nodes) span))
  else .ok (count + 1)

/-- The failure of a node that is too deep. -/
def tooDeep {α : Type} (l : Limits) (span : Span) : Except Failure α :=
  .error (.issue (.ofDocument (.tooDeep l.depth) span))

/-- Every node that is counted is within the limit. -/
theorem countNode_le {l : Limits} {span : Span} {count n : Nat}
    (h : l.countNode span count = .ok n) : n = count + 1 ∧ (n : Int) ≤ l.nodes := by
  unfold countNode at h
  split at h
  · simp at h
  · simp only [Except.ok.injEq] at h
    omega

end Limits

end DesignTokens
