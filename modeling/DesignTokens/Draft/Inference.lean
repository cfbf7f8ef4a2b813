import DesignTokens.Draft

/-!
# Types from references

A token without a type is a reference, and it gets the type of the token that it leads to.  Tokens
on the way get the type as well.
-/

namespace DesignTokens.Inference

/-- Where a chain of references led. -/
inductive Outcome where
  /-- To a token with a type, over the tokens of a chain. -/
  | found (chain : List String) (type : TokenType)
  /-- To an issue. -/
  | failed (failure : Failure)
  /-- To a token without a type whose value is no reference; none is found in a document. -/
  | noReference
  /-- Over more tokens than were allowed for. -/
  | exhausted

/-- An issue of a reference. -/
def issue (problem : Problem) (node : Tree) : Outcome :=
  .failed (.issue (.ofNode problem node))

/-- Follows references from a token; `chain` holds the tokens before it and the token itself.  No
token can stand in it twice, so fuel for one token more than there are is enough. -/
def follow (drafts : List Draft) (start : Draft) : (fuel : Nat) → (chain : List String) → Draft →
    Outcome
  | 0, _, _ => .exhausted
  | fuel + 1, chain, current =>
    match current.type with
    | some type => .found chain type
    | none =>
      match current.value.text?.bind Reference.parse? with
      | none => .noReference
      | some reference =>
        match Draft.find? reference.target drafts with
        | none => issue (.unknownTarget reference current.id) current.value
        | some target =>
          -- the cycle is reported at the token where the chain began
          if chain.contains target.id then issue (.circular (chain ++ [target.id])) start.value
          else follow drafts start fuel (chain ++ [target.id]) target

/-- The drafts with a type for the tokens of a chain. -/
def assign (chain : List String) (type : TokenType) (drafts : List Draft) : List Draft :=
  drafts.map fun d => if chain.contains d.id then { d with type := some type } else d

/-- Gives types to tokens one after the other.  After an issue the types that were given before
stay. -/
def inferAll : (ids : List String) → List Draft → List Draft × Option Failure
  | [], drafts => (drafts, none)
  | id :: rest, drafts =>
    match Draft.find? id drafts with
    | none => inferAll rest drafts
    | some draft =>
      match draft.type with
      | some _ => inferAll rest drafts
      | none =>
        match follow drafts draft (drafts.length + 1) [draft.id] draft with
        | .found chain type => inferAll rest (assign chain type drafts)
        | .failed failure => (drafts, some failure)
        | .noReference => (drafts, some (.fault .notReference))
        | .exhausted => (drafts, some (.fault .cyclic))

/-- Gives every token without a type the type of the token that it leads to. -/
def infer (drafts : List Draft) : List Draft × Option Failure :=
  inferAll (drafts.map Draft.id) drafts

end DesignTokens.Inference
