import DesignTokens.Reference
import DesignTokens.Text.Glob

/-!
# Fragments of output

A fragment is a piece of output for one token in one mode.  The store of fragments keeps the order
in which they were first set: a fragment with the key of an earlier one takes its place.
-/

namespace DesignTokens.Output

/-- A piece of output for one token in one mode. -/
structure Fragment where
  /-- The path of the token. -/
  token : String
  /-- The format that the piece is written in. -/
  format : String
  /-- The name of the piece in its format. -/
  name : String
  /-- The text of the piece. -/
  value : String
  mode : String
  /-- Which of several renditions of the token this is. -/
  variant : Option String
deriving DecidableEq

/-- The name of a piece for which none or an empty one is given: the path of the token. -/
def Fragment.nameOf (token : String) (given : Option String) : String :=
  match given with
  | some name => if name = "" then token else name
  | none => token

/-- Whether two fragments have the same key: everything but their texts. -/
def Fragment.sameKey (a b : Fragment) : Bool :=
  { a with value := b.value } = b

/-- A store of fragments. -/
abbrev Fragments := List Fragment

namespace Fragments

/-- The store with a fragment set. -/
def set (f : Fragment) : Fragments → Fragments
  | [] => [f]
  | g :: rest => if g.sameKey f then f :: rest else g :: set f rest

/-- The store with fragments set one after the other. -/
def setAll (fs : List Fragment) (store : Fragments) : Fragments :=
  fs.foldl (fun store f => store.set f) store

/-- Which fragments are asked for. -/
structure Query where
  format : String
  /-- Globs for the paths of tokens; without them every token counts. -/
  tokens : Option (List String)
  /-- The mode; without it every mode counts. -/
  mode : Option String
  /-- The rendition; without it every rendition counts. -/
  variant : Option String

/-- Whether a fragment is asked for. -/
def Query.accepts (q : Query) (f : Fragment) : Bool :=
  f.format = q.format && q.tokens.all (Text.fitsAny · f.token) && q.mode.all (· = f.mode) &&
    q.variant.all (some · = f.variant)

/-- The fragments that are asked for, in order. -/
def select (q : Query) (store : Fragments) : List Fragment :=
  store.filter q.accepts

/-- A fragment that is set is in the store. -/
theorem mem_set (f : Fragment) (store : Fragments) : f ∈ store.set f := by
  induction store with
  | nil => simp [set]
  | cons g rest ih =>
    unfold set
    split
    · simp
    · simp [ih]

/-- The store grows by one fragment unless there is one with the same key. -/
theorem length_set (f : Fragment) (store : Fragments) :
    (store.set f).length = store.length + if store.any (·.sameKey f) then 0 else 1 := by
  induction store with
  | nil => simp [set]
  | cons g rest ih =>
    unfold set
    split
    · simp_all
    · simp_all [List.length_cons]
      omega

end Fragments

end DesignTokens.Output
