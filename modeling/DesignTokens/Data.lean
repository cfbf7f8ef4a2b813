import DesignTokens.Number.Binary64

/-!
# Structured data

Plain values as documents hold them: scalars, lists, and objects whose members keep their order.
-/

namespace DesignTokens

/-! ## Scalars -/

/-- A scalar other than null. -/
inductive Scalar where
  /-- A truth value. -/
  | bool (b : Bool)
  /-- An integer without bound. -/
  | int (i : Int)
  /-- A double precision number. -/
  | float (x : Binary64)
  | text (s : String)
deriving DecidableEq, Inhabited

namespace Scalar

/-- Whether the scalar is an integer or a double precision number. -/
def isNumber : Scalar → Bool
  | .int _ | .float _ => true
  | _ => false

def text? : Scalar → Option String
  | .text s => some s
  | _ => none

/-- The integer that a number or a truth value is. -/
def integral? : Scalar → Option Int
  | .bool b => some (if b then 1 else 0)
  | .int i => some i
  | .float x => x.toInt?
  | .text _ => none

/-- Numeric equality: `1` and `1.0` are the same, and the truth values count as `0` and `1`. -/
def same (a b : Scalar) : Bool :=
  match a, b with
  | .text s, .text t => s = t
  | .float x, .float y => x.same y
  | _, _ =>
    match a.integral?, b.integral? with
    | some i, some j => i = j
    | _, _ => false

end Scalar

/-! ## Data -/

/-- Structured data.  Within one object the names are meant to be distinct. -/
inductive Data where
  /-- Nothing. -/
  | null
  | scalar (s : Scalar)
  /-- Items in order. -/
  | list (items : List Data)
  /-- Named members in order. -/
  | object (members : List (String × Data))
deriving Inhabited

namespace Data

abbrev text (s : String) : Data := .scalar (.text s)

/-- An integer. -/
abbrev int (i : Int) : Data := .scalar (.int i)

/-- A double precision number. -/
abbrev float (x : Binary64) : Data := .scalar (.float x)

/-- A truth value. -/
abbrev bool (b : Bool) : Data := .scalar (.bool b)

end Data

/-! ## Members by name

Lists of named values stand for maps that remember the order of first insertion. -/

/-- Values by name, in the order in which the names were first given. -/
abbrev Members (α : Type) := List (String × α)

namespace Members

variable {α : Type}

/-- The value of a name. -/
def get? (name : String) : Members α → Option α
  | [] => none
  | (k, v) :: rest => if k = name then some v else get? name rest

/-- Whether the name is there. -/
def has (name : String) (m : Members α) : Bool :=
  (get? name m).isSome

/-- Sets the value of a name: a name that is there keeps its position, a new one goes to the
end. -/
def set (name : String) (value : α) : Members α → Members α
  | [] => [(name, value)]
  | (k, v) :: rest => if k = name then (k, value) :: rest else (k, v) :: set name value rest

/-- Changes the value of a name that is there. -/
def modify (name : String) (f : α → α) : Members α → Members α
  | [] => []
  | (k, v) :: rest => if k = name then (k, f v) :: rest else (k, v) :: modify name f rest

/-- The members without a name. -/
def erase (name : String) (m : Members α) : Members α :=
  m.filter fun p => p.1 ≠ name

/-- The names in order. -/
def names (m : Members α) : List String :=
  m.map Prod.fst

/-- The members of a list of pairs, a later value of a name replacing an earlier one. -/
def ofPairs (pairs : List (String × α)) : Members α :=
  pairs.foldl (fun m p => set p.1 p.2 m) []

/-- After setting a name it has the new value, and every other name keeps its value. -/
theorem get?_set (m : Members α) (name other : String) (value : α) :
    get? other (set name value m) = if other = name then some value else get? other m := by
  induction m with
  | nil =>
    by_cases h : name = other
    · simp [set, get?, h]
    · simp [set, get?, h, Ne.symm h]
  | cons p rest ih =>
    obtain ⟨k, v⟩ := p
    by_cases hk : k = name
    · subst hk
      by_cases ho : other = k
      · simp [set, get?, ho]
      · simp [set, get?, ho, Ne.symm ho]
    · by_cases ho : k = other
      · subst ho
        simp [set, get?, hk]
      · simp [set, get?, hk, ho, ih]

/-- Setting a name that is there keeps the names in their order; a new name goes to the end. -/
theorem names_set (m : Members α) (name : String) (value : α) :
    names (set name value m) = if has name m then names m else names m ++ [name] := by
  induction m with
  | nil => simp [set, names, has, get?]
  | cons p rest ih =>
    obtain ⟨k, v⟩ := p
    by_cases hk : k = name
    · simp [set, names, has, get?, hk]
    · have hrest : names (set name value rest) =
          if has name rest then names rest else names rest ++ [name] := ih
      simp only [names, has] at hrest
      simp only [set, names, has, get?, hk, if_false, List.map_cons, hrest]
      split <;> simp_all

end Members

namespace Data

/-! ## Equality of numbers as numbers -/

mutual

/-- Equality of data where numbers count by their value and members by their name. -/
def same : Data → Data → Bool
  | .null, .null => true
  | .scalar a, .scalar b => a.same b
  | .list xs, .list ys => sameList xs ys
  | .object ms, .object ns => ms.length = ns.length && sameMembers ms ns
  | _, _ => false

/-- Equality of items, one by one. -/
def sameList : List Data → List Data → Bool
  | [], [] => true
  | x :: xs, y :: ys => same x y && sameList xs ys
  | _, _ => false

/-- Whether every member is there with an equal value. -/
def sameMembers : List (String × Data) → Members Data → Bool
  | [], _ => true
  | (k, v) :: ms, ns =>
    (match Members.get? k ns with
      | some w => same v w
      | none => false) && sameMembers ms ns

end

/-! ## Identity -/

mutual

/-- Whether data is the same, numbers of different kinds being different. -/
def isIdentical : Data → Data → Bool
  | .null, .null => true
  | .scalar a, .scalar b => a = b
  | .list xs, .list ys => areIdentical xs ys
  | .object ms, .object ns => haveIdentical ms ns
  | _, _ => false

/-- Whether items are the same, one by one. -/
def areIdentical : List Data → List Data → Bool
  | [], [] => true
  | x :: xs, y :: ys => isIdentical x y && areIdentical xs ys
  | _, _ => false

/-- Whether members are the same, one by one. -/
def haveIdentical : List (String × Data) → List (String × Data) → Bool
  | [], [] => true
  | (k, v) :: ms, (l, w) :: ns => k = l && isIdentical v w && haveIdentical ms ns
  | _, _ => false

end

mutual

theorem isIdentical_iff : (a b : Data) → (isIdentical a b = true ↔ a = b)
  | .null, b => by cases b <;> simp [isIdentical]
  | .scalar s, b => by cases b <;> simp [isIdentical]
  | .list xs, b => by cases b <;> simp [isIdentical, areIdentical_iff xs]
  | .object ms, b => by cases b <;> simp [isIdentical, haveIdentical_iff ms]

theorem areIdentical_iff : (xs ys : List Data) → (areIdentical xs ys = true ↔ xs = ys)
  | [], ys => by cases ys <;> simp [areIdentical]
  | x :: xs, ys => by
    cases ys <;> simp [areIdentical, isIdentical_iff x, areIdentical_iff xs]

theorem haveIdentical_iff :
    (ms ns : List (String × Data)) → (haveIdentical ms ns = true ↔ ms = ns)
  | [], ns => by cases ns <;> simp [haveIdentical]
  | (k, v) :: ms, ns => by
    cases ns <;> simp [haveIdentical, isIdentical_iff v, haveIdentical_iff ms, Prod.ext_iff]

end

instance : DecidableEq Data := fun a b => decidable_of_iff _ (isIdentical_iff a b)

end Data

end DesignTokens
