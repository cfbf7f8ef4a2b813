import DesignTokens.Value.Template

/-!
# Values as they are written

A table remembers where references stood by the steps that lead to them, and puts them back there.
A step may be a position even where an object stands, and then the reference becomes a member at
that position.  So the objects of a written value have members at steps, where those of structured
data have members with names; `Written.data` names a position by its digits.
-/

namespace DesignTokens

/-- A value as it is written. -/
inductive Written where
  /-- Nothing. -/
  | null
  | scalar (s : Scalar)
  /-- Items in order. -/
  | list (items : List Written)
  /-- Members at steps in order. -/
  | object (members : List (Step × Written))
deriving Inhabited

namespace Written

abbrev text (s : String) : Written := .scalar (.text s)

/-! ## From and to data -/

mutual

/-- Structured data as a written value. -/
def ofData : Data → Written
  | .null => .null
  | .scalar s => .scalar s
  | .list items => .list (ofItems items)
  | .object members => .object (ofMembers members)

/-- The items of a list as written values. -/
def ofItems : List Data → List Written
  | [] => []
  | d :: ds => ofData d :: ofItems ds

/-- The members of an object as members at steps. -/
def ofMembers : Members Data → List (Step × Written)
  | [] => []
  | (name, d) :: ms => (.field name, ofData d) :: ofMembers ms

end

/-- The name of the member at a step. -/
def nameOf : Step → String
  | .field name => name
  | .index n => toString n

mutual

/-- A written value as structured data. -/
def data : Written → Data
  | .null => .null
  | .scalar s => .scalar s
  | .list items => .list (dataItems items)
  | .object members => .object (dataMembers members)

/-- Items as structured data. -/
def dataItems : List Written → List Data
  | [] => []
  | w :: ws => w.data :: dataItems ws

/-- Members at steps as members with names. -/
def dataMembers : List (Step × Written) → Members Data
  | [] => []
  | (step, w) :: ms => (nameOf step, w.data) :: dataMembers ms

end

mutual

/-- Nothing is lost when data is written. -/
theorem data_ofData : (d : Data) → (ofData d).data = d
  | .null => rfl
  | .scalar _ => rfl
  | .list items => by rw [ofData, data, dataItems_ofItems items]
  | .object members => by rw [ofData, data, dataMembers_ofMembers members]

/-- Nothing is lost when items are written. -/
theorem dataItems_ofItems : (ds : List Data) → dataItems (ofItems ds) = ds
  | [] => rfl
  | d :: ds => by rw [ofItems, dataItems, data_ofData d, dataItems_ofItems ds]

/-- Nothing is lost when members are written. -/
theorem dataMembers_ofMembers : (ms : Members Data) → dataMembers (ofMembers ms) = ms
  | [] => rfl
  | (name, d) :: ms => by
    rw [ofMembers, dataMembers, data_ofData d, dataMembers_ofMembers ms, nameOf]

end

/-! ## Members at steps -/

def member? (step : Step) : List (Step × Written) → Option Written
  | [] => none
  | (s, w) :: rest => if s = step then some w else member? step rest

/-- Sets the member at a step: one that is there keeps its position, a new one goes to the end. -/
def setMember (step : Step) (part : Written) : List (Step × Written) → List (Step × Written)
  | [] => [(step, part)]
  | (s, w) :: rest =>
    if s = step then (s, part) :: rest else (s, w) :: setMember step part rest

/-- After setting a member it is the one that is found, and every other step finds what it found
before. -/
theorem member?_setMember (ms : List (Step × Written)) (step other : Step) (part : Written) :
    member? other (setMember step part ms) =
      if other = step then some part else member? other ms := by
  induction ms with
  | nil =>
    by_cases h : step = other
    · simp [setMember, member?, h]
    · simp [setMember, member?, h, Ne.symm h]
  | cons p rest ih =>
    obtain ⟨s, w⟩ := p
    by_cases hs : s = step
    · subst hs
      by_cases ho : other = s
      · simp [setMember, member?, ho]
      · simp [setMember, member?, ho, Ne.symm ho]
    · by_cases ho : s = other
      · subst ho
        simp [setMember, member?, hs]
      · simp [setMember, member?, hs, ho, ih]

/-! ## Parts -/

/-- The part that a step leads to. -/
def partAt (step : Step) : Written → Except Fault Written
  | .object members =>
    match member? step members with
    | some w => .ok w
    | none => .error .unknownName
  | .list items =>
    match step with
    | .index n =>
      match items[n]? with
      | some w => .ok w
      | none => .error .outOfBounds
    | .field _ => .error .wrongShape
  | _ => .error .wrongShape

/-- The value with the part that a step leads to replaced.  An object gets a member where it has
none, a list does not get an item. -/
def replacePart (step : Step) (part : Written) : Written → Except Fault Written
  | .object members => .ok (.object (setMember step part members))
  | .list items =>
    match step with
    | .index n => if n < items.length then .ok (.list (items.set n part)) else .error .outOfBounds
    | .field _ => .error .wrongShape
  | _ => .error .wrongShape

/-- A part that was replaced is the part that is found. -/
theorem partAt_replacePart {step : Step} {part w w' : Written}
    (h : replacePart step part w = .ok w') : partAt step w' = .ok part := by
  cases w with
  | null => simp [replacePart] at h
  | scalar s => simp [replacePart] at h
  | list items =>
    cases step with
    | field name => simp [replacePart] at h
    | index n =>
      by_cases hn : n < items.length
      · simp only [replacePart, hn, if_true] at h
        obtain rfl := Except.ok.inj h
        simp [partAt, hn]
      · simp [replacePart, hn] at h
  | object members =>
    simp only [replacePart] at h
    obtain rfl := Except.ok.inj h
    simp [partAt, member?_setMember]

/-- Whether a value has parts. -/
def hasParts : Written → Bool
  | .object _ => true
  | .list _ => true
  | _ => false

/-! ## References inside values -/

mutual

/-- A value with references put back; a value without parts stays as it is. -/
def restore : ReferenceTree → Written → Except Fault Written
  | .reference r, _ => .ok (.text r.text)
  | .parts children, w => if w.hasParts then restoreParts children w else .ok w

/-- A value with references put back into some of its parts. -/
def restoreParts : List (Step × ReferenceTree) → Written → Except Fault Written
  | [], w => .ok w
  | (step, .reference r) :: rest, w => do
    restoreParts rest (← replacePart step (.text r.text) w)
  | (step, .parts children) :: rest, w => do
    let part ← partAt step w
    let part ← if part.hasParts then restoreParts children part else pure part
    restoreParts rest (← replacePart step part w)

end

end Written

end DesignTokens
