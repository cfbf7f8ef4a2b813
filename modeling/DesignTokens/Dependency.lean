import DesignTokens.Fault
import DesignTokens.Reference

/-!
# Dependencies between values

The value of a token in one mode may refer to the value of another token in one of its modes.
`Dependencies` is the graph of these references.  It has an order in which every value comes after
the values that it refers to, unless references lead back to where they started.
-/

namespace DesignTokens

/-- A token in one of its modes. -/
structure Slot where
  /-- The path of the token. -/
  token : String
  mode : String
deriving DecidableEq, Repr

/-- The name of a slot in messages; the default mode is not written. -/
def Slot.label (s : Slot) : String :=
  if s.mode = defaultMode then s.token else s.token ++ "#" ++ s.mode

/-- A reference from one slot to another, with something that is known of it. -/
structure Dependency (α : Type) where
  /-- The slot that is referred to. -/
  target : Slot
  referrer : Slot
  /-- What is known of the reference. -/
  label : α

/-- Slots and the references between them, in the order in which they were added. -/
structure Dependencies (α : Type) where
  slots : List Slot
  /-- The ranks of slots; of several slots that can come next, the one with the least rank does. -/
  ranks : List (Slot × (Int × Int))
  /-- The references. -/
  edges : List (Dependency α)

namespace Dependencies

variable {α : Type}

/-! ## Building the graph -/

/-- No slots. -/
def empty : Dependencies α := ⟨[], [], []⟩

/-- The graph with a slot, which may be in it already. -/
def touch (s : Slot) (g : Dependencies α) : Dependencies α :=
  if g.slots.contains s then g else { g with slots := g.slots ++ [s] }

/-- The graph with a slot of a rank. -/
def addSlot (s : Slot) (rank : Int × Int) (g : Dependencies α) : Dependencies α :=
  let g := g.touch s
  { g with ranks := (s, rank) :: g.ranks.filter (·.1 ≠ s) }

/-- The reference between two slots. -/
def edge? (target referrer : Slot) (g : Dependencies α) : Option (Dependency α) :=
  g.edges.find? fun e => e.target = target && e.referrer = referrer

/-- The graph with a reference.  Between two slots only the first one counts. -/
def addEdge (e : Dependency α) (g : Dependencies α) : Dependencies α :=
  if (g.edge? e.target e.referrer).isSome then g
  else
    let g := (g.touch e.target).touch e.referrer
    { g with edges := g.edges ++ [e] }

def rank? (s : Slot) (g : Dependencies α) : Option (Int × Int) :=
  (g.ranks.find? (·.1 = s)).map (·.2)

/-- The slots that refer to a slot. -/
def referrers (s : Slot) (g : Dependencies α) : List Slot :=
  (g.edges.filter (·.target = s)).map (·.referrer)

/-- The slots that a slot refers to. -/
def targets (s : Slot) (g : Dependencies α) : List Slot :=
  (g.edges.filter (·.referrer = s)).map (·.target)

/-! ## Cycles -/

/-- Searches for a cycle from a slot on.  `path` holds the slots on the way to it, the nearest
first, and `finished` the slots that no cycle leads through.  The answer is the slots of a cycle,
the last one first, or the finished slots. -/
def search (g : Dependencies α) : (fuel : Nat) → (path finished : List Slot) → Slot →
    Except (List Slot) (List Slot)
  | 0, _, finished, _ => .ok finished
  | fuel + 1, path, finished, s => do
    if finished.contains s then return finished
    let path := s :: path
    let finished ← (g.referrers s).foldlM (fun finished t =>
      -- a slot on the way closes a cycle, and the way from it on is the cycle
      if path.contains t then .error (path.takeWhile (· ≠ t) ++ [t])
      else search g fuel path finished t) finished
    return s :: finished

/-- A cycle as it is reported: from a slot over the slots that it refers to back to itself, with
the first reference. -/
def findCycle (g : Dependencies α) : Option (List Slot × α) :=
  match g.slots.foldlM (fun finished s => search g (g.slots.length + 1) [] finished s) [] with
  | .ok _ => none
  | .error cycle =>
    match cycle, cycle.getLast? with
    | first :: _, some last =>
      (g.edge? first last).map fun e => (last :: cycle, e.label)
    | _, _ => none

/-! ## Order -/

/-- A slot that can come next, with its rank and its position among all slots. -/
structure Ready where
  rank : Int × Int
  position : Nat
  slot : Slot

/-- Whether a slot comes before another one. -/
def Ready.before (a b : Ready) : Bool :=
  a.rank.1 < b.rank.1 || (a.rank.1 = b.rank.1 && (a.rank.2 < b.rank.2 ||
    (a.rank.2 = b.rank.2 && a.position < b.position)))

/-- A slot as one that can come next; it needs a rank. -/
def ready (g : Dependencies α) (s : Slot) : Except Fault Ready :=
  match g.rank? s with
  | some rank => .ok ⟨rank, g.slots.idxOf s, s⟩
  | none => .error .unknownName

/-- The first of several slots, and the others. -/
def takeFirst : Ready → List Ready → Ready × List Ready
  | a, [] => (a, [])
  | a, b :: rest =>
    let (first, others) := takeFirst b rest
    if first.before a then (first, a :: others) else (a, b :: rest)

/-- Puts slots in order.  `done` holds the slots before them, the last one first, and `waiting`
those that can come next. -/
def arrange (g : Dependencies α) : (fuel : Nat) → (done : List Slot) → (waiting : List Ready) →
    Except Fault (List Slot)
  | 0, done, _ => .ok done.reverse
  | _ + 1, done, [] => .ok done.reverse
  | fuel + 1, done, a :: waiting => do
    let (first, others) := takeFirst a waiting
    let done := first.slot :: done
    -- a slot can come as soon as the last of its targets has
    let freed := (g.referrers first.slot).filter fun t => (g.targets t).all done.contains
    let freed ← freed.mapM g.ready
    arrange g fuel done (others ++ freed)

/-- The slots in an order in which targets come before their referrers; of several slots that can
come next, the one with the least rank does.  Slots in a cycle have no order. -/
def order (g : Dependencies α) : Except Fault (List Slot) := do
  let free := g.slots.filter fun s => (g.targets s).isEmpty
  let sorted ← arrange g (g.slots.length + 1) [] (← free.mapM g.ready)
  if sorted.length < g.slots.length then throw .cyclic else return sorted

end Dependencies

end DesignTokens
