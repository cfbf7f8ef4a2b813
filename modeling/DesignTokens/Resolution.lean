import DesignTokens.Dependency
import DesignTokens.Table

/-!
# Resolving references

Every reference of a document is checked: there is a token of that path, it has the mode, and its
type fits.  When no references lead back to where they started, the values are filled in along
their order, and the table is complete.
-/

namespace DesignTokens.Resolution

/-- A token with its values as templates. -/
structure Reading where
  /-- The token. -/
  draft : Draft
  /-- The values by mode. -/
  values : Members Template

/-! ## Checking references -/

/-- The reading of a path. -/
def find? (id : String) (readings : List Reading) : Option Reading :=
  readings.find? (·.draft.id = id)

/-- An issue of a hole. -/
def failAt {α : Type} (problem : Problem) (h : Hole) : Except Failure α :=
  .error (.issue ⟨problem, h.span, .node .string⟩)

/-- Whether a type fits a hole. -/
def accepts (h : Hole) (type : Option TokenType) : Bool :=
  match h.accepted, type with
  | none, _ => true
  | some types, some t => types.contains t
  | some _, none => false

/-- The slot that a hole of a token refers to. -/
def check (readings : List Reading) (referrer : String) (h : Hole) : Except Failure Slot :=
  match find? h.reference.target readings with
  | none => failAt (.unknownTarget h.reference referrer) h
  | some target =>
    if !Members.has h.reference.mode target.values then
      failAt (.unknownMode h.reference referrer) h
    else if accepts h target.draft.type then .ok ⟨h.reference.target, h.reference.mode⟩
    else
      match target.draft.type with
      | some found => failAt (.wrongTarget h.reference found (h.accepted.getD [])) h
      | none => .error (.fault (.untyped h.reference.target))

/-! ## The graph of references -/

/-- The slots of all readings with their ranks: the position of the token, and of the mode. -/
def slots (readings : List Reading) : List (Slot × (Int × Int)) :=
  readings.zipIdx.flatMap fun (r, i) =>
    r.values.zipIdx.map fun ((mode, _), j) => (⟨r.draft.id, mode⟩, ((i : Int), (j : Int)))

/-- All holes with the slots that they are in, in the order of the document. -/
def allHoles (readings : List Reading) : List (Slot × Hole) :=
  readings.flatMap fun r =>
    r.values.flatMap fun (mode, value) => value.holes.map fun p => (⟨r.draft.id, mode⟩, p.2)

/-- The graph of all references, each of them checked. -/
def dependencies (readings : List Reading) : Except Failure (Dependencies Hole) := do
  let start : Dependencies Hole :=
    (slots readings).foldl (fun g (slot, rank) => g.addSlot slot rank) .empty
  (allHoles readings).foldlM (fun g (slot, h) => do
    return g.addEdge ⟨← check readings slot.token h, slot, h⟩) start

/-! ## Filling in values -/

abbrev Values := List (Slot × Data)

def valueAt (values : Values) (slot : Slot) : Except Fault Data :=
  match values.find? (·.1 = slot) with
  | some (_, d) => .ok d
  | none => .error .unknownName

def templateAt (readings : List Reading) (slot : Slot) : Except Fault Template :=
  match (find? slot.token readings).bind fun r => Members.get? slot.mode r.values with
  | some t => .ok t
  | none => .error .unknownName

/-- The values of slots, of which each comes after the slots that it refers to. -/
def fillAll (readings : List Reading) (order : List Slot) : Except Fault Values :=
  order.foldlM (fun values slot => do
    let template ← templateAt readings slot
    let value ← template.fill fun r => valueAt values ⟨r.target, r.mode⟩
    return (slot, value) :: values) []

/-! ## Tables -/

def entry (type : TokenType) (template : Template) (value : Data) : Except Fault Entry := do
  let variants ← if type = .color then Color.variants value else pure []
  match template with
  | .hole h => return ⟨value, none, some h.reference, variants⟩
  | t => return ⟨value, t.references?, none, variants⟩

def token (values : Values) (r : Reading) : Except Fault Token := do
  let type ←
    match r.draft.type with
    | some t => pure t
    | none => throw (.untyped r.draft.id)
  let modes ← r.values.mapM fun (mode, template) => do
    return (mode, ← entry type template (← valueAt values ⟨r.draft.id, mode⟩))
  return {
    id := r.draft.id
    type := type
    modes := modes
    group := r.draft.group
    span := r.draft.node.span
    description := r.draft.description
    extensions := r.draft.extensions }

def orFault {α : Type} (x : Except Fault α) : Except Failure α :=
  x.mapError .fault

def resolve (readings : List Reading) (groups : List Group) : Except Failure Table := do
  let graph ← dependencies readings
  -- every single reference is right by now, so what is left to fail are cycles
  match graph.findCycle with
  | some (cycle, h) => failAt (.circular (cycle.map Slot.label)) h
  | none => do
    let values ← orFault (graph.order >>= fillAll readings)
    let tokens ← orFault (readings.mapM (token values))
    return ⟨tokens.map fun t => (t.id, t), groups.map fun g => (g.id, g)⟩

end DesignTokens.Resolution
