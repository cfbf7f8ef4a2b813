import DesignTokens.Proofs.Dependency.Graph
import DesignTokens.Proofs.Members
import DesignTokens.Proofs.Outcome
import DesignTokens.Resolution

/-!
# The references of readings

Checking the holes of all readings one after the other either builds their graph of references,
which is well formed, or ends at the first hole that is not well targeted.
-/

namespace DesignTokens.Resolution

/-! ## Readings -/

/-- Readings with distinct paths, of tokens with types, and with distinct modes. -/
structure Readable (readings : List Reading) : Prop where
  ids_nodup : (readings.map fun r => r.draft.id).Nodup
  typed : ∀ r ∈ readings, ∃ type, r.draft.type = some type
  modes_nodup : ∀ r ∈ readings, r.values.names.Nodup

theorem Readable.find?_eq_some_iff {readings : List Reading} (h : Readable readings) {id : String}
    {r : Reading} : find? id readings = some r ↔ r ∈ readings ∧ r.draft.id = id :=
  find?_key_eq_some_iff h.ids_nodup

/-! ## Targets -/

/-- The slot that a reference stands for. -/
def slotOf (r : Reference) : Slot := ⟨r.target, r.mode⟩

/-- A hole leads to a token that is there, to a mode that this token has, and to a type that fits
the hole. -/
def WellTargeted (readings : List Reading) (h : Hole) : Prop :=
  ∃ r ∈ readings, r.draft.id = h.reference.target ∧ h.reference.mode ∈ r.values.names ∧
    ∀ types, h.accepted = some types → ∃ type ∈ types, r.draft.type = some type

theorem accepts_iff {h : Hole} {type : TokenType} :
    accepts h (some type) = true ↔ ∀ types, h.accepted = some types → type ∈ types := by
  cases haccepted : h.accepted <;> simp [accepts, haccepted]

/-- Checking a well-targeted hole gives its slot. -/
theorem check_eq_ok {readings : List Reading} (hr : Readable readings) {referrer : String}
    {h : Hole} (hh : WellTargeted readings h) :
    check readings referrer h = .ok (slotOf h.reference) := by
  obtain ⟨r, hmem, hid, hmode, htype⟩ := hh
  obtain ⟨type, hsome⟩ := hr.typed r hmem
  have hfind : find? h.reference.target readings = some r :=
    hr.find?_eq_some_iff.mpr ⟨hmem, hid⟩
  have haccepts : accepts h r.draft.type = true := by
    rw [hsome, accepts_iff]
    intro types htypes
    obtain ⟨t, ht, hdraft⟩ := htype types htypes
    rw [hsome, Option.some.injEq] at hdraft
    rwa [hdraft]
  simp [check, hfind, Members.has_iff.mpr hmode, haccepts, slotOf]

/-- What can be wrong with a reference. -/
inductive Misses (readings : List Reading) (referrer : String) (h : Hole) : Problem → Prop where
  /-- There is no token of the path. -/
  | target : (∀ r ∈ readings, r.draft.id ≠ h.reference.target) →
      Misses readings referrer h (.unknownTarget h.reference referrer)
  /-- The token does not have the mode. -/
  | mode (r : Reading) : r ∈ readings → r.draft.id = h.reference.target →
      h.reference.mode ∉ r.values.names →
      Misses readings referrer h (.unknownMode h.reference referrer)
  /-- The type of the token does not fit. -/
  | type (r : Reading) (found : TokenType) (types : List TokenType) : r ∈ readings →
      r.draft.id = h.reference.target → h.reference.mode ∈ r.values.names →
      r.draft.type = some found → h.accepted = some types → found ∉ types →
      Misses readings referrer h (.wrongTarget h.reference found types)

/-- Whatever is wrong with a reference is a problem of references. -/
theorem Misses.kind_eq {readings : List Reading} {referrer : String} {h : Hole}
    {problem : Problem} (hp : Misses readings referrer h problem) : problem.kind = .reference := by
  cases hp <;> rfl

/-- Checking a hole that is not well targeted says what is wrong with it. -/
theorem check_eq_error {readings : List Reading} (hr : Readable readings) (referrer : String)
    {h : Hole} (hh : ¬ WellTargeted readings h) :
    ∃ problem, check readings referrer h = failAt problem h ∧
      Misses readings referrer h problem := by
  cases hfind : find? h.reference.target readings with
  | none =>
    have hnone := find?_key_eq_none_iff.mp hfind
    exact ⟨_, by simp [check, hfind], .target hnone⟩
  | some r =>
    obtain ⟨hmem, hid⟩ := hr.find?_eq_some_iff.mp hfind
    by_cases hmode : h.reference.mode ∈ r.values.names
    · obtain ⟨found, hfound⟩ := hr.typed r hmem
      -- the token and the mode are there, so it must be the type that does not fit
      have hrefused : ¬ accepts h r.draft.type = true := by
        intro haccepts
        rw [hfound, accepts_iff] at haccepts
        exact hh ⟨r, hmem, hid, hmode, fun types htypes => ⟨found, haccepts types htypes, hfound⟩⟩
      obtain ⟨types, htypes, hout⟩ : ∃ types, h.accepted = some types ∧ found ∉ types := by
        rw [hfound, accepts_iff] at hrefused
        simpa using hrefused
      refine ⟨_, ?_, .type r found types hmem hid hmode hfound htypes hout⟩
      rw [hfound] at hrefused
      simp [check, hfind, Members.has_iff.mpr hmode, hfound, hrefused, htypes]
    · have hhas : Members.has h.reference.mode r.values = false := by
        rwa [← Bool.not_eq_true, Members.has_iff]
      exact ⟨_, by simp [check, hfind, hhas], .mode r hmem hid hmode⟩

/-! ## The slots of readings -/

def slotsOf (r : Reading) : List Slot := r.values.map fun p => ⟨r.draft.id, p.1⟩

/-- The slots of readings are those of each of them, in order. -/
theorem map_fst_slots (readings : List Reading) :
    (slots readings).map Prod.fst = readings.flatMap slotsOf := by
  have hinner : ∀ p : Reading × Nat,
      (p.1.values.zipIdx.map fun q =>
        ((⟨p.1.draft.id, q.1.1⟩ : Slot), ((p.2 : Int), (q.2 : Int)))).map Prod.fst =
          slotsOf p.1 := by
    rintro ⟨r, i⟩
    conv_rhs => rw [slotsOf, ← List.zipIdx_map_fst 0 r.values]
    simp only [List.map_map]
    rfl
  -- the positions are only needed for the ranks
  conv_rhs => rw [← List.zipIdx_map_fst 0 readings]
  rw [slots, List.map_flatMap, List.flatMap_map]
  exact List.flatMap_congr fun p _ => hinner p

theorem mem_flatMap_slotsOf {readings : List Reading} {s : Slot} :
    s ∈ readings.flatMap slotsOf ↔
      ∃ r ∈ readings, r.draft.id = s.token ∧ s.mode ∈ r.values.names := by
  simp only [List.mem_flatMap, slotsOf, List.mem_map, Members.names]
  constructor
  · rintro ⟨r, hr, p, hp, rfl⟩
    exact ⟨r, hr, rfl, p, hp, rfl⟩
  · rintro ⟨r, hr, hid, p, hp, hmode⟩
    exact ⟨r, hr, p, hp, by rw [hid, hmode]⟩

theorem WellTargeted.slotOf_mem {readings : List Reading} {h : Hole}
    (hh : WellTargeted readings h) : slotOf h.reference ∈ readings.flatMap slotsOf := by
  obtain ⟨r, hr, hid, hmode, -⟩ := hh
  exact mem_flatMap_slotsOf.mpr ⟨r, hr, hid, hmode⟩

/-- A hole of the readings stands in one of their slots. -/
theorem mem_allHoles {readings : List Reading} {s : Slot} {h : Hole} :
    (s, h) ∈ allHoles readings ↔
      ∃ r ∈ readings, ∃ p ∈ r.values, ∃ q ∈ p.2.holes, s = ⟨r.draft.id, p.1⟩ ∧ h = q.2 := by
  simp only [allHoles, List.mem_flatMap, List.mem_map, Prod.mk.injEq]
  constructor
  · rintro ⟨r, hr, p, hp, q, hq, hs, hh⟩
    exact ⟨r, hr, p, hp, q, hq, hs.symm, hh.symm⟩
  · rintro ⟨r, hr, p, hp, q, hq, rfl, rfl⟩
    exact ⟨r, hr, p, hp, q, hq, rfl, rfl⟩

theorem mem_slots_of_mem_allHoles {readings : List Reading} {s : Slot} {h : Hole}
    (hh : (s, h) ∈ allHoles readings) : s ∈ readings.flatMap slotsOf := by
  obtain ⟨r, hr, p, hp, q, -, rfl, -⟩ := mem_allHoles.mp hh
  exact List.mem_flatMap.mpr ⟨r, hr, List.mem_map.mpr ⟨p, hp, rfl⟩⟩

/-! ## The graph of references -/

/-- One slot of the readings refers to another one. -/
def Refers (readings : List Reading) (a b : Slot) : Prop :=
  ∃ h, (a, h) ∈ allHoles readings ∧ slotOf h.reference = b

/-- The graph before any reference is added: all slots with their ranks. -/
def slotGraph (readings : List Reading) : Dependencies Hole :=
  (slots readings).foldl (fun g (slot, rank) => g.addSlot slot rank) .empty

/-- Adding ranked slots one after the other keeps a graph well formed, adds those slots and changes
no reference. -/
theorem foldl_addSlot (ranked : List (Slot × (Int × Int))) {g : Dependencies Hole}
    (hg : g.WellFormed) :
    (ranked.foldl (fun g (slot, rank) => g.addSlot slot rank) g).WellFormed ∧
      (ranked.foldl (fun g (slot, rank) => g.addSlot slot rank) g).edges = g.edges ∧
      ∀ s, s ∈ (ranked.foldl (fun g (slot, rank) => g.addSlot slot rank) g).slots ↔
        s ∈ g.slots ∨ s ∈ ranked.map Prod.fst := by
  induction ranked generalizing g with
  | nil => exact ⟨hg, rfl, by simp⟩
  | cons p ranked ih =>
    obtain ⟨hwell, hedges, hslots⟩ := ih (hg.addSlot p.1 p.2)
    refine ⟨hwell, by simpa using hedges, fun s => ?_⟩
    simp only [List.foldl_cons, List.map_cons, List.mem_cons]
    rw [hslots, Dependencies.slots_addSlot]
    -- a slot that is there already is not added again
    by_cases hmem : p.1 ∈ g.slots
    · rw [if_pos hmem]
      constructor
      · rintro (h | h) <;> simp [h]
      · rintro (h | rfl | h) <;> simp [*]
    · rw [if_neg hmem]
      simp [or_assoc]

/-- The graph of the slots is well formed, and it has no references. -/
theorem slotGraph_spec (readings : List Reading) :
    (slotGraph readings).WellFormed ∧ (slotGraph readings).edges = [] ∧
      ∀ s, s ∈ (slotGraph readings).slots ↔ s ∈ readings.flatMap slotsOf := by
  obtain ⟨hwell, hedges, hslots⟩ := foldl_addSlot (slots readings) Dependencies.wellFormed_empty
  refine ⟨hwell, hedges, fun s => ?_⟩
  rw [← map_fst_slots, slotGraph, hslots]
  simp [Dependencies.empty]

/-- The step of building the graph: a hole is checked, and its reference is added. -/
def addHole (readings : List Reading) (g : Dependencies Hole) (p : Slot × Hole) :
    Except Failure (Dependencies Hole) := do
  return g.addEdge ⟨← check readings p.1.token p.2, p.1, p.2⟩

theorem dependencies_eq (readings : List Reading) :
    dependencies readings = (allHoles readings).foldlM (addHole readings) (slotGraph readings) :=
  rfl

/-- Adding well-targeted holes builds a graph in which slots refer to the slots of their holes. -/
theorem foldlM_addHole {readings : List Reading} (hr : Readable readings)
    {holes : List (Slot × Hole)} {g : Dependencies Hole} (hg : g.WellFormed)
    (hslots : ∀ s, s ∈ g.slots ↔ s ∈ readings.flatMap slotsOf)
    (hin : ∀ p ∈ holes, p.1 ∈ readings.flatMap slotsOf)
    (hgood : ∀ p ∈ holes, WellTargeted readings p.2) :
    ∃ g', holes.foldlM (addHole readings) g = .ok g' ∧ g'.WellFormed ∧
      (∀ s, s ∈ g'.slots ↔ s ∈ readings.flatMap slotsOf) ∧
      ∀ a b, g'.Refers a b ↔ g.Refers a b ∨ ∃ h, (a, h) ∈ holes ∧ slotOf h.reference = b := by
  induction holes generalizing g with
  | nil => exact ⟨g, rfl, hg, hslots, by simp⟩
  | cons p holes ih =>
    have hwell := hgood p List.mem_cons_self
    -- what the check of the hole lets through
    let e : Dependency Hole := ⟨slotOf p.2.reference, p.1, p.2⟩
    have ht : e.target ∈ g.slots := (hslots _).mpr hwell.slotOf_mem
    have hs : e.referrer ∈ g.slots := (hslots _).mpr (hin p List.mem_cons_self)
    have hstep : addHole readings g p = .ok (g.addEdge e) := by
      simp [addHole, check_eq_ok hr hwell, e]
    -- both ends are slots already
    have hkeep : (g.addEdge e).slots = g.slots := by
      rw [Dependencies.addEdge_eq ht hs]
      split <;> rfl
    obtain ⟨g', hfold, hg', hslots', hrefers⟩ := ih (hg.addEdge ht hs) (by rwa [hkeep])
      (fun q hq => hin q (List.mem_cons_of_mem _ hq))
      (fun q hq => hgood q (List.mem_cons_of_mem _ hq))
    refine ⟨g', by simp [List.foldlM_cons, hstep, hfold], hg', hslots', fun a b => ?_⟩
    rw [hrefers, Dependencies.refers_addEdge ht hs]
    constructor
    · rintro ((h | ⟨rfl, rfl⟩) | ⟨h, hmem, hb⟩)
      · exact .inl h
      · exact .inr ⟨p.2, List.mem_cons_self, rfl⟩
      · exact .inr ⟨h, List.mem_cons_of_mem _ hmem, hb⟩
    · rintro (h | ⟨h, hmem, rfl⟩)
      · exact .inl (.inl h)
      · rcases List.mem_cons.mp hmem with rfl | hmem
        · exact .inl (.inr ⟨rfl, rfl⟩)
        · exact .inr ⟨h, hmem, rfl⟩

/-- Readings whose holes are all well targeted have a graph, and it is the graph of their
references. -/
theorem exists_dependencies {readings : List Reading} (hr : Readable readings)
    (hgood : ∀ p ∈ allHoles readings, WellTargeted readings p.2) :
    ∃ g, dependencies readings = .ok g ∧ g.WellFormed ∧
      (∀ s, s ∈ g.slots ↔ s ∈ readings.flatMap slotsOf) ∧
      ∀ a b, g.Refers a b ↔ Refers readings a b := by
  obtain ⟨hwell, hedges, hslots⟩ := slotGraph_spec readings
  obtain ⟨g, hfold, hg, hslots', hrefers⟩ := foldlM_addHole hr hwell hslots
    (fun p hp => mem_slots_of_mem_allHoles hp) hgood
  refine ⟨g, by rw [dependencies_eq, hfold], hg, hslots', fun a b => ?_⟩
  -- before the first hole there are no references
  rw [hrefers, Refers, or_iff_right]
  rintro ⟨e, he, -⟩
  simp [hedges] at he

/-- The first hole that is not well targeted ends the graph. -/
theorem dependencies_eq_error {readings : List Reading} (hr : Readable readings)
    {before after : List (Slot × Hole)} {s : Slot} {h : Hole}
    (hsplit : allHoles readings = before ++ (s, h) :: after)
    (hbefore : ∀ p ∈ before, WellTargeted readings p.2) (hbad : ¬ WellTargeted readings h) :
    ∃ problem, dependencies readings = failAt problem h ∧
      Misses readings s.token h problem := by
  obtain ⟨hwell, -, hslots⟩ := slotGraph_spec readings
  -- all holes before it have been added by then
  obtain ⟨g, hfold, -⟩ := foldlM_addHole hr hwell hslots
    (fun p hp => mem_slots_of_mem_allHoles (hsplit ▸ List.mem_append_left _ hp)) hbefore
  obtain ⟨problem, hcheck, hmiss⟩ := check_eq_error hr s.token hbad
  refine ⟨problem, ?_, hmiss⟩
  rw [dependencies_eq, hsplit, List.foldlM_append, hfold]
  simp [List.foldlM_cons, addHole, hcheck, failAt, bind, Except.bind]

end DesignTokens.Resolution
