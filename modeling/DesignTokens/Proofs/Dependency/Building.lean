import DesignTokens.Proofs.Dependency.Cycle
import Mathlib.Data.List.Induction

/-!
# Building graphs

A graph is built by adding slots and references in any order.  A reference may be added before its
slots, and it may be added again; of the references between two slots the first one stays
(`edge?_build`), and of the ranks of a slot the last one (`rank?_build`).  When every reference is
between added slots the graph is well formed (`wellFormed_build`).  So what the graph says of cycles
can be said of the references that were added.

## Main statement

* `findCycle_build`: a graph has a cycle to report exactly when the added references lead from a
  slot back to it, and what is reported is such a cycle.
-/

namespace DesignTokens.Dependencies

variable {α : Type}

/-! ## Steps -/

/-- A step of building a graph. -/
inductive Addition (α : Type) where
  /-- A slot with its rank. -/
  | slot (s : Slot) (rank : Int × Int)
  /-- A reference, which brings its slots with it. -/
  | reference (e : Dependency α)

/-- The reference that a step adds. -/
def Addition.reference? : Addition α → Option (Dependency α)
  | .slot _ _ => none
  | .reference e => some e

/-- The graph after one more step. -/
def add (g : Dependencies α) : Addition α → Dependencies α
  | .slot s rank => g.addSlot s rank
  | .reference e => g.addEdge e

/-- The graph that steps build. -/
def build (steps : List (Addition α)) : Dependencies α := steps.foldl add empty

/-- The references that steps add, in order. -/
def references (steps : List (Addition α)) : List (Dependency α) :=
  steps.filterMap Addition.reference?

/-- One of the steps adds a reference from a slot to another one. -/
def RefersIn (steps : List (Addition α)) (a b : Slot) : Prop :=
  ∃ e ∈ references steps, e.referrer = a ∧ e.target = b

/-! ## What a step does -/

theorem mem_slots_touch {g : Dependencies α} {s t : Slot} :
    t ∈ (g.touch s).slots ↔ t ∈ g.slots ∨ t = s := by
  rw [slots_touch]
  split
  · -- a slot of the graph is none to be added
    exact ⟨.inl, fun h => h.elim id fun hts => hts ▸ ‹_›⟩
  · simp

theorem Contained.touch {g : Dependencies α} (hg : g.Contained) (s : Slot) :
    (g.touch s).Contained where
  target_mem e he := mem_slots_touch.mpr (.inl (hg.target_mem e (by simpa using he)))
  referrer_mem e he := mem_slots_touch.mpr (.inl (hg.referrer_mem e (by simpa using he)))

/-- A reference is added with its slots, whatever slots there were before. -/
theorem Contained.addEdge {g : Dependencies α} (hg : g.Contained) (e : Dependency α) :
    (g.addEdge e).Contained := by
  rw [Dependencies.addEdge]
  split
  · exact hg
  · have hboth := (hg.touch e.target).touch e.referrer
    have htarget : e.target ∈ ((g.touch e.target).touch e.referrer).slots :=
      mem_slots_touch.mpr (.inl (mem_slots_touch.mpr (.inr rfl)))
    have hreferrer : e.referrer ∈ ((g.touch e.target).touch e.referrer).slots :=
      mem_slots_touch.mpr (.inr rfl)
    exact ⟨List.forall_mem_append.mpr ⟨hboth.target_mem, by simpa using htarget⟩,
      List.forall_mem_append.mpr ⟨hboth.referrer_mem, by simpa using hreferrer⟩⟩

theorem Contained.add {g : Dependencies α} (hg : g.Contained) (step : Addition α) :
    (g.add step).Contained := by
  cases step with
  | slot s rank => exact ⟨(hg.touch s).target_mem, (hg.touch s).referrer_mem⟩
  | reference e => exact hg.addEdge e

/-- A reference is found between its slots unless there was one before. -/
theorem edge?_addEdge (g : Dependencies α) (e : Dependency α) (a b : Slot) :
    (g.addEdge e).edge? b a =
      (g.edge? b a).or ([e].find? fun e => e.target = b && e.referrer = a) := by
  rw [addEdge]
  split
  · rename_i hsome
    by_cases hends : e.target = b ∧ e.referrer = a
    · obtain ⟨rfl, rfl⟩ := hends
      exact (Option.or_of_isSome hsome).symm
    · rw [List.find?_singleton, if_neg (by simpa using hends), Option.or_none]
  · simp [edge?, List.find?_append]

theorem edge?_add (g : Dependencies α) (step : Addition α) (a b : Slot) :
    (g.add step).edge? b a = (g.edge? b a).or
      ((references [step]).find? fun e => e.target = b && e.referrer = a) := by
  cases step with
  | slot s rank => simp [add, edge?, references, Addition.reference?]
  | reference e => exact edge?_addEdge g e a b

/-! ## What steps build -/

theorem build_concat (steps : List (Addition α)) (step : Addition α) :
    build (steps ++ [step]) = (build steps).add step := by
  rw [build, build, List.foldl_concat]

theorem contained_build (steps : List (Addition α)) : (build steps).Contained := by
  induction steps using List.reverseRecOn with
  | nil => exact ⟨List.forall_mem_nil _, List.forall_mem_nil _⟩
  | append_singleton steps step ih =>
    rw [build_concat]
    exact ih.add step

/-- Between two slots stands the first reference that was added between them. -/
theorem edge?_build (steps : List (Addition α)) (a b : Slot) :
    (build steps).edge? b a =
      (references steps).find? fun e => e.target = b && e.referrer = a := by
  induction steps using List.reverseRecOn with
  | nil => rfl
  | append_singleton steps step ih =>
    have hsplit : references (steps ++ [step]) = references steps ++ references [step] :=
      List.filterMap_append
    rw [build_concat, edge?_add, ih, hsplit, List.find?_append]

theorem refers_build (steps : List (Addition α)) : (build steps).Refers = RefersIn steps := by
  funext a b
  refine propext ⟨fun h => ?_, ?_⟩
  · obtain ⟨e, he⟩ := exists_edge? h
    rw [edge?_build] at he
    have hends := List.find?_some he
    simp only [Bool.and_eq_true, decide_eq_true_eq] at hends
    exact ⟨e, List.mem_of_find?_eq_some he, hends.2, hends.1⟩
  · rintro ⟨e, he, rfl, rfl⟩
    obtain ⟨f, hf⟩ := Option.isSome_iff_exists.mp (List.find?_isSome.mpr ⟨e, he, by simp⟩ :
      ((references steps).find? fun f => f.target = e.target && f.referrer = e.referrer).isSome)
    exact refers_of_edge? ((edge?_build steps _ _).trans hf)

/-! ## Slots and ranks -/

/-- The slot that a step adds, with its rank. -/
def Addition.slot? : Addition α → Option (Slot × (Int × Int))
  | .slot s rank => some (s, rank)
  | .reference _ => none

/-- The slots that steps add with their ranks, in order. -/
def additions (steps : List (Addition α)) : List (Slot × (Int × Int)) :=
  steps.filterMap Addition.slot?

/-- The slots that steps add. -/
def added (steps : List (Addition α)) : List Slot := (additions steps).map Prod.fst

/-- The rank of a slot: the last one that it was given. -/
def rankIn (steps : List (Addition α)) (s : Slot) : Option (Int × Int) :=
  ((additions steps).reverse.find? (·.1 = s)).map (·.2)

theorem rank?_add (g : Dependencies α) (step : Addition α) (s : Slot) :
    (g.add step).rank? s = (rankIn [step] s).or (g.rank? s) := by
  cases step with
  | slot t rank =>
    rw [add, rank?_addSlot]
    by_cases h : s = t
    · simp [rankIn, additions, Addition.slot?, h]
    · simp [rankIn, additions, Addition.slot?, h, Ne.symm h]
  | reference e =>
    have hranks : (g.addEdge e).ranks = g.ranks := by
      rw [addEdge]
      split <;> simp
    rw [add, rank?, hranks]
    rfl

theorem rank?_build (steps : List (Addition α)) (s : Slot) :
    (build steps).rank? s = rankIn steps s := by
  induction steps using List.reverseRecOn with
  | nil => rfl
  | append_singleton steps step ih =>
    have hsplit : additions (steps ++ [step]) = additions steps ++ additions [step] :=
      List.filterMap_append
    have hrank : rankIn (steps ++ [step]) s = (rankIn [step] s).or (rankIn steps s) := by
      rw [rankIn, hsplit, List.reverse_append, List.find?_append, Option.map_or]
      rfl
    rw [build_concat, rank?_add, ih, hrank]

/-- The slots that a step brings with it. -/
def Addition.slots : Addition α → List Slot
  | .slot s _ => [s]
  | .reference e => [e.target, e.referrer]

theorem mem_slots_add {g : Dependencies α} (hg : g.Contained) (step : Addition α) {s : Slot} :
    s ∈ (g.add step).slots ↔ s ∈ g.slots ∨ s ∈ step.slots := by
  cases step with
  | slot t rank => rw [add, Addition.slots, List.mem_singleton]; exact mem_slots_touch
  | reference e =>
    rw [add, addEdge, Addition.slots]
    split
    · -- the slots of a reference that is there are there
      rename_i hsome
      obtain ⟨f, hf⟩ := Option.isSome_iff_exists.mp hsome
      have hends := hg.mem_of_refers (refers_of_edge? hf)
      refine ⟨.inl, fun h => h.elim id fun h => ?_⟩
      rcases List.mem_pair.mp h with rfl | rfl
      · exact hends.2
      · exact hends.1
    · show s ∈ ((g.touch e.target).touch e.referrer).slots ↔ _
      rw [mem_slots_touch, mem_slots_touch, List.mem_pair, or_assoc]

/-- No slot and no reference stands twice in a graph. -/
structure Single (g : Dependencies α) : Prop where
  slots_nodup : g.slots.Nodup
  edges_nodup : (g.edges.map ends).Nodup

theorem Single.add {g : Dependencies α} (hg : g.Single) (step : Addition α) :
    (g.add step).Single := by
  cases step with
  | slot s rank => exact ⟨nodup_slots_touch hg.slots_nodup s, by
    simpa [Dependencies.add] using hg.edges_nodup⟩
  | reference e =>
    refine ⟨?_, nodup_ends_addEdge hg.edges_nodup e⟩
    rw [Dependencies.add, addEdge]
    split
    · exact hg.slots_nodup
    · exact nodup_slots_touch (nodup_slots_touch hg.slots_nodup _) _

theorem single_build (steps : List (Addition α)) : (build steps).Single := by
  induction steps using List.reverseRecOn with
  | nil => exact ⟨List.nodup_nil, List.nodup_nil⟩
  | append_singleton steps step ih =>
    rw [build_concat]
    exact ih.add step

/-- A graph has the slots that the steps bring with them. -/
theorem mem_slots_build (steps : List (Addition α)) {s : Slot} :
    s ∈ (build steps).slots ↔ ∃ step ∈ steps, s ∈ step.slots := by
  induction steps using List.reverseRecOn with
  | nil => simp [build, empty]
  | append_singleton steps step ih =>
    rw [build_concat, mem_slots_add (contained_build steps), ih]
    simp only [List.mem_append, List.mem_singleton, or_and_right, exists_or, exists_eq_left]

theorem mem_added {steps : List (Addition α)} {s : Slot} :
    s ∈ added steps ↔ ∃ rank, .slot s rank ∈ steps := by
  simp only [added, additions, List.mem_map, List.mem_filterMap]
  constructor
  · rintro ⟨⟨t, rank⟩, ⟨step, hstep, hslot⟩, rfl⟩
    cases step with
    | slot t' rank' =>
      obtain ⟨rfl, rfl⟩ := Prod.mk.inj (Option.some.inj hslot)
      exact ⟨_, hstep⟩
    | reference e => simp [Addition.slot?] at hslot
  · rintro ⟨rank, h⟩
    exact ⟨(s, rank), ⟨_, h, rfl⟩, rfl⟩

theorem exists_rankIn {steps : List (Addition α)} {s : Slot} (hs : s ∈ added steps) :
    ∃ rank, rankIn steps s = some rank ∧ (s, rank) ∈ additions steps := by
  obtain ⟨p, hp, rfl⟩ := List.mem_map.mp hs
  have hsome : ((additions steps).reverse.find? (·.1 = p.1)).isSome = true :=
    List.find?_isSome.mpr ⟨p, List.mem_reverse.mpr hp, decide_eq_true rfl⟩
  obtain ⟨q, hq⟩ := Option.isSome_iff_exists.mp hsome
  have hslot : q.1 = p.1 := by simpa using List.find?_some hq
  refine ⟨q.2, by rw [rankIn, hq, Option.map_some], ?_⟩
  rw [← hslot]
  exact List.mem_reverse.mp (List.mem_of_find?_eq_some hq)

/-- Every reference is between slots that are added, sooner or later. -/
def Addressed (steps : List (Addition α)) : Prop :=
  ∀ e ∈ references steps, e.target ∈ added steps ∧ e.referrer ∈ added steps

/-- No two slots are given one rank. -/
def DistinctRanks (steps : List (Addition α)) : Prop :=
  ∀ p ∈ additions steps, ∀ q ∈ additions steps, p.2 = q.2 → p.1 = q.1

instance (steps : List (Addition α)) : Decidable (Addressed steps) :=
  inferInstanceAs (Decidable (∀ e ∈ references steps, _ ∧ _))

instance (steps : List (Addition α)) : Decidable (DistinctRanks steps) :=
  inferInstanceAs (Decidable (∀ p ∈ additions steps, ∀ q ∈ additions steps, p.2 = q.2 → p.1 = q.1))

section

variable {steps : List (Addition α)} (haddressed : Addressed steps)

include haddressed

theorem mem_slots_iff {s : Slot} : s ∈ (build steps).slots ↔ s ∈ added steps := by
  rw [mem_slots_build]
  constructor
  · rintro ⟨step, hstep, hs⟩
    cases step with
    | slot t rank =>
      obtain rfl := List.mem_singleton.mp hs
      exact mem_added.mpr ⟨rank, hstep⟩
    | reference e =>
      have he : e ∈ references steps := List.mem_filterMap.mpr ⟨_, hstep, rfl⟩
      rcases List.mem_pair.mp hs with rfl | rfl
      · exact (haddressed e he).1
      · exact (haddressed e he).2
  · intro hs
    obtain ⟨rank, hstep⟩ := mem_added.mp hs
    exact ⟨_, hstep, List.mem_singleton_self s⟩

theorem wellFormed_build : (build steps).WellFormed where
  slots_nodup := (single_build steps).slots_nodup
  edges_nodup := (single_build steps).edges_nodup
  target_mem := (contained_build steps).target_mem
  referrer_mem := (contained_build steps).referrer_mem
  ranked := by
    intro s hs
    obtain ⟨rank, hrank, -⟩ := exists_rankIn ((mem_slots_iff haddressed).mp hs)
    exact ⟨rank, by rw [rank?_build, hrank]⟩

/-- Ranks that are given to one slot each tell the slots of the graph apart. -/
theorem eq_of_rank?_eq (hranks : DistinctRanks steps) (s t : Slot) (hs : s ∈ (build steps).slots)
    (h : (build steps).rank? s = (build steps).rank? t) : s = t := by
  obtain ⟨p, hp, hpmem⟩ := exists_rankIn ((mem_slots_iff haddressed).mp hs)
  rw [rank?_build, rank?_build, hp] at h
  obtain ⟨q, hq, hqt⟩ := Option.map_eq_some_iff.mp h.symm
  have ht : q.1 = t := by simpa using List.find?_some hq
  have hqmem := List.mem_reverse.mp (List.mem_of_find?_eq_some hq)
  exact (hranks _ hpmem _ hqmem hqt.symm).trans ht

end

/-! ## Cycles of added references -/

/-- What is reported of a graph that was built: a chain that comes back to where it starts, each
slot with an added reference to the next one, and the label of the reference that was added first
from the first slot to the second. -/
structure Reported (steps : List (Addition α)) (chain : List Slot) (label : α) : Prop where
  comesBack : ComesBack (RefersIn steps) chain
  first : ∃ s t rest e, chain = s :: t :: rest ∧
    ((references steps).find? fun e => e.target = t && e.referrer = s) = some e ∧ label = e.label

theorem reported_of_closedWalk {steps : List (Addition α)} {walk : List (Slot × Slot)}
    (hw : ClosedWalk (RefersIn steps) walk) :
    ∃ chain label, (build steps).report walk = some (chain, label) ∧
      Reported steps chain label := by
  rw [← refers_build] at hw
  obtain ⟨chain, label, hreport, hback, s, t, rest, e, hchain, he, hlabel⟩ :=
    comesBack_of_closedWalk hw
  rw [refers_build] at hback
  exact ⟨chain, label, hreport, hback, s, t, rest, e, hchain,
    (edge?_build steps s t).symm.trans he, hlabel⟩

/-- However a graph was built, it has no cycle to report exactly when no slot leads back to itself
by added references, and what is reported is such a cycle.  The same holds of whatever closed walk a
search may find. -/
theorem findCycle_build (steps : List (Addition α)) :
    ((build steps).findCycle = none ↔ ∀ s, ¬ Relation.TransGen (RefersIn steps) s s) ∧
      (∀ chain label, (build steps).findCycle = some (chain, label) →
        Reported steps chain label) ∧
      ∀ walk, ClosedWalk (RefersIn steps) walk → ∃ chain label,
        (build steps).report walk = some (chain, label) ∧ Reported steps chain label := by
  have hg := contained_build steps
  refine ⟨?_, fun chain label hreport => ?_, fun walk => reported_of_closedWalk⟩
  · rw [← refers_build]
    exact findCycle_eq_none_iff hg
  · -- what is reported is the report of the walk that the search found
    obtain ⟨walk, hw, hwalk⟩ := exists_closedWalk_of_findCycle hg hreport
    rw [refers_build] at hw
    obtain ⟨_, _, hsame, hreported⟩ := reported_of_closedWalk hw
    obtain ⟨rfl, rfl⟩ := Prod.mk.inj (Option.some.inj (hwalk.symm.trans hsame))
    exact hreported

/-- Four references: `a` leads into the cycle of `b` and `c`, and `b` refers to `c` twice. -/
def tailSteps : List (Addition Nat) :=
  let slot (name : String) : Slot := ⟨name, defaultMode⟩
  [.slot (slot "a") (0, 0), .reference ⟨slot "b", slot "a", 1⟩,
    .reference ⟨slot "c", slot "b", 2⟩, .reference ⟨slot "c", slot "b", 3⟩,
    .reference ⟨slot "b", slot "c", 4⟩]

/-- The cycle is reported without the slot that leads into it, and with the earlier one of the two
references. -/
theorem findCycle_build_tail :
    (build tailSteps).findCycle =
        some ([⟨"b", defaultMode⟩, ⟨"c", defaultMode⟩, ⟨"b", defaultMode⟩], 2) ∧
      ComesBack (RefersIn tailSteps)
        [⟨"b", defaultMode⟩, ⟨"c", defaultMode⟩, ⟨"b", defaultMode⟩] := by
  have hreport : (build tailSteps).findCycle =
      some ([⟨"b", defaultMode⟩, ⟨"c", defaultMode⟩, ⟨"b", defaultMode⟩], 2) := by
    decide +kernel
  exact ⟨hreport, ((findCycle_build tailSteps).2.1 _ _ hreport).comesBack⟩

end DesignTokens.Dependencies
