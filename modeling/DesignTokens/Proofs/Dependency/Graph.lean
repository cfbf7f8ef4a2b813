import DesignTokens.Dependency
import Mathlib.Data.List.Nodup
import Mathlib.Logic.Relation

/-!
# Graphs of references

A graph is well formed when no slot and no reference stands in it twice, and every reference is
between ranked slots of the graph.  Adding slots and references keeps it so.  What matters of a
graph is the relation `Refers` between its slots, and whether it is acyclic.
-/

namespace DesignTokens.Dependencies

variable {α : Type}

/-! ## The relation of a graph -/

/-- One slot refers to another one. -/
def Refers (g : Dependencies α) (a b : Slot) : Prop :=
  ∃ e ∈ g.edges, e.referrer = a ∧ e.target = b

/-- No slot leads back to itself. -/
def Acyclic (g : Dependencies α) : Prop :=
  ∀ s, ¬ Relation.TransGen g.Refers s s

theorem mem_referrers {g : Dependencies α} {s t : Slot} : t ∈ g.referrers s ↔ g.Refers t s := by
  simp only [referrers, Refers, List.mem_map, List.mem_filter, decide_eq_true_eq]
  constructor
  · rintro ⟨e, ⟨hmem, htarget⟩, hreferrer⟩
    exact ⟨e, hmem, hreferrer, htarget⟩
  · rintro ⟨e, hmem, hreferrer, htarget⟩
    exact ⟨e, ⟨hmem, htarget⟩, hreferrer⟩

theorem mem_targets {g : Dependencies α} {s t : Slot} : t ∈ g.targets s ↔ g.Refers s t := by
  simp only [targets, Refers, List.mem_map, List.mem_filter, decide_eq_true_eq]
  constructor
  · rintro ⟨e, ⟨hmem, hreferrer⟩, htarget⟩
    exact ⟨e, hmem, hreferrer, htarget⟩
  · rintro ⟨e, hmem, hreferrer, htarget⟩
    exact ⟨e, ⟨hmem, hreferrer⟩, htarget⟩

theorem exists_edge? {g : Dependencies α} {a b : Slot} (h : g.Refers a b) :
    ∃ e, g.edge? b a = some e := by
  obtain ⟨e, hmem, rfl, rfl⟩ := h
  rw [← Option.isSome_iff_exists, edge?, List.find?_isSome]
  exact ⟨e, hmem, by simp⟩

theorem refers_of_edge? {g : Dependencies α} {a b : Slot} {e : Dependency α}
    (h : g.edge? b a = some e) : g.Refers a b := by
  have hmem := List.mem_of_find?_eq_some h
  have hends := List.find?_some h
  simp only [Bool.and_eq_true, decide_eq_true_eq] at hends
  exact ⟨e, hmem, hends.2, hends.1⟩

/-! ## Well-formed graphs -/

/-- Every reference of a graph is between its slots. -/
structure Contained (g : Dependencies α) : Prop where
  target_mem : ∀ e ∈ g.edges, e.target ∈ g.slots
  referrer_mem : ∀ e ∈ g.edges, e.referrer ∈ g.slots

theorem Contained.mem_of_refers {g : Dependencies α} (hg : g.Contained) {a b : Slot}
    (h : g.Refers a b) : a ∈ g.slots ∧ b ∈ g.slots := by
  obtain ⟨e, hmem, rfl, rfl⟩ := h
  exact ⟨hg.referrer_mem e hmem, hg.target_mem e hmem⟩

/-- The slots of a reference. -/
def ends (e : Dependency α) : Slot × Slot := (e.target, e.referrer)

/-- A graph in which every slot and every reference stands once, and references are between ranked
slots. -/
structure WellFormed (g : Dependencies α) : Prop where
  slots_nodup : g.slots.Nodup
  edges_nodup : (g.edges.map ends).Nodup
  target_mem : ∀ e ∈ g.edges, e.target ∈ g.slots
  referrer_mem : ∀ e ∈ g.edges, e.referrer ∈ g.slots
  ranked : ∀ s ∈ g.slots, ∃ rank, g.rank? s = some rank

theorem WellFormed.contained {g : Dependencies α} (hg : g.WellFormed) : g.Contained :=
  ⟨hg.target_mem, hg.referrer_mem⟩

theorem WellFormed.mem_of_refers {g : Dependencies α} (hg : g.WellFormed) {a b : Slot}
    (h : g.Refers a b) : a ∈ g.slots ∧ b ∈ g.slots :=
  hg.contained.mem_of_refers h

/-- No slot stands twice among those that refer to a slot. -/
theorem WellFormed.referrers_nodup {g : Dependencies α} (hg : g.WellFormed) (s : Slot) :
    (g.referrers s).Nodup := by
  have hends : ((g.edges.filter (·.target = s)).map ends).Nodup :=
    hg.edges_nodup.sublist (List.filter_sublist.map ends)
  rw [referrers]
  refine List.Nodup.map_on ?_ (List.Nodup.of_map ends hends)
  intro e he f hf hreferrer
  simp only [List.mem_filter, decide_eq_true_eq] at he hf
  refine List.inj_on_of_nodup_map hg.edges_nodup he.1 hf.1 ?_
  simp [ends, he.2, hf.2, hreferrer]

/-! ## Building graphs -/

theorem touch_of_mem {g : Dependencies α} {s : Slot} (h : s ∈ g.slots) : g.touch s = g := by
  simp [touch, h]

@[simp] theorem edges_touch (g : Dependencies α) (s : Slot) : (g.touch s).edges = g.edges := by
  unfold touch
  split <;> rfl

@[simp] theorem ranks_touch (g : Dependencies α) (s : Slot) : (g.touch s).ranks = g.ranks := by
  unfold touch
  split <;> rfl

theorem slots_touch (g : Dependencies α) (s : Slot) :
    (g.touch s).slots = if s ∈ g.slots then g.slots else g.slots ++ [s] := by
  unfold touch
  by_cases h : s ∈ g.slots <;> simp [h]

theorem nodup_slots_touch {g : Dependencies α} (hg : g.slots.Nodup) (s : Slot) :
    (g.touch s).slots.Nodup := by
  rw [slots_touch]
  split
  · exact hg
  · rename_i h
    simpa using List.Nodup.concat h hg

/-- A reference that is added has no other one between its slots. -/
theorem nodup_ends_addEdge {g : Dependencies α} (hg : (g.edges.map ends).Nodup)
    (e : Dependency α) : ((g.addEdge e).edges.map ends).Nodup := by
  rw [addEdge]
  split
  · exact hg
  · rename_i hnone
    dsimp only
    rw [edges_touch, edges_touch, List.map_append, List.nodup_append]
    refine ⟨hg, by simp, ?_⟩
    intro p hp q hq hpq
    obtain ⟨f, hf, rfl⟩ := List.mem_map.mp hp
    simp only [List.map_cons, List.map_nil, List.mem_singleton] at hq
    simp only [ends, hq, Prod.mk.injEq] at hpq
    exact hnone (Option.isSome_iff_exists.mpr (exists_edge? ⟨f, hf, hpq.2, hpq.1⟩))

@[simp] theorem slots_addSlot (g : Dependencies α) (s : Slot) (rank : Int × Int) :
    (g.addSlot s rank).slots = if s ∈ g.slots then g.slots else g.slots ++ [s] :=
  slots_touch g s

@[simp] theorem edges_addSlot (g : Dependencies α) (s : Slot) (rank : Int × Int) :
    (g.addSlot s rank).edges = g.edges :=
  edges_touch g s

/-- The rank that a slot was given is its rank, and every other slot keeps its own. -/
theorem rank?_addSlot (g : Dependencies α) (s t : Slot) (rank : Int × Int) :
    (g.addSlot s rank).rank? t = if t = s then some rank else g.rank? t := by
  by_cases h : t = s
  · simp [rank?, addSlot, h]
  · have hfilter : ∀ p : Slot × (Int × Int),
        (!decide (p.1 = s) && decide (p.1 = t)) = decide (p.1 = t) := by
      intro p
      by_cases hp : p.1 = t <;> simp [hp, h]
    simp [rank?, addSlot, h, Ne.symm h, List.find?_filter, hfilter]

theorem wellFormed_empty : (empty : Dependencies α).WellFormed where
  slots_nodup := List.nodup_nil
  edges_nodup := List.nodup_nil
  target_mem := by simp [empty]
  referrer_mem := by simp [empty]
  ranked := by simp [empty]

/-- Adding a slot keeps a graph well formed. -/
theorem WellFormed.addSlot {g : Dependencies α} (hg : g.WellFormed) (s : Slot)
    (rank : Int × Int) : (g.addSlot s rank).WellFormed where
  slots_nodup := nodup_slots_touch hg.slots_nodup s
  edges_nodup := by simpa using hg.edges_nodup
  target_mem := by
    intro e he
    have := hg.target_mem e (by simpa using he)
    rw [slots_addSlot]
    split <;> simp [this]
  referrer_mem := by
    intro e he
    have := hg.referrer_mem e (by simpa using he)
    rw [slots_addSlot]
    split <;> simp [this]
  ranked := by
    intro t ht
    rw [rank?_addSlot]
    -- the new slot has the new rank, and every other one the rank it had
    by_cases h : t = s
    · exact ⟨rank, by simp [h]⟩
    · have : t ∈ g.slots := by
        rw [slots_addSlot] at ht
        split at ht
        · exact ht
        · simpa [h] using ht
      simpa [h] using hg.ranked t this

theorem addEdge_eq {g : Dependencies α} {e : Dependency α} (ht : e.target ∈ g.slots)
    (hr : e.referrer ∈ g.slots) :
    g.addEdge e = if (g.edge? e.target e.referrer).isSome then g
      else { g with edges := g.edges ++ [e] } := by
  simp [addEdge, touch_of_mem ht, touch_of_mem hr]

/-- Adding a reference between slots of a graph keeps it well formed. -/
theorem WellFormed.addEdge {g : Dependencies α} (hg : g.WellFormed) {e : Dependency α}
    (ht : e.target ∈ g.slots) (hr : e.referrer ∈ g.slots) : (g.addEdge e).WellFormed := by
  have hedges := nodup_ends_addEdge hg.edges_nodup e
  rw [addEdge_eq ht hr] at hedges ⊢
  split
  · exact hg
  · rename_i hnone
    rw [if_neg hnone] at hedges
    refine ⟨hg.slots_nodup, hedges, ?_, ?_, hg.ranked⟩
    · intro f hf
      rcases List.mem_append.mp hf with hf | hf
      · exact hg.target_mem f hf
      · rw [List.mem_singleton.mp hf]
        exact ht
    · intro f hf
      rcases List.mem_append.mp hf with hf | hf
      · exact hg.referrer_mem f hf
      · rw [List.mem_singleton.mp hf]
        exact hr

/-- After adding a reference a slot refers to another one if it did so before, or if the reference
is between the two. -/
theorem refers_addEdge {g : Dependencies α} {e : Dependency α} (ht : e.target ∈ g.slots)
    (hr : e.referrer ∈ g.slots) {a b : Slot} :
    (g.addEdge e).Refers a b ↔ g.Refers a b ∨ (e.referrer = a ∧ e.target = b) := by
  rw [addEdge_eq ht hr]
  split
  · rename_i hsome
    refine ⟨.inl, ?_⟩
    rintro (h | ⟨rfl, rfl⟩)
    · exact h
    · -- the reference is not added again, but there is one between its slots
      obtain ⟨f, hf⟩ := Option.isSome_iff_exists.mp hsome
      exact refers_of_edge? hf
  · simp only [Refers, List.mem_append, List.mem_singleton]
    constructor
    · rintro ⟨f, hf | rfl, hends⟩
      · exact .inl ⟨f, hf, hends⟩
      · exact .inr hends
    · rintro (⟨f, hf, hends⟩ | hends)
      · exact ⟨f, .inl hf, hends⟩
      · exact ⟨e, .inr rfl, hends⟩

end DesignTokens.Dependencies
