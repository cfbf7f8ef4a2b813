import DesignTokens.Proofs.Dependency.Graph
import DesignTokens.Proofs.Outcome
import Mathlib.Data.Fintype.Card
import Mathlib.Data.Set.Finite.List
import Mathlib.Order.WellFounded

/-!
# The order of references

Slots are put in order one by one: a slot waits as soon as all its targets stand in the order, and
of the waiting ones the least comes next.  In an acyclic graph some slot always waits until all of
them stand in the order, each after its targets (`exists_order`).
-/

namespace DesignTokens.Dependencies

variable {α : Type} {g : Dependencies α}

/-! ## Induction over references -/

/-- In an acyclic graph, what holds of a slot whenever it holds of all its targets holds of all
slots. -/
theorem Acyclic.induction (hg : g.WellFormed) (h : g.Acyclic) {P : Slot → Prop}
    (step : ∀ s ∈ g.slots, (∀ t, g.Refers s t → P t) → P s) : ∀ s ∈ g.slots, P s := by
  let below : { s // s ∈ g.slots } → { s // s ∈ g.slots } → Prop :=
    fun t s => Relation.TransGen g.Refers s.1 t.1
  have : Finite { s // s ∈ g.slots } := List.finite_toSet g.slots
  have : IsTrans _ below := ⟨fun _ _ _ hst htr => htr.trans hst⟩
  have : Std.Irrefl below := ⟨fun s => h s.1⟩
  have hwell : WellFounded below := Finite.wellFounded_of_trans_of_irrefl below
  intro s hs
  refine hwell.induction (C := fun s => P s.1) ⟨s, hs⟩ ?_
  intro s ih
  refine step s.1 s.2 fun t ht => ?_
  exact ih ⟨t, (hg.mem_of_refers ht).2⟩ (Relation.TransGen.single ht)

/-! ## Arranged slots -/

/-- A list of slots, the last one first, in which all targets of a slot come before it. -/
inductive Arranged (g : Dependencies α) : List Slot → Prop where
  /-- Nothing is arranged. -/
  | nil : Arranged g []
  /-- One more slot comes after all its targets. -/
  | cons (s : Slot) (done : List Slot) :
      (∀ t, g.Refers s t → t ∈ done) → Arranged g done → Arranged g (s :: done)

theorem Arranged.closed {done : List Slot} (h : Arranged g done) {s t : Slot} (hs : s ∈ done)
    (ht : g.Refers s t) : t ∈ done := by
  induction h with
  | nil => simp at hs
  | cons r rest hr _ ih =>
    rcases List.mem_cons.mp hs with rfl | hs
    · exact List.mem_cons_of_mem _ (hr t ht)
    · exact List.mem_cons_of_mem _ (ih hs)

/-! ## Choosing the next slot -/

/-- The first of several slots and the others are those slots. -/
theorem takeFirst_perm (a : Ready) (rest : List Ready) :
    ((takeFirst a rest).1 :: (takeFirst a rest).2).Perm (a :: rest) := by
  induction rest generalizing a with
  | nil => exact .refl _
  | cons b rest ih =>
    rw [takeFirst]
    dsimp only
    split
    · exact (List.Perm.swap a _ _).trans ((ih b).cons a)
    · exact .refl _

/-- Every slot of a well-formed graph can come next as far as its rank goes. -/
theorem WellFormed.mapM_ready (hg : g.WellFormed) {slots : List Slot}
    (h : ∀ s ∈ slots, s ∈ g.slots) :
    ∃ ready, slots.mapM g.ready = .ok ready ∧ ready.map Ready.slot = slots := by
  induction slots with
  | nil => exact ⟨[], rfl, rfl⟩
  | cons s slots ih =>
    obtain ⟨rest, hrest, hslots⟩ := ih fun t ht => h t (List.mem_cons_of_mem _ ht)
    obtain ⟨rank, hrank⟩ := hg.ranked s (h s List.mem_cons_self)
    refine ⟨⟨rank, g.slots.idxOf s, s⟩ :: rest, ?_, by simp [hslots]⟩
    simp [List.mapM_cons, Dependencies.ready, hrank, hrest]

/-! ## Arranging -/

/-- How far the arrangement has come: the slots that stand in the order, and those that wait, which
are the ones whose targets all stand in it. -/
structure Progress (g : Dependencies α) (done : List Slot) (waiting : List Slot) : Prop where
  arranged : Arranged g done
  nodup : done.Nodup
  mem : ∀ s ∈ done, s ∈ g.slots
  waiting_nodup : waiting.Nodup
  waiting_iff : ∀ s, s ∈ waiting ↔ s ∈ g.slots ∧ s ∉ done ∧ ∀ t, g.Refers s t → t ∈ done

/-- At the start the slots without targets wait. -/
theorem progress_start (hg : g.WellFormed) :
    Progress g [] (g.slots.filter fun s => (g.targets s).isEmpty) where
  arranged := .nil
  nodup := List.nodup_nil
  mem := by simp
  waiting_nodup := hg.slots_nodup.filter _
  waiting_iff := by
    intro s
    simp [← mem_targets, List.eq_nil_iff_forall_not_mem]

/-- The slots that can come as soon as a slot stands in the order. -/
def freed (g : Dependencies α) (s : Slot) (done : List Slot) : List Slot :=
  (g.referrers s).filter fun t => (g.targets t).all (s :: done).contains

/-- A slot can come with another one when it refers to that one and to nothing else that is
missing. -/
theorem mem_freed {s t : Slot} {done : List Slot} :
    t ∈ g.freed s done ↔ g.Refers t s ∧ ∀ r, g.Refers t r → r ∈ s :: done := by
  simp [freed, mem_referrers, ← mem_targets]

/-- Putting one of the waiting slots next keeps the arrangement going. -/
theorem Progress.step (hg : g.WellFormed) {done waiting others : List Slot} {s : Slot}
    (h : Progress g done waiting) (hs : waiting.Perm (s :: others)) :
    Progress g (s :: done) (others ++ g.freed s done) := by
  have hnodup : (s :: others).Nodup := hs.nodup_iff.mp h.waiting_nodup
  have hwaits : ∀ t, t ∈ s :: others ↔
      t ∈ g.slots ∧ t ∉ done ∧ ∀ r, g.Refers t r → r ∈ done := by
    intro t
    rw [← hs.mem_iff]
    exact h.waiting_iff t
  obtain ⟨hslot, hnew, htargets⟩ := (hwaits s).mp List.mem_cons_self
  -- what refers to the slot was not in the order before, and it is another slot
  have hlater : ∀ t, g.Refers t s → t ∉ s :: done := by
    intro t ht hmem
    rcases List.mem_cons.mp hmem with rfl | hmem
    · exact hnew (htargets _ ht)
    · exact hnew (h.arranged.closed hmem ht)
  have hother : ∀ t ∈ others, ¬ g.Refers t s := by
    intro t ht href
    exact hnew (((hwaits t).mp (List.mem_cons_of_mem _ ht)).2.2 s href)
  refine ⟨.cons s done htargets h.arranged, List.nodup_cons.mpr ⟨hnew, h.nodup⟩, ?_, ?_, ?_⟩
  · intro t ht
    rcases List.mem_cons.mp ht with rfl | ht
    · exact hslot
    · exact h.mem t ht
  · refine List.nodup_append.mpr ⟨(List.nodup_cons.mp hnodup).2,
      (hg.referrers_nodup s).filter _, ?_⟩
    rintro t ht r hr rfl
    exact hother t ht (mem_freed.mp hr).1
  · intro t
    rw [List.mem_append, mem_freed]
    constructor
    · rintro (ht | ⟨href, hall⟩)
      · obtain ⟨hmem, hout, hall⟩ := (hwaits t).mp (List.mem_cons_of_mem _ ht)
        refine ⟨hmem, ?_, fun r hr => List.mem_cons_of_mem _ (hall r hr)⟩
        rintro (_ | ⟨_, hdone⟩)
        · exact (List.nodup_cons.mp hnodup).1 ht
        · exact hout hdone
      · exact ⟨(hg.mem_of_refers href).1, hlater t href, hall⟩
    · rintro ⟨hmem, hout, hall⟩
      -- a slot that does not refer to the new one waited before
      by_cases href : g.Refers t s
      · exact .inr ⟨href, hall⟩
      · have hwait : t ∈ s :: others := by
          refine (hwaits t).mpr ⟨hmem, fun hdone => hout (List.mem_cons_of_mem _ hdone), ?_⟩
          intro r hr
          rcases List.mem_cons.mp (hall r hr) with rfl | hdone
          · exact absurd hr href
          · exact hdone
        rcases List.mem_cons.mp hwait with rfl | ht
        · exact absurd List.mem_cons_self hout
        · exact .inl ht

/-- In an acyclic graph nothing is missing from the order when no slot waits. -/
theorem Progress.complete (hg : g.WellFormed) (h : g.Acyclic) {done : List Slot}
    (hdone : Progress g done []) : ∀ s ∈ g.slots, s ∈ done := by
  refine h.induction hg fun s hs htargets => ?_
  by_contra hmissing
  have := (hdone.waiting_iff s).mpr ⟨hs, hmissing, htargets⟩
  simp at this

/-- Arranging goes on until no slot waits.  The fuel suffices, because no slot comes twice. -/
theorem exists_arrange (hg : g.WellFormed) {fuel : Nat} {done : List Slot}
    {waiting : List Ready} (hprogress : Progress g done (waiting.map Ready.slot))
    (hfuel : g.slots.length < fuel + done.length) :
    ∃ order, g.arrange fuel done waiting = .ok order.reverse ∧ Progress g order [] := by
  induction fuel generalizing done waiting with
  | zero =>
    -- more slots than the graph has cannot be in the order
    have := (List.Nodup.subperm hprogress.nodup hprogress.mem).length_le
    omega
  | succ fuel ih =>
    cases waiting with
    | nil => exact ⟨done, rfl, hprogress⟩
    | cons a waiting =>
      rw [arrange]
      dsimp only
      -- whichever of the waiting slots comes first, the others go on waiting
      have hfirst := (takeFirst_perm a waiting).map Ready.slot
      have hmem : ∀ t ∈ g.freed (takeFirst a waiting).1.slot done, t ∈ g.slots :=
        fun t ht => (hg.mem_of_refers (mem_freed.mp ht).1).1
      -- what is freed has ranks, so it can wait with them
      obtain ⟨ready, hready, hslots⟩ := hg.mapM_ready hmem
      have hstep := hprogress.step hg hfirst.symm
      rw [← hslots, ← List.map_append] at hstep
      obtain ⟨order, horder, hall⟩ := ih hstep (by simp only [List.length_cons]; omega)
      refine ⟨order, ?_, hall⟩
      rw [freed] at hready
      rw [hready]
      exact horder

/-- What arranging starts with: the slots without targets wait. -/
theorem exists_start (hg : g.WellFormed) :
    ∃ free, (g.slots.filter fun s => (g.targets s).isEmpty).mapM g.ready = .ok free ∧
      Progress g [] (free.map Ready.slot) := by
  have hmem : ∀ s ∈ g.slots.filter fun s => (g.targets s).isEmpty, s ∈ g.slots :=
    fun s hs => (List.mem_filter.mp hs).1
  obtain ⟨free, hfree, hslots⟩ := hg.mapM_ready hmem
  exact ⟨free, hfree, hslots ▸ progress_start hg⟩

/-- Slots can be put in order until the ones that are left all have targets among themselves; that
some are left is a fault. -/
theorem exists_arranged (hg : g.WellFormed) :
    ∃ order, Progress g order [] ∧
      g.order = if order.length < g.slots.length then .error .cyclic else .ok order.reverse := by
  obtain ⟨free, hfree, hstart⟩ := exists_start hg
  have hfuel : g.slots.length < g.slots.length + 1 + ([] : List Slot).length := by simp
  obtain ⟨order, horder, hprogress⟩ := exists_arrange hg hstart hfuel
  refine ⟨order, hprogress, ?_⟩
  simp only [Dependencies.order, hfree, horder, bind, Except.bind, List.length_reverse]
  rfl

/-- An acyclic graph has an order: all its slots, each after its targets. -/
theorem exists_order (hg : g.WellFormed) (h : g.Acyclic) :
    ∃ order, g.order = .ok order ∧ order.Perm g.slots ∧ Arranged g order.reverse := by
  obtain ⟨order, hprogress, horder⟩ := exists_arranged hg
  have hperm : order.Perm g.slots :=
    (List.perm_ext_iff_of_nodup hprogress.nodup hg.slots_nodup).mpr fun s =>
      ⟨hprogress.mem s, hprogress.complete hg h s⟩
  rw [if_neg (by simp [hperm.length_eq])] at horder
  exact ⟨order.reverse, horder, (List.reverse_perm order).trans hperm,
    by simpa using hprogress.arranged⟩

end DesignTokens.Dependencies
