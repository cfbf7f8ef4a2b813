import DesignTokens.Proofs.Dependency.Building
import DesignTokens.Proofs.Dependency.Order
import Mathlib.Data.List.Lex

/-!
# The least order

Of several slots that can come next the one with the least rank does.  So the order of a graph is
the least of all lists in which every slot stands once and after its targets: at the first place
where another such list differs, it has a slot that could come there as well.  When the references
lead back to where they started there is no such list, and no order.

## Main statement

* `order_build`: the order of a graph that was built, said of the slots, ranks and references that
  were added.
-/

namespace DesignTokens.Dependencies

variable {α : Type} {g : Dependencies α}

/-! ## Orders of a graph -/

/-- A list of all slots of a graph, each once and after its targets. -/
structure IsOrder (g : Dependencies α) (sorted : List Slot) : Prop where
  nodup : sorted.Nodup
  mem_iff : ∀ s, s ∈ sorted ↔ s ∈ g.slots
  target_first : ∀ a b, g.Refers a b → sorted.idxOf b < sorted.idxOf a

theorem IsOrder.length_eq (hg : g.WellFormed) {sorted : List Slot} (h : IsOrder g sorted) :
    sorted.length = g.slots.length :=
  ((List.perm_ext_iff_of_nodup h.nodup hg.slots_nodup).mpr h.mem_iff).length_eq

/-- A list in which targets come before their referrers leaves no room for cycles. -/
theorem acyclic_of_idxOf {refers : Slot → Slot → Prop} {sorted : List Slot}
    (h : ∀ a b, refers a b → sorted.idxOf b < sorted.idxOf a) (s : Slot) :
    ¬ Relation.TransGen refers s s := by
  intro hcycle
  have hlt : ∀ {a b}, Relation.TransGen refers a b → sorted.idxOf b < sorted.idxOf a := by
    intro a b hab
    induction hab with
    | single hstep => exact h _ _ hstep
    | tail _ hstep ih => exact (h _ _ hstep).trans ih
  exact lt_irrefl _ (hlt hcycle)

/-- In arranged slots every target stands in front of its referrers. -/
theorem Arranged.idxOf_lt {done : List Slot} (h : Arranged g done) (hnodup : done.Nodup)
    {a b : Slot} (ha : a ∈ done) (hab : g.Refers a b) :
    done.reverse.idxOf b < done.reverse.idxOf a := by
  induction h with
  | nil => simp at ha
  | cons s done htargets hdone ih =>
    obtain ⟨hnew, hnodup⟩ := List.nodup_cons.mp hnodup
    rw [List.reverse_cons]
    rcases List.mem_cons.mp ha with rfl | ha
    · -- the last slot stands behind all that were there
      have hb : b ∈ done.reverse := List.mem_reverse.mpr (htargets b hab)
      rw [List.idxOf_append_of_mem hb, List.idxOf_append_of_notMem (by simpa using hnew)]
      exact (List.idxOf_lt_length_of_mem hb).trans_le (Nat.le_add_right _ _)
    · have hb : b ∈ done := hdone.closed ha hab
      rw [List.idxOf_append_of_mem (List.mem_reverse.mpr hb),
        List.idxOf_append_of_mem (List.mem_reverse.mpr ha)]
      exact ih hnodup ha

/-- A graph has an order exactly when no references lead back to where they started. -/
theorem order_cases (hg : g.WellFormed) :
    (g.Acyclic ∧ ∃ sorted, g.order = .ok sorted ∧ IsOrder g sorted) ∨
      (¬ g.Acyclic ∧ g.order = .error .cyclic) := by
  obtain ⟨order, hprogress, horder⟩ := exists_arranged hg
  by_cases hless : order.length < g.slots.length
  · refine .inr ⟨fun hacyclic => ?_, by rw [horder, if_pos hless]⟩
    -- in an acyclic graph no slot would be missing
    have hall : g.slots ⊆ order := hprogress.complete hg hacyclic
    exact absurd (List.Nodup.subperm hg.slots_nodup hall).length_le (by omega)
  · have hperm : order.Perm g.slots :=
      (List.Nodup.subperm hprogress.nodup hprogress.mem).perm_of_length_le (by omega)
    have hsorted : IsOrder g order.reverse := {
      nodup := List.nodup_reverse.mpr hprogress.nodup
      mem_iff := fun s => by rw [List.mem_reverse, hperm.mem_iff]
      target_first := fun a b hab => hprogress.arranged.idxOf_lt hprogress.nodup
        (hperm.mem_iff.mpr (hg.mem_of_refers hab).1) hab }
    exact .inl ⟨acyclic_of_idxOf hsorted.target_first, _, by rw [horder, if_neg hless], hsorted⟩

/-! ## The first of the slots that wait -/

theorem Ready.before_iff {a b : Ready} :
    a.before b = true ↔ a.rank.1 < b.rank.1 ∨ a.rank.1 = b.rank.1 ∧ (a.rank.2 < b.rank.2 ∨
      a.rank.2 = b.rank.2 ∧ a.position < b.position) := by
  simp [before]

/-- No other slot comes before the first one. -/
theorem not_before_takeFirst (a : Ready) (rest : List Ready) :
    ∀ b ∈ a :: rest, ¬ b.before (takeFirst a rest).1 = true := by
  induction rest generalizing a with
  | nil => simp [takeFirst, Ready.before_iff]
  | cons c rest ih =>
    have hrest := ih c
    rw [takeFirst]
    dsimp only
    split
    · rename_i hfirst
      dsimp only
      refine List.forall_mem_cons.mpr ⟨?_, hrest⟩
      rw [Ready.before_iff] at hfirst ⊢
      omega
    · rename_i hfirst
      dsimp only
      refine List.forall_mem_cons.mpr ⟨by simp [Ready.before_iff], fun b hb => ?_⟩
      -- what comes before the slot would come before the first of the others
      have hb := hrest b hb
      rw [Ready.before_iff] at hfirst hb ⊢
      omega

/-- A slot has a lesser rank than another one. -/
def Earlier (rank? : Slot → Option (Int × Int)) (a b : Slot) : Prop :=
  ∃ p q, rank? a = some p ∧ rank? b = some q ∧ Prod.Lex (· < ·) (· < ·) p q

/-- Slots that wait with their ranks. -/
def Ranked (g : Dependencies α) (waiting : List Ready) : Prop :=
  ∀ r ∈ waiting, g.rank? r.slot = some r.rank

/-- What becomes of slots that can come next: they wait with the ranks that they have. -/
theorem ranked_mapM_ready {slots : List Slot} {waiting : List Ready}
    (h : slots.mapM g.ready = .ok waiting) : waiting.map Ready.slot = slots ∧ Ranked g waiting := by
  have hready : ∀ s r, g.ready s = .ok r → r.slot = s ∧ g.rank? r.slot = some r.rank := by
    intro s r hr
    rw [ready] at hr
    split at hr
    · rename_i rank hrank
      obtain rfl := Except.ok.inj hr
      exact ⟨rfl, hrank⟩
    · exact absurd hr (by simp)
  rw [Outcome.mapM_eq_ok_iff] at h
  induction h with
  | nil => exact ⟨rfl, by simp [Ranked]⟩
  | @cons s r _ _ hr _ ih =>
    obtain ⟨hslot, hrank⟩ := hready s r hr
    exact ⟨by rw [List.map_cons, hslot, ih.1], List.forall_mem_cons.mpr ⟨hrank, ih.2⟩⟩

/-- When ranks tell slots apart, the first slot has a lesser rank than any other one that waits. -/
theorem earlier_takeFirst (hranks : ∀ s t, s ∈ g.slots → g.rank? s = g.rank? t → s = t)
    {a : Ready} {rest : List Ready} (hranked : Ranked g (a :: rest))
    (hslots : ∀ r ∈ a :: rest, r.slot ∈ g.slots) {r : Ready} (hr : r ∈ a :: rest)
    (hne : r.slot ≠ (takeFirst a rest).1.slot) :
    Earlier g.rank? (takeFirst a rest).1.slot r.slot := by
  have hfirst : (takeFirst a rest).1 ∈ a :: rest :=
    (takeFirst_perm a rest).mem_iff.mp List.mem_cons_self
  refine ⟨_, _, hranked _ hfirst, hranked r hr, ?_⟩
  have hbefore := not_before_takeFirst a rest r hr
  have hrank : r.rank ≠ (takeFirst a rest).1.rank := fun heq =>
    hne (hranks _ _ (hslots r hr) (by rw [hranked r hr, hranked _ hfirst, heq]))
  rw [Ready.before_iff] at hbefore
  rw [Prod.lex_def]
  rw [Ne, Prod.ext_iff] at hrank
  omega

/-! ## The least list -/

/-- What stands in the order stays where it is. -/
theorem prefix_arrange {fuel : Nat} {done : List Slot} {waiting : List Ready} {sorted : List Slot}
    (h : g.arrange fuel done waiting = .ok sorted) : done.reverse <+: sorted := by
  induction fuel generalizing done waiting with
  | zero => exact (Except.ok.inj h) ▸ List.prefix_rfl
  | succ fuel ih =>
    cases waiting with
    | nil => exact (Except.ok.inj h) ▸ List.prefix_rfl
    | cons a waiting =>
      obtain ⟨ready, -, hrest⟩ := Outcome.bind_eq_ok.mp h
      have hfront := ih hrest
      rw [List.reverse_cons] at hfront
      exact (List.prefix_append _ _).trans hfront

/-- What comes next in an order waits when all that stands in front of it is arranged. -/
theorem Progress.mem_waiting {done waiting later : List Slot} {next : Slot}
    (h : Progress g done waiting) (hother : IsOrder g (done.reverse ++ next :: later)) :
    next ∈ waiting := by
  have hnew : next ∉ done := fun hmem =>
    (List.nodup_append.mp hother.nodup).2.2 next (List.mem_reverse.mpr hmem) next
      List.mem_cons_self rfl
  refine (h.waiting_iff next).mpr ⟨(hother.mem_iff next).mp (by simp), hnew, fun t ht => ?_⟩
  -- its targets stand in front of it
  have hlt := hother.target_first next t ht
  by_contra hmissing
  rw [List.idxOf_append_of_notMem (mt List.mem_reverse.mp hnew), List.idxOf_cons_self,
    List.idxOf_append_of_notMem (mt List.mem_reverse.mp hmissing)] at hlt
  omega

/-- Arranging ends with the least of the orders that begin with what was arranged before. -/
theorem arrange_least (hg : g.WellFormed)
    (hranks : ∀ s t, s ∈ g.slots → g.rank? s = g.rank? t → s = t) {fuel : Nat}
    {done : List Slot} {waiting : List Ready} {sorted : List Slot}
    (hprogress : Progress g done (waiting.map Ready.slot)) (hranked : Ranked g waiting)
    (hsorted : g.arrange fuel done waiting = .ok sorted) (hlength : sorted.length = g.slots.length)
    {other : List Slot} (hother : IsOrder g other) (hfront : done.reverse <+: other) :
    other = sorted ∨ List.Lex (Earlier g.rank?) sorted other := by
  have hsame : other.length = sorted.length := (hother.length_eq hg).trans hlength.symm
  have hfull (h : sorted <+: other) : other = sorted := (h.eq_of_length hsame.symm).symm
  induction fuel generalizing done waiting with
  | zero => exact .inl (hfull (Except.ok.inj hsorted ▸ hfront))
  | succ fuel ih =>
    cases waiting with
    | nil => exact .inl (hfull (Except.ok.inj hsorted ▸ hfront))
    | cons a waiting =>
      obtain ⟨later, rfl⟩ := hfront
      cases later with
      | nil =>
        rw [List.append_nil] at hsame ⊢
        exact .inl ((prefix_arrange hsorted).eq_of_length hsame)
      | cons next later =>
        obtain ⟨ready, hready, hrest⟩ := Outcome.bind_eq_ok.mp hsorted
        obtain ⟨hfreed, hfreedRanked⟩ := ranked_mapM_ready hready
        have hperm := takeFirst_perm a waiting
        obtain ⟨r, hr, hnext⟩ := List.mem_map.mp (hprogress.mem_waiting hother)
        by_cases heq : r.slot = (takeFirst a waiting).1.slot
        · -- the orders go on together
          have hstep := hprogress.step hg (hperm.map Ready.slot).symm
          rw [freed, ← hfreed, ← List.map_append] at hstep
          refine ih hstep ?_ hrest ?_
          · refine List.forall_mem_append.mpr ⟨fun b hb => ?_, hfreedRanked⟩
            exact hranked b (hperm.mem_iff.mp (List.mem_cons_of_mem _ hb))
          · rw [List.reverse_cons, ← heq, hnext]
            exact ⟨later, by simp⟩
        · -- here the other order has a slot of a greater rank
          have hslots : ∀ b ∈ a :: waiting, b.slot ∈ g.slots := fun b hb =>
            ((hprogress.waiting_iff b.slot).mp (List.mem_map_of_mem hb)).1
          have hearlier := earlier_takeFirst hranks hranked hslots hr heq
          obtain ⟨rest, rfl⟩ := prefix_arrange hrest
          rw [List.reverse_cons, List.append_assoc, ← hnext]
          exact .inr (List.Lex.append_left _ (.rel hearlier) _)

/-- The order of a graph is the least one when ranks tell slots apart. -/
theorem order_least (hg : g.WellFormed)
    (hranks : ∀ s t, s ∈ g.slots → g.rank? s = g.rank? t → s = t) {sorted : List Slot}
    (hsorted : g.order = .ok sorted) (hsuits : IsOrder g sorted) {other : List Slot}
    (hother : IsOrder g other) :
    other = sorted ∨ List.Lex (Earlier g.rank?) sorted other := by
  obtain ⟨free, hfree, hstart⟩ := exists_start hg
  simp only [Dependencies.order, Outcome.bind_eq_ok] at hsorted
  obtain ⟨waiting, hwaiting, arranged, harranged, hend⟩ := hsorted
  obtain rfl : free = waiting := Except.ok.inj (hfree.symm.trans hwaiting)
  split at hend
  · exact (Outcome.throw_ne_ok.mp hend).elim
  · obtain rfl : arranged = sorted := Except.ok.inj hend
    exact arrange_least hg hranks hstart (ranked_mapM_ready hfree).2 harranged
      (hsuits.length_eq hg) hother List.nil_prefix

/-! ## The order of added slots -/

/-- A list of all added slots, each once and after the slots that it refers to. -/
structure Suits (steps : List (Addition α)) (sorted : List Slot) : Prop where
  nodup : sorted.Nodup
  mem_iff : ∀ s, s ∈ sorted ↔ s ∈ added steps
  target_first : ∀ a b, RefersIn steps a b → sorted.idxOf b < sorted.idxOf a

theorem suits_iff {steps : List (Addition α)} (haddressed : Addressed steps) {sorted : List Slot} :
    Suits steps sorted ↔ IsOrder (build steps) sorted := by
  constructor
  · exact fun h => ⟨h.nodup, fun s => (h.mem_iff s).trans (mem_slots_iff haddressed).symm,
      refers_build steps ▸ h.target_first⟩
  · exact fun h => ⟨h.nodup, fun s => (h.mem_iff s).trans (mem_slots_iff haddressed),
      refers_build steps ▸ h.target_first⟩

/-- Whatever the steps, with references between added slots and ranks that tell them apart: when no
slot leads back to itself by added references, the order of the graph suits them, and of all lists
that do it is the least by ranks.  When one does, there is no order, and that is so exactly when
there is a cycle to report. -/
theorem order_build {steps : List (Addition α)} (haddressed : Addressed steps)
    (hranks : DistinctRanks steps) :
    ((∀ s, ¬ Relation.TransGen (RefersIn steps) s s) →
      ∃ sorted, (build steps).order = .ok sorted ∧ Suits steps sorted ∧
        ∀ other, Suits steps other → other = sorted ∨
          List.Lex (Earlier (rankIn steps)) sorted other) ∧
    ((∃ s, Relation.TransGen (RefersIn steps) s s) → (build steps).order = .error .cyclic) ∧
    ((build steps).order = .error .cyclic ↔ (build steps).findCycle ≠ none) := by
  have hg := wellFormed_build haddressed
  have hacyclic : (build steps).Acyclic ↔ ∀ s, ¬ Relation.TransGen (RefersIn steps) s s := by
    rw [Acyclic, refers_build]
  rw [Ne, findCycle_eq_none_iff hg.contained, hacyclic]
  rcases order_cases hg with ⟨hno, sorted, hsorted, hsuits⟩ | ⟨hcycle, hfault⟩
  · rw [hacyclic] at hno
    refine ⟨fun _ => ⟨sorted, hsorted, (suits_iff haddressed).mpr hsuits, fun other hother => ?_⟩,
      fun ⟨s, hs⟩ => absurd hs (hno s), by simp [hsorted, hno]⟩
    have hleast := order_least hg (eq_of_rank?_eq haddressed hranks) hsorted hsuits
      ((suits_iff haddressed).mp hother)
    rwa [funext (rank?_build steps)] at hleast
  · rw [hacyclic] at hcycle
    exact ⟨fun hno => absurd hno hcycle, fun _ => hfault, by simp [hfault, hcycle]⟩

/-- Three slots that are not added in the order of their ranks, and one that comes first by its rank
but refers to another one. -/
def forkSteps : List (Addition Nat) :=
  [.slot ⟨"c", defaultMode⟩ (2, 0), .slot ⟨"a", defaultMode⟩ (0, 0),
    .reference ⟨⟨"b", defaultMode⟩, ⟨"a", defaultMode⟩, 1⟩, .slot ⟨"b", "dark"⟩ (1, 1),
    .slot ⟨"b", defaultMode⟩ (1, 0)]

/-- The same steps, and a reference back. -/
def loopSteps : List (Addition Nat) :=
  forkSteps ++ [.reference ⟨⟨"a", defaultMode⟩, ⟨"b", defaultMode⟩, 2⟩]

/-- The slot that is referred to comes first and frees the one with the least rank; with the
reference back there is no order. -/
theorem order_build_fork :
    (Addressed forkSteps ∧ DistinctRanks forkSteps ∧
      (∀ s, ¬ Relation.TransGen (RefersIn forkSteps) s s) ∧
      let sorted : List Slot :=
        [⟨"b", defaultMode⟩, ⟨"a", defaultMode⟩, ⟨"b", "dark"⟩, ⟨"c", defaultMode⟩]
      (build forkSteps).order = .ok sorted ∧ Suits forkSteps sorted ∧
        ∀ other, Suits forkSteps other → other = sorted ∨
          List.Lex (Earlier (rankIn forkSteps)) sorted other) ∧
    (Addressed loopSteps ∧ DistinctRanks loopSteps ∧
      (build loopSteps).order = .error .cyclic ∧ (build loopSteps).findCycle ≠ none) := by
  have haddressed : Addressed forkSteps ∧ Addressed loopSteps := by decide +kernel
  have hranks : DistinctRanks forkSteps ∧ DistinctRanks loopSteps := by decide +kernel
  obtain ⟨hleast, hcycle, -⟩ := order_build haddressed.1 hranks.1
  obtain ⟨-, -, hreport⟩ := order_build haddressed.2 hranks.2
  have horder : (build forkSteps).order =
      .ok [⟨"b", defaultMode⟩, ⟨"a", defaultMode⟩, ⟨"b", "dark"⟩, ⟨"c", defaultMode⟩] := by
    decide +kernel
  have hacyclic : ∀ s, ¬ Relation.TransGen (RefersIn forkSteps) s s := by
    intro s hs
    rw [hcycle ⟨s, hs⟩] at horder
    cases horder
  have hfault : (build loopSteps).order = .error .cyclic := by decide +kernel
  obtain ⟨sorted, hsorted, hsuits⟩ := hleast hacyclic
  obtain rfl := Except.ok.inj (hsorted.symm.trans horder)
  exact ⟨⟨haddressed.1, hranks.1, hacyclic, horder, hsuits⟩, haddressed.2, hranks.2, hfault,
    hreport.mp hfault⟩

end DesignTokens.Dependencies
