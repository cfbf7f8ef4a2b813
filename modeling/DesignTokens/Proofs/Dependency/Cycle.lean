import DesignTokens.Proofs.Dependency.Graph
import DesignTokens.Proofs.Outcome
import Mathlib.Data.List.Chain
import Mathlib.Data.List.Perm.Subperm

/-!
# Cycles of references

The search for cycles goes from slots to the slots that refer to them.  It keeps a list of finished
slots in which everything that refers to a slot was finished before it, so no cycle leads through
finished slots; and when it meets a slot of the way that it came, that way closes to a cycle.
A graph has a cycle to report exactly when it is not acyclic (`findCycle_eq_none_iff`).  What is
reported is a closed walk of references the other way round (`exists_closedWalk_of_findCycle`).
-/

namespace DesignTokens.Dependencies

variable {α : Type} {g : Dependencies α}

/-! ## Finished slots -/

/-- A list of slots, the last finished one first: all that refers to a slot was finished before. -/
inductive Finished (g : Dependencies α) : List Slot → Prop where
  /-- Nothing is finished. -/
  | nil : Finished g []
  /-- One more slot is finished after all that refers to it. -/
  | cons (s : Slot) (finished : List Slot) :
      (∀ t, g.Refers t s → t ∈ finished) → Finished g finished → Finished g (s :: finished)

/-- What refers to a finished slot is finished. -/
theorem Finished.closed {finished : List Slot} (h : Finished g finished) {s t : Slot}
    (hs : s ∈ finished) (ht : g.Refers t s) : t ∈ finished := by
  induction h with
  | nil => simp at hs
  | cons r rest hr _ ih =>
    rcases List.mem_cons.mp hs with rfl | hs
    · exact List.mem_cons_of_mem _ (hr t ht)
    · exact List.mem_cons_of_mem _ (ih hs)

theorem Finished.closed_reflTransGen {finished : List Slot} (h : Finished g finished) {s t : Slot}
    (hs : s ∈ finished) (ht : Relation.ReflTransGen g.Refers t s) : t ∈ finished := by
  induction ht using Relation.ReflTransGen.head_induction_on with
  | refl => exact hs
  | head hstep _ ih => exact h.closed ih hstep

/-- No finished slot leads back to itself. -/
theorem Finished.not_transGen {finished : List Slot} (h : Finished g finished) {s : Slot}
    (hs : s ∈ finished) : ¬ Relation.TransGen g.Refers s s := by
  induction h generalizing s with
  | nil => simp at hs
  | cons r rest hr hrest ih =>
    intro hcycle
    rcases List.mem_cons.mp hs with rfl | hs
    · -- a cycle through the last finished slot leads through one that was finished before
      obtain ⟨t, hst, hts⟩ := Relation.TransGen.tail'_iff.mp hcycle
      exact ih (hrest.closed_reflTransGen (hr t hts) hst) hcycle
    · exact ih hs hcycle

/-! ## Ways and cycles -/

/-- The way to a slot, the nearest slot first: each slot refers to the next one, and no slot stands
on it twice. -/
structure Way (g : Dependencies α) (way : List Slot) : Prop where
  chain : way.IsChain g.Refers
  nodup : way.Nodup
  mem : ∀ s ∈ way, s ∈ g.slots

/-- A way that is not empty with a reference from its end to its start. -/
structure IsCycle (g : Dependencies α) (cycle : List Slot) : Prop where
  way : Way g cycle
  closed : ∃ first last, cycle.head? = some first ∧ cycle.getLast? = some last ∧
    g.Refers last first

/-- A way does not have more slots than its graph. -/
theorem Way.length_le {way : List Slot} (h : Way g way) : way.length ≤ g.slots.length :=
  (List.Nodup.subperm h.nodup h.mem).length_le

/-- A way goes on to a slot that refers to its start. -/
theorem Way.cons {s t : Slot} {way : List Slot} (hg : g.Contained) (h : Way g (s :: way))
    (ht : g.Refers t s) (hnew : t ∉ s :: way) : Way g (t :: s :: way) where
  chain := List.isChain_cons_cons.mpr ⟨ht, h.chain⟩
  nodup := List.nodup_cons.mpr ⟨hnew, h.nodup⟩
  mem := by
    intro r hr
    rcases List.mem_cons.mp hr with rfl | hr
    · exact (hg.mem_of_refers ht).1
    · exact h.mem r hr

/-- The start of a way leads to its end. -/
theorem reflTransGen_of_chain {way : List Slot} {s t : Slot} (h : (s :: way).IsChain g.Refers)
    (ht : (s :: way).getLast? = some t) : Relation.ReflTransGen g.Refers s t := by
  induction way generalizing s with
  | nil =>
    obtain rfl : s = t := by simpa using ht
    exact .refl
  | cons r way ih =>
    rw [List.isChain_cons_cons] at h
    rw [List.getLast?_cons_cons] at ht
    exact .head h.1 (ih h.2 ht)

theorem IsCycle.not_acyclic {cycle : List Slot} (h : IsCycle g cycle) : ¬ g.Acyclic := by
  obtain ⟨first, last, hfirst, hlast, hclose⟩ := h.closed
  obtain ⟨rest, rfl⟩ := List.head?_eq_some_iff.mp hfirst
  intro hacyclic
  exact hacyclic first (Relation.TransGen.tail' (reflTransGen_of_chain h.way.chain hlast) hclose)

/-- The part of a way from its start to a slot that refers to the start is a cycle. -/
theorem isCycle_takeWhile {s t : Slot} {way : List Slot} (h : Way g (s :: way))
    (ht : g.Refers t s) (hmem : t ∈ s :: way) :
    IsCycle g ((s :: way).takeWhile (· ≠ t) ++ [t]) := by
  -- the way is cut at the first slot that is the one it comes back to
  obtain ⟨before, rest, hsplit, hnew⟩ := List.eq_append_cons_of_mem hmem
  have htake : (s :: way).takeWhile (· ≠ t) = before := by
    have hother : ∀ r ∈ before, decide (r ≠ t) = true := by
      intro r hr
      simpa using fun hrt : r = t => hnew (hrt ▸ hr)
    rw [hsplit, List.takeWhile_append_of_pos hother, List.takeWhile_cons_of_neg (by simp),
      List.append_nil]
  have hway : Way g ((s :: way).takeWhile (· ≠ t) ++ [t]) := by
    rw [htake]
    have hwhole : (before ++ [t]) ++ rest = s :: way := by simp [hsplit]
    have hchain : List.IsChain g.Refers ((before ++ [t]) ++ rest) := hwhole ▸ h.chain
    have hsub : (before ++ [t]).Sublist (s :: way) := hwhole ▸ List.sublist_append_left _ _
    exact ⟨hchain.left_of_append, h.nodup.sublist hsub, fun r hr => h.mem r (hsub.subset hr)⟩
  -- the start of the way is the start of the cycle, also when it is cut at once
  refine ⟨hway, s, t, ?_, by simp, ht⟩
  by_cases hs : s = t <;> simp [hs]

/-! ## The search -/

/-- What a search from finished slots on may answer, when some slots are to be finished: more
finished slots with those among them, or a cycle. -/
def Explored (g : Dependencies α) (finished wanted : List Slot) :
    Except (List Slot) (List Slot) → Prop
  | .ok found => Finished g found ∧ finished ⊆ found ∧ wanted ⊆ found
  | .error cycle => IsCycle g cycle

/-- Searching from one slot after the other finishes them all or ends with a cycle. -/
theorem explored_foldlM {step : List Slot → Slot → Except (List Slot) (List Slot)}
    {wanted : List Slot}
    (hstep : ∀ finished, Finished g finished → ∀ t ∈ wanted,
      Explored g finished [t] (step finished t))
    {start : List Slot} (hstart : Finished g start) :
    Explored g start wanted (wanted.foldlM step start) := by
  -- the induction is on the slots that are left, with any finished slots to start from
  induction wanted generalizing start with
  | nil => exact ⟨hstart, List.Subset.refl _, List.nil_subset _⟩
  | cons t wanted ih =>
    rw [List.foldlM_cons]
    have hfirst := hstep start hstart t List.mem_cons_self
    cases hresult : step start t with
    | error cycle =>
      rw [hresult] at hfirst
      exact hfirst
    | ok found =>
      rw [hresult] at hfirst
      obtain ⟨hfound, hgrown, ht⟩ := hfirst
      have hrest := ih (fun finished h r hr => hstep finished h r (List.mem_cons_of_mem _ hr))
        hfound
      cases hend : wanted.foldlM step found with
      | error cycle =>
        rw [hend] at hrest
        change IsCycle g cycle at hrest
        simpa [bind, Except.bind, hend, Explored] using hrest
      | ok last =>
        rw [hend] at hrest
        obtain ⟨hlast, hmore, hall⟩ := hrest
        have : Explored g start (t :: wanted) (.ok last) :=
          -- what the first search finished stays finished
          ⟨hlast, List.Subset.trans hgrown hmore,
            List.cons_subset.mpr ⟨hmore (ht List.mem_cons_self), hall⟩⟩
        simpa [bind, Except.bind, hend] using this

/-- A search from a slot on finishes the slot or ends with a cycle.  The fuel suffices, because the
way to the slot takes up what was used of it. -/
theorem explored_search (hg : g.Contained) {fuel : Nat} {path finished : List Slot} {s : Slot}
    (hway : Way g (s :: path)) (hfinished : Finished g finished)
    (hfuel : g.slots.length < fuel + path.length) :
    Explored g finished [s] (g.search fuel path finished s) := by
  induction fuel generalizing path finished s with
  | zero =>
    -- a way with more slots than the graph cannot be
    have := hway.length_le
    simp only [List.length_cons] at this
    omega
  | succ fuel ih =>
    rw [search]
    by_cases hdone : s ∈ finished
    · rw [if_pos (by simpa using hdone)]
      exact ⟨hfinished, List.Subset.refl _, by simpa using hdone⟩
    · rw [if_neg (by simpa using hdone)]
      have hfold : Explored g finished (g.referrers s)
          ((g.referrers s).foldlM (fun finished t =>
            if (s :: path).contains t then .error ((s :: path).takeWhile (· ≠ t) ++ [t])
            else g.search fuel (s :: path) finished t) finished) := by
        refine explored_foldlM ?_ hfinished
        intro finished hfinished t ht
        rw [mem_referrers] at ht
        -- a slot on the way closes a cycle, and a new one makes the way longer
        by_cases hmem : t ∈ s :: path
        · rw [if_pos (by simpa using hmem)]
          exact isCycle_takeWhile hway ht hmem
        · rw [if_neg (by simpa using hmem)]
          refine ih (hway.cons hg ht hmem) hfinished ?_
          simp only [List.length_cons]
          omega
      dsimp only
      revert hfold
      generalize (g.referrers s).foldlM (fun finished t =>
          if (s :: path).contains t then .error ((s :: path).takeWhile (· ≠ t) ++ [t])
          else g.search fuel (s :: path) finished t) finished = result
      intro hfold
      cases result with
      | error cycle => exact hfold
      | ok found =>
        obtain ⟨hfound, hgrown, hall⟩ := hfold
        -- all that refers to the slot is finished now
        have hnext : Finished g (s :: found) :=
          .cons s found (fun t ht => hall (mem_referrers.mpr ht)) hfound
        exact ⟨hnext, fun r hr => List.mem_cons_of_mem _ (hgrown hr), by simp⟩

/-! ## The report -/

theorem explored_slots (hg : g.Contained) :
    Explored g [] g.slots
      (g.slots.foldlM (fun finished s => g.search (g.slots.length + 1) [] finished s) []) := by
  refine explored_foldlM ?_ .nil
  intro finished hfinished s hs
  refine explored_search hg ⟨List.isChain_singleton s, by simp, by simpa using hs⟩ hfinished ?_
  simp

/-- A graph has no cycle to report exactly when no slot leads back to itself. -/
theorem findCycle_eq_none_iff (hg : g.Contained) : g.findCycle = none ↔ g.Acyclic := by
  have hsearch := explored_slots hg
  rw [findCycle]
  cases hresult : g.slots.foldlM
      (fun finished s => g.search (g.slots.length + 1) [] finished s) [] with
  | ok finished =>
    rw [hresult] at hsearch
    obtain ⟨hfinished, -, hall⟩ := hsearch
    simp only [true_iff]
    intro s hcycle
    -- a slot that leads anywhere is one of the graph
    have hs : s ∈ g.slots := by
      obtain ⟨t, hst, -⟩ := Relation.TransGen.head'_iff.mp hcycle
      exact (hg.mem_of_refers hst).1
    exact hfinished.not_transGen (hall hs) hcycle
  | error cycle =>
    rw [hresult] at hsearch
    have hcycle : IsCycle g cycle := hsearch
    obtain ⟨first, last, hfirst, hlast, hclose⟩ := hcycle.closed
    obtain ⟨rest, rfl⟩ := List.head?_eq_some_iff.mp hfirst
    -- the reference that closes the cycle is there to be reported
    obtain ⟨e, he⟩ := exists_edge? hclose
    simp [hlast, he, hcycle.not_acyclic]

/-- What is reported is what the search ends with, and in front of it its last slot once more. -/
theorem exists_of_findCycle {chain : List Slot} {label : α}
    (h : g.findCycle = some (chain, label)) :
    ∃ first rest last e,
      g.slots.foldlM (fun finished s => g.search (g.slots.length + 1) [] finished s) [] =
          .error (first :: rest) ∧
        (first :: rest).getLast? = some last ∧ g.edge? first last = some e ∧
        chain = last :: first :: rest ∧ label = e.label := by
  rw [findCycle] at h
  split at h
  · simp at h
  · rename_i cycle hsearch
    split at h
    · rename_i first rest last hlast
      obtain ⟨e, he, hreport⟩ := Option.map_eq_some_iff.mp h
      obtain ⟨rfl, rfl⟩ := Prod.mk.inj hreport
      exact ⟨first, rest, last, e, hsearch, hlast, he, rfl, rfl⟩
    · simp at h

/-- A chain of slots comes back to where it starts: every slot refers to the next one, and none
stands on the way twice. -/
structure ComesBack (refers : Slot → Slot → Prop) (chain : List Slot) : Prop where
  two_le_length : 2 ≤ chain.length
  ends_eq : chain.head? = chain.getLast?
  nodup : chain.tail.Nodup
  chain : chain.IsChain refers

/-! ## Reports of walks -/

/-- References one after the other, each as its target and its referrer: the referrer of each of
them is the target of the next one, and that of the last one is the target of the first. -/
structure ClosedWalk (refers : Slot → Slot → Prop) (walk : List (Slot × Slot)) : Prop where
  refers : ∀ p ∈ walk, refers p.2 p.1
  linked : walk.IsChain fun p q => p.2 = q.1
  closed : ∃ first last, walk.head? = some first ∧ walk.getLast? = some last ∧ last.2 = first.1
  nodup : (walk.map Prod.fst).Nodup

/-- How a walk of references is reported.  The walk goes to the referrers, so the chain of the
slots that refer to each other goes backwards, and its first step is the last one of the walk. -/
def report (walk : List (Slot × Slot)) (g : Dependencies α) : Option (List Slot × α) :=
  match walk.head?, walk.getLast? with
  | some first, some last =>
    (g.edge? last.1 last.2).map fun e => (first.1 :: walk.reverse.map Prod.fst, e.label)
  | _, _ => none

/-- The report of any closed walk comes back to where it starts, with the reference of the first
step. -/
theorem comesBack_of_closedWalk {walk : List (Slot × Slot)} (hw : ClosedWalk g.Refers walk) :
    ∃ chain label, g.report walk = some (chain, label) ∧ ComesBack g.Refers chain ∧
      ∃ s t rest e, chain = s :: t :: rest ∧ g.edge? t s = some e ∧ label = e.label := by
  obtain ⟨first, last, hfirst, hlast, hclosed⟩ := hw.closed
  have hstep : g.Refers last.2 last.1 := hw.refers last (List.mem_of_getLast? hlast)
  obtain ⟨e, he⟩ := exists_edge? hstep
  obtain ⟨before, hbefore⟩ := List.head?_eq_some_iff.mp (List.head?_reverse.trans hlast)
  -- backwards, each target refers to the next one: it is the referrer of the reference before it
  have hback : (walk.reverse.map Prod.fst).IsChain g.Refers := by
    rw [List.isChain_map, List.isChain_reverse, List.isChain_iff_getElem]
    intro i hi
    rw [← List.isChain_iff_getElem.mp hw.linked i hi]
    exact hw.refers _ (List.getElem_mem _)
  refine ⟨first.1 :: walk.reverse.map Prod.fst, e.label, by simp [report, hfirst, hlast, he],
    ⟨by simp [hbefore], ?_, ?_, ?_⟩, first.1, last.1, before.map Prod.fst, e, by simp [hbefore],
    hclosed ▸ he, rfl⟩
  · have hend : (walk.reverse.map Prod.fst).getLast? = some first.1 := by
      rw [List.getLast?_map, List.getLast?_reverse, hfirst, Option.map_some]
    rw [List.head?_cons, List.getLast?_cons, hend, Option.getD_some]
  · rw [List.tail_cons, List.map_reverse]
    exact List.nodup_reverse.mpr hw.nodup
  · rw [hbefore, List.map_cons] at hback ⊢
    exact List.isChain_cons_cons.mpr ⟨hclosed ▸ hstep, hback⟩

/-- What is reported is the report of a closed walk. -/
theorem exists_closedWalk_of_findCycle (hg : g.Contained) {chain : List Slot} {label : α}
    (h : g.findCycle = some (chain, label)) :
    ∃ walk, ClosedWalk g.Refers walk ∧ g.report walk = some (chain, label) := by
  obtain ⟨first, rest, last, e, hsearch, hlast, he, rfl, rfl⟩ := exists_of_findCycle h
  have hcycle : IsCycle g (first :: rest) := by
    have hexplored := explored_slots hg
    rwa [hsearch] at hexplored
  set cycle := first :: rest with hcons
  -- each slot of the cycle is the target of the one before it, and the first one that of the last
  have hchain : (last :: cycle).IsChain g.Refers :=
    List.isChain_cons_cons.mpr ⟨refers_of_edge? he, hcycle.way.chain⟩
  have htargets : (cycle.zip (last :: cycle)).map Prod.fst = cycle :=
    List.map_fst_zip (by simp)
  have hstart : ∃ p, (cycle.zip (last :: cycle)).reverse.head? = some p ∧ p.1 = last := by
    rw [← Option.map_eq_some_iff, ← List.head?_map, List.map_reverse, htargets, List.head?_reverse,
      hlast]
  obtain ⟨p, hp, hpfst⟩ := hstart
  have hend : (cycle.zip (last :: cycle)).reverse.getLast? = some (first, last) := by
    rw [List.getLast?_reverse, hcons, List.zip_cons_cons, List.head?_cons]
  refine ⟨(cycle.zip (last :: cycle)).reverse, ⟨fun q hq => ?_, ?_, ⟨p, _, hp, hend, hpfst.symm⟩,
    ?_⟩, ?_⟩
  · obtain ⟨i, hi, rfl⟩ := List.mem_iff_getElem.mp (List.mem_reverse.mp hq)
    rw [List.getElem_zip]
    exact List.isChain_iff_getElem.mp hchain i (by simp at hi ⊢; omega)
  · rw [List.isChain_reverse, List.isChain_iff_getElem]
    intro i hi
    simp
  · rw [List.map_reverse, htargets]
    exact List.nodup_reverse.mpr hcycle.way.nodup
  · rw [report, hp, hend]
    simp only [he, Option.map_some, List.reverse_reverse, htargets, hpfst]

end DesignTokens.Dependencies
