import DesignTokens.Proofs.Value.Shape

/-!
# Lists of font families

A list of font families is filled slot by slot: a reference adds the whole list that it stands for,
and a family adds itself.
-/

namespace DesignTokens.Grammar

open Outcome Template

variable {value : Reference → Except Fault Data}

/-- What each slot of a list of families adds: the families of a reference, or the one family. -/
inductive Adds (value : Reference → Except Fault Data) : Template → List Data → Prop where
  /-- A reference adds the list that it stands for. -/
  | hole (h : Hole) (cs : List Data) : value h.reference = .ok (.list cs) → Adds value (.hole h) cs
  /-- A family adds itself. -/
  | family (s : String) : s ≠ "" → Closed s → Adds value (.text s) [.text s]

theorem Adds.ne_nil {t : Template} {added : List Data} (h : Adds value t added)
    (hvalue : ∀ g, t = .hole g → ∃ cs, value g.reference = .ok (.list cs) ∧ cs ≠ []) :
    added ≠ [] := by
  cases h with
  | hole g cs hcs =>
    obtain ⟨_, hcs', hne⟩ := hvalue g rfl
    obtain rfl := Data.list.inj (Except.ok.inj (hcs.symm.trans hcs'))
    exact hne
  | family s _ _ => simp

/-- Filling a list of families puts what its slots add one after the other. -/
theorem fill_families {items : List Template} (hitems : ∀ i ∈ items, IsFamily i)
    (hvalue : ∀ h, Template.hole h ∈ items → ∃ cs, value h.reference = .ok (.list cs)) :
    ∃ slots, List.Forall₂ (Adds value) items slots ∧
      fill value (.list items) = .ok (.list slots.flatten) := by
  -- what a slot adds goes in front of what the later ones add
  have key : ∃ slots, List.Forall₂ (Adds value) items slots ∧
      fillItems value items = .ok slots.flatten := by
    induction items with
    | nil => exact ⟨[], .nil, rfl⟩
    | cons t ts ih =>
      obtain ⟨slots, hslots, hfill⟩ := ih (fun i hi => hitems i (List.mem_cons_of_mem _ hi))
        fun h hh => hvalue h (List.mem_cons_of_mem _ hh)
      rcases hitems t List.mem_cons_self with hhole | ⟨s, rfl, hclosed, hne⟩
      · cases hhole with
        | intro r span hr =>
          obtain ⟨cs, hcs⟩ := hvalue _ List.mem_cons_self
          refine ⟨cs :: slots, .cons (.hole _ cs hcs) hslots, ?_⟩
          dsimp only at hcs
          rw [fillItems_cons, fill, hcs, hfill]
          rfl
      · refine ⟨[.text s] :: slots, .cons (.family s hne hclosed) hslots, ?_⟩
        rw [fillItems_cons, fill, hfill]
        rfl
  obtain ⟨slots, hslots, hfill⟩ := key
  exact ⟨slots, hslots, by rw [fill, hfill]; rfl⟩

theorem accepted_of_isFamily {h : Hole} (hh : IsFamily (.hole h)) :
    h.accepted = some [.fontFamily] := by
  rcases hh with hhole | ⟨s, hs, -⟩
  · cases hhole
    rfl
  · cases hs

/-- A list of families is filled to one that is not empty, when its references stand for such
lists. -/
theorem ne_nil_of_fill {t : Template} {d : Data} (h : IsFamilies t)
    (hvalue : ∀ h, t.HasHole h → h.accepted = some [.fontFamily] →
      ∃ cs, value h.reference = .ok (.list cs) ∧ cs ≠ [])
    (hd : fill value t = .ok d) : ∃ cs, d = .list cs ∧ cs ≠ [] := by
  obtain ⟨items, rfl, hne, hitems⟩ := h
  have hlist : ∀ h, .hole h ∈ items → ∃ cs, value h.reference = .ok (.list cs) ∧ cs ≠ [] :=
    fun h hh => hvalue h (hasHole_list.mpr ⟨_, hh, hasHole_hole.mpr rfl⟩)
      (accepted_of_isFamily (hitems _ hh))
  obtain ⟨slots, hslots, hfill⟩ := fill_families hitems fun h hh =>
    (hlist h hh).imp fun _ hcs => hcs.1
  refine ⟨slots.flatten, Except.ok.inj (hd.symm.trans hfill), ?_⟩
  -- already the first slot adds a family
  cases hslots with
  | nil => exact absurd rfl hne
  | cons hadds _ =>
    have hadded := hadds.ne_nil fun g hg => hlist g (hg ▸ List.mem_cons_self)
    simp [hadded]

/-- The holes of a list of families are its slots. -/
theorem mem_holes_families {items : List Template} (hitems : ∀ i ∈ items, IsFamily i)
    {p : List Step × Hole} :
    p ∈ (Template.list items).holes ↔ ∃ i, items[i]? = some (.hole p.2) ∧ p.1 = [.index i] := by
  rw [holes, mem_holesOfItems]
  constructor
  · rintro ⟨i, t, hi, q, hq, rfl⟩
    rcases hitems t (List.mem_of_getElem? hi) with hhole | ⟨s, rfl, -⟩
    · cases hhole
      obtain rfl : q = ([], _) := by simpa [holes] using hq
      exact ⟨i, hi, by simp⟩
    · simp [holes] at hq
  · obtain ⟨steps, h⟩ := p
    rintro ⟨i, hi, hsteps⟩
    dsimp only at hi hsteps
    exact ⟨i, .hole h, hi, ([], h), by simp [holes], by simp [hsteps]⟩

/-- A leaf at a slot of a list of families is the hole that stands there. -/
theorem mem_leaves_families {items : List Template} (hitems : ∀ i ∈ items, IsFamily i) {i : Nat}
    {r : Reference} : ([.index i], r) ∈ (Template.list items).leaves ↔
      ∃ h, items[i]? = some (.hole h) ∧ h.reference = r := by
  rw [Template.leaves, List.mem_map]
  constructor
  · rintro ⟨p, hp, heq⟩
    obtain ⟨j, hj, hpath⟩ := (mem_holes_families hitems).mp hp
    obtain ⟨hsteps, rfl⟩ := Prod.mk.inj heq
    rw [hpath] at hsteps
    obtain rfl : j = i := by simpa using hsteps
    exact ⟨p.2, hj, rfl⟩
  · rintro ⟨h, hi, rfl⟩
    exact ⟨([.index i], h), (mem_holes_families hitems).mpr ⟨i, hi, rfl⟩, rfl⟩

end DesignTokens.Grammar
