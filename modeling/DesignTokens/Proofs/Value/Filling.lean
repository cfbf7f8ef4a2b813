import DesignTokens.Proofs.Outcome
import DesignTokens.Value.Template

/-!
# Filling templates

The data of a template depends on the values of its holes alone, and there is data as soon as every
hole has a value.  A list is filled item by item, and what is spliced takes the place of its item.
-/

namespace DesignTokens.Template

open Outcome

/-! ## Induction over templates -/

/-- What holds of holes and scalars, and of lists and objects whenever it holds of all their parts,
holds of all templates. -/
@[elab_as_elim]
theorem induction {P : Template → Prop} (hole : ∀ h, P (.hole h)) (scalar : ∀ s, P (.scalar s))
    (list : ∀ items, (∀ t ∈ items, P t) → P (.list items))
    (object : ∀ members, (∀ m ∈ members, P m.2) → P (.object members)) : ∀ t, P t := by
  intro t
  -- the recursor has motives for items, members and single members as well
  refine Template.rec (motive_1 := P) (motive_2 := fun items => ∀ t ∈ items, P t)
    (motive_3 := fun members => ∀ m ∈ members, P m.2) (motive_4 := fun m => P m.2)
    hole scalar list object ?_ ?_ ?_ ?_ ?_ t
  · simp
  · intro t ts ht hts u hu
    rcases List.mem_cons.mp hu with rfl | hu
    · exact ht
    · exact hts u hu
  · simp
  · intro m ms hm hms u hu
    rcases List.mem_cons.mp hu with rfl | hu
    · exact hm
    · exact hms u hu
  · intro k t ht
    exact ht

/-! ## The holes of parts -/

/-- The holes of items are those of each item, one step further away. -/
theorem mem_holesOfItems {n : Nat} {items : List Template} {p : List Step × Hole} :
    p ∈ holesOfItems n items ↔
      ∃ i t, items[i]? = some t ∧ ∃ q ∈ t.holes, p = (.index (n + i) :: q.1, q.2) := by
  induction items generalizing n with
  | nil => simp [holesOfItems]
  | cons t ts ih =>
    simp only [holesOfItems, List.mem_append, List.mem_map, ih]
    constructor
    · rintro (⟨q, hq, rfl⟩ | ⟨i, u, hu, q, hq, rfl⟩)
      · exact ⟨0, t, rfl, q, hq, rfl⟩
      · exact ⟨i + 1, u, hu, q, hq, by rw [Nat.add_right_comm]; rfl⟩
    · rintro ⟨i, u, hu, q, hq, rfl⟩
      -- the first item keeps the position, and the others are one further on
      cases i with
      | zero =>
        obtain rfl : t = u := by simpa using hu
        exact .inl ⟨q, hq, rfl⟩
      | succ i => exact .inr ⟨i, u, by simpa using hu, q, hq, by rw [Nat.add_right_comm]; rfl⟩

theorem mem_holesOfMembers {members : List (String × Template)} {p : List Step × Hole} :
    p ∈ holesOfMembers members ↔
      ∃ m ∈ members, ∃ q ∈ m.2.holes, p = (.field m.1 :: q.1, q.2) := by
  induction members with
  | nil => simp [holesOfMembers]
  | cons m ms ih =>
    obtain ⟨k, t⟩ := m
    simp only [holesOfMembers, List.mem_append, List.mem_map, ih, List.exists_mem_cons_iff, eq_comm]

/-- The holes of a list are those of its items. -/
theorem mem_holes_list {items : List Template} {h : Hole} :
    (∃ p ∈ (Template.list items).holes, p.2 = h) ↔ ∃ t ∈ items, ∃ p ∈ t.holes, p.2 = h := by
  simp only [holes, mem_holesOfItems]
  constructor
  · rintro ⟨p, ⟨i, t, ht, q, hq, rfl⟩, rfl⟩
    exact ⟨t, List.mem_of_getElem? ht, q, hq, rfl⟩
  · rintro ⟨t, ht, q, hq, rfl⟩
    obtain ⟨i, hi⟩ := List.mem_iff_getElem?.mp ht
    exact ⟨_, ⟨i, t, hi, q, hq, rfl⟩, rfl⟩

/-- The holes of an object are those of its members. -/
theorem mem_holes_object {members : List (String × Template)} {h : Hole} :
    (∃ p ∈ (Template.object members).holes, p.2 = h) ↔
      ∃ m ∈ members, ∃ p ∈ m.2.holes, p.2 = h := by
  simp only [holes, mem_holesOfMembers]
  constructor
  · rintro ⟨p, ⟨m, hm, q, hq, rfl⟩, rfl⟩
    exact ⟨m, hm, q, hq, rfl⟩
  · rintro ⟨m, hm, q, hq, rfl⟩
    exact ⟨_, ⟨m, hm, q, hq, rfl⟩, rfl⟩

/-- A hole somewhere in a template. -/
def HasHole (t : Template) (h : Hole) : Prop := ∃ p ∈ t.holes, p.2 = h

@[simp] theorem hasHole_hole {g h : Hole} : (Template.hole g).HasHole h ↔ g = h := by
  simp [HasHole, holes]

@[simp] theorem hasHole_scalar {s : Scalar} {h : Hole} : ¬ (Template.scalar s).HasHole h := by
  simp [HasHole, holes]

@[simp] theorem hasHole_list {items : List Template} {h : Hole} :
    (Template.list items).HasHole h ↔ ∃ t ∈ items, t.HasHole h :=
  mem_holes_list

@[simp] theorem hasHole_object {members : List (String × Template)} {h : Hole} :
    (Template.object members).HasHole h ↔ ∃ m ∈ members, m.2.HasHole h :=
  mem_holes_object

/-- A template is solid when it has no hole. -/
def Solid (t : Template) : Prop := ∀ h, ¬ t.HasHole h

theorem solid_iff {t : Template} : t.Solid ↔ t.holes = [] := by
  rw [List.eq_nil_iff_forall_not_mem]
  constructor
  · intro h p hp
    exact h p.2 ⟨p, hp, rfl⟩
  · rintro h _ ⟨p, hp, -⟩
    exact h p hp

/-! ## The data of parts -/

/-- What an item with its data adds to the list around it. -/
def contribution : Template → Data → List Data
  | .hole h, d => if h.spliced then spliceOf d else [d]
  | _, d => [d]

theorem fillItems_cons (value : Reference → Except Fault Data) (t : Template)
    (ts : List Template) :
    fillItems value (t :: ts) = (do
      let d ← fill value t
      let ds ← fillItems value ts
      return contribution t d ++ ds) := by
  cases t <;> rfl

variable {value : Reference → Except Fault Data}

/-- Items have data when each of them has, and theirs is what they add, one after the other. -/
theorem fillItems_eq_ok {items : List Template} {ds : List Data} :
    fillItems value items = .ok ds ↔
      ∃ parts, List.Forall₂ (fun t d => fill value t = .ok d) items parts ∧
        ds = (List.zipWith contribution items parts).flatten := by
  induction items generalizing ds with
  | nil => simp [fillItems, eq_comm]
  | cons t ts ih =>
    simp only [fillItems_cons, bind_eq_ok, pure_eq_ok, ih, List.forall₂_cons_left_iff]
    constructor
    · rintro ⟨d, hd, rest, ⟨parts, hparts, rfl⟩, rfl⟩
      exact ⟨d :: parts, ⟨d, parts, hd, hparts, rfl⟩, rfl⟩
    · rintro ⟨_, ⟨d, parts, hd, hparts, rfl⟩, rfl⟩
      exact ⟨d, hd, _, ⟨parts, hparts, rfl⟩, rfl⟩

/-- Members have data when each of them has, under the same names. -/
theorem fillMembers_eq_ok {members : List (String × Template)} {ds : List (String × Data)} :
    fillMembers value members = .ok ds ↔
      List.Forall₂ (fun m d => d.1 = m.1 ∧ fill value m.2 = .ok d.2) members ds := by
  induction members generalizing ds with
  | nil => cases ds <;> simp [fillMembers]
  | cons m ms ih =>
    obtain ⟨k, t⟩ := m
    simp only [fillMembers, bind_eq_ok, pure_eq_ok, ih, List.forall₂_cons_left_iff]
    constructor
    · rintro ⟨d, hd, rest, hrest, rfl⟩
      exact ⟨(k, d), rest, ⟨rfl, hd⟩, hrest, rfl⟩
    · rintro ⟨⟨k', d⟩, rest, ⟨rfl, hd⟩, hrest, rfl⟩
      exact ⟨d, hd, rest, hrest, rfl⟩

/-! ## Values of holes -/

/-- Only the values of the holes of a template matter for its data. -/
theorem fill_congr {other : Reference → Except Fault Data} {t : Template}
    (h : ∀ g, t.HasHole g → value g.reference = other g.reference) :
    fill value t = fill other t := by
  induction t using Template.induction with
  | hole g => exact h g (by simp)
  | scalar s => rfl
  | list items ih =>
    -- the induction over the items needs the hypothesis about those that are left only
    have hitems : fillItems value items = fillItems other items := by
      induction items with
      | nil => rfl
      | cons t ts ihts =>
        simp only [hasHole_list] at h
        rw [fillItems_cons, fillItems_cons, ih t List.mem_cons_self, ihts]
        · exact fun u hu hg => ih u (List.mem_cons_of_mem _ hu) hg
        · intro g hg
          obtain ⟨u, hu, hug⟩ := hasHole_list.mp hg
          exact h g ⟨u, List.mem_cons_of_mem _ hu, hug⟩
        · exact fun g hg => h g ⟨t, List.mem_cons_self, hg⟩
    rw [fill, fill, hitems]
  | object members ih =>
    have hmembers : fillMembers value members = fillMembers other members := by
      induction members with
      | nil => rfl
      | cons m ms ihms =>
        obtain ⟨k, t⟩ := m
        simp only [hasHole_object] at h
        rw [fillMembers, fillMembers, ih (k, t) List.mem_cons_self, ihms]
        · exact fun u hu hg => ih u (List.mem_cons_of_mem _ hu) hg
        · intro g hg
          obtain ⟨u, hu, hug⟩ := hasHole_object.mp hg
          exact h g ⟨u, List.mem_cons_of_mem _ hu, hug⟩
        · exact fun g hg => h g ⟨(k, t), List.mem_cons_self, hg⟩
    rw [fill, fill, hmembers]

/-- A template whose holes have values has data. -/
theorem exists_fill {t : Template} (h : ∀ g, t.HasHole g → ∃ d, value g.reference = .ok d) :
    ∃ d, fill value t = .ok d := by
  induction t using Template.induction with
  | hole g => exact h g (by simp)
  | scalar s => exact ⟨_, rfl⟩
  | list items ih =>
    -- every item has data, so they have data together
    have hitems : ∀ t ∈ items, ∃ d, fill value t = .ok d :=
      fun t ht => ih t ht fun g hg => h g (hasHole_list.mpr ⟨t, ht, hg⟩)
    obtain ⟨parts, hparts⟩ := exists_forall₂ hitems
    exact ⟨_, map_eq_ok.mpr ⟨_, fillItems_eq_ok.mpr ⟨parts, hparts, rfl⟩, rfl⟩⟩
  | object members ih =>
    have hmembers : ∀ m ∈ members, ∃ d : String × Data, d.1 = m.1 ∧ fill value m.2 = .ok d.2 := by
      intro m hm
      obtain ⟨d, hd⟩ := ih m hm fun g hg => h g (hasHole_object.mpr ⟨m, hm, hg⟩)
      exact ⟨(m.1, d), rfl, hd⟩
    obtain ⟨parts, hparts⟩ := exists_forall₂ hmembers
    exact ⟨_, map_eq_ok.mpr ⟨parts, fillMembers_eq_ok.mpr hparts, rfl⟩⟩

end DesignTokens.Template
