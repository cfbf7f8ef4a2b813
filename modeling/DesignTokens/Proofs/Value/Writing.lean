import DesignTokens.Proofs.Value.Filling

/-!
# Writing templates

A template is written with its references as texts.  Where no hole stands nothing is left to fill,
so the data of a solid template is what is written.
-/

namespace DesignTokens

open Outcome

/-- A hole whose text is at the origin. -/
def Hole.atOrigin (h : Hole) : Hole := { h with span := .origin }

namespace Template

/-! ## Templates as data -/

mutual

/-- A template as data, its references as texts. -/
def written : Template → Data
  | .hole h => .text h.reference.text
  | .scalar s => .scalar s
  | .list items => .list (writtenItems items)
  | .object members => .object (writtenMembers members)

def writtenItems : List Template → List Data
  | [] => []
  | t :: ts => t.written :: writtenItems ts

def writtenMembers : List (String × Template) → Members Data
  | [] => []
  | (k, t) :: ms => (k, t.written) :: writtenMembers ms

end

theorem writtenItems_eq_map (items : List Template) : writtenItems items = items.map written := by
  induction items with
  | nil => rfl
  | cons t ts ih => rw [writtenItems, ih, List.map_cons]

theorem writtenMembers_eq_map (members : List (String × Template)) :
    writtenMembers members = members.map fun m => (m.1, m.2.written) := by
  induction members with
  | nil => rfl
  | cons m ms ih =>
    obtain ⟨k, t⟩ := m
    rw [writtenMembers, ih, List.map_cons]

@[simp] theorem written_hole (h : Hole) : (hole h).written = .text h.reference.text := by
  rw [written]

@[simp] theorem written_scalar (s : Scalar) : (scalar s).written = .scalar s := by
  rw [written]

@[simp] theorem written_list (items : List Template) :
    (list items).written = .list (items.map written) := by
  rw [written, writtenItems_eq_map]

@[simp] theorem written_object (members : List (String × Template)) :
    (object members).written = .object (members.map fun m => (m.1, m.2.written)) := by
  rw [written, writtenMembers_eq_map]

/-! ## Templates without places -/

mutual

/-- A template with all its holes at the origin. -/
def atOrigin : Template → Template
  | .hole h => .hole h.atOrigin
  | .scalar s => .scalar s
  | .list items => .list (atOriginItems items)
  | .object members => .object (atOriginMembers members)

/-- Items with all holes at the origin. -/
def atOriginItems : List Template → List Template
  | [] => []
  | t :: ts => t.atOrigin :: atOriginItems ts

/-- Members with all holes at the origin. -/
def atOriginMembers : List (String × Template) → List (String × Template)
  | [] => []
  | (k, t) :: ms => (k, t.atOrigin) :: atOriginMembers ms

end

theorem atOriginItems_eq_map (items : List Template) :
    atOriginItems items = items.map atOrigin := by
  induction items with
  | nil => rfl
  | cons t ts ih => rw [atOriginItems, ih, List.map_cons]

theorem atOriginMembers_eq_map (members : List (String × Template)) :
    atOriginMembers members = members.map fun m => (m.1, m.2.atOrigin) := by
  induction members with
  | nil => rfl
  | cons m ms ih =>
    obtain ⟨k, t⟩ := m
    rw [atOriginMembers, ih, List.map_cons]

@[simp] theorem atOrigin_hole (h : Hole) : (hole h).atOrigin = .hole h.atOrigin := by
  rw [atOrigin]

@[simp] theorem atOrigin_scalar (s : Scalar) : (scalar s).atOrigin = .scalar s := by
  rw [atOrigin]

@[simp] theorem atOrigin_list (items : List Template) :
    (list items).atOrigin = .list (items.map atOrigin) := by
  rw [atOrigin, atOriginItems_eq_map]

@[simp] theorem atOrigin_object (members : List (String × Template)) :
    (object members).atOrigin = .object (members.map fun m => (m.1, m.2.atOrigin)) := by
  rw [atOrigin, atOriginMembers_eq_map]

@[simp] theorem atOrigin_atOrigin (t : Template) : t.atOrigin.atOrigin = t.atOrigin := by
  induction t using Template.induction with
  | hole h => rfl
  | scalar s => rfl
  | list items ih =>
    rw [atOrigin_list, atOrigin_list, List.map_map]
    exact congrArg list (List.map_congr_left ih)
  | object members ih =>
    rw [atOrigin_object, atOrigin_object, List.map_map]
    exact congrArg object (List.map_congr_left fun m hm => congrArg (m.1, ·) (ih m hm))

/-! ## Solid templates -/

@[simp] theorem not_solid_hole (h : Hole) : ¬ (hole h).Solid :=
  fun hs => hs h (by simp)

@[simp] theorem solid_scalar (s : Scalar) : (scalar s).Solid :=
  fun h => by simp

@[simp] theorem solid_list {items : List Template} :
    (list items).Solid ↔ ∀ t ∈ items, t.Solid := by
  simp only [Solid, hasHole_list, not_exists, not_and]
  exact ⟨fun hs t ht h => hs h t ht, fun hs h t ht => hs t ht h⟩

@[simp] theorem solid_object {members : List (String × Template)} :
    (object members).Solid ↔ ∀ m ∈ members, m.2.Solid := by
  simp only [Solid, hasHole_object, not_exists, not_and]
  exact ⟨fun hs m hm h => hs h m hm, fun hs h m hm => hs m hm h⟩

/-- A solid template has no places. -/
theorem atOrigin_of_solid {t : Template} (ht : t.Solid) : t.atOrigin = t := by
  induction t using Template.induction with
  | hole h => exact absurd ht (not_solid_hole h)
  | scalar s => simp
  | list items ih =>
    rw [solid_list] at ht
    rw [atOrigin_list, List.map_congr_left fun t h => ih t h (ht t h), List.map_id']
  | object members ih =>
    rw [solid_object] at ht
    have hsame : ∀ m ∈ members, (m.1, m.2.atOrigin) = m := fun m hm => by rw [ih m hm (ht m hm)]
    rw [atOrigin_object, List.map_congr_left hsame, List.map_id']

theorem contribution_of_solid {t : Template} (ht : t.Solid) (d : Data) :
    contribution t d = [d] := by
  cases t with
  | hole h => exact absurd ht (not_solid_hole h)
  | _ => rfl

/-- The data of a solid template is what is written, whatever values references have. -/
theorem fill_of_solid {value : Reference → Except Fault Data} {t : Template} (ht : t.Solid) :
    fill value t = .ok t.written := by
  induction t using Template.induction with
  | hole h => exact absurd ht (not_solid_hole h)
  | scalar s => rw [fill, written]
  | list items ih =>
    rw [solid_list] at ht
    have hitems : fillItems value items = .ok (items.map written) := by
      induction items with
      | nil => rfl
      | cons t ts ihts =>
        -- no item is a hole, so each adds its own data
        have hrest := ihts (fun u hu => ih u (List.mem_cons_of_mem _ hu))
          fun u hu => ht u (List.mem_cons_of_mem _ hu)
        rw [fillItems_cons, ih t List.mem_cons_self (ht t List.mem_cons_self), hrest]
        simp [bind, Except.bind, pure, Except.pure,
          contribution_of_solid (ht t List.mem_cons_self)]
    rw [fill, hitems, written_list]
    rfl
  | object members ih =>
    rw [solid_object] at ht
    have hmembers : fillMembers value members = .ok (members.map fun m => (m.1, m.2.written)) := by
      rw [fillMembers_eq_ok, List.forall₂_map_right_iff, List.forall₂_same]
      exact fun m hm => ⟨rfl, ih m hm (ht m hm)⟩
    rw [fill, hmembers, written_object]
    rfl

/-- The holes of a template at the origin are its holes at the origin. -/
theorem holes_atOrigin (t : Template) :
    t.atOrigin.holes = t.holes.map fun p => (p.1, p.2.atOrigin) := by
  induction t using Template.induction with
  | hole h => simp [holes]
  | scalar s => simp [holes]
  | list items ih =>
    -- the positions do not change
    have hitems : ∀ n, holesOfItems n (items.map atOrigin) =
        (holesOfItems n items).map fun p => (p.1, p.2.atOrigin) := by
      induction items with
      | nil => intro n; rfl
      | cons t ts ihts =>
        intro n
        rw [List.map_cons, holesOfItems, holesOfItems, ih t List.mem_cons_self,
          ihts fun u hu => ih u (List.mem_cons_of_mem _ hu)]
        simp
    rw [atOrigin_list, holes, holes, hitems]
  | object members ih =>
    have hmembers : holesOfMembers (members.map fun m => (m.1, m.2.atOrigin)) =
        (holesOfMembers members).map fun p => (p.1, p.2.atOrigin) := by
      induction members with
      | nil => rfl
      | cons m ms ihms =>
        obtain ⟨k, t⟩ := m
        rw [List.map_cons, holesOfMembers, holesOfMembers, ih (k, t) List.mem_cons_self,
          ihms fun u hu => ih u (List.mem_cons_of_mem _ hu)]
        simp
    rw [atOrigin_object, holes, holes, hmembers]

/-- Where the holes are does not matter for the tree of the references. -/
theorem references?_atOrigin (t : Template) : t.atOrigin.references? = t.references? := by
  induction t using Template.induction with
  | hole h => rfl
  | scalar s => rfl
  | list items ih =>
    have hitems : ∀ n, itemReferences n (items.map atOrigin) = itemReferences n items := by
      induction items with
      | nil => intro n; rfl
      | cons t ts ihts =>
        intro n
        rw [List.map_cons, itemReferences, itemReferences, ih t List.mem_cons_self,
          ihts fun u hu => ih u (List.mem_cons_of_mem _ hu)]
    rw [atOrigin_list, references?, references?, hitems]
  | object members ih =>
    have hmembers : memberReferences (members.map fun m => (m.1, m.2.atOrigin)) =
        memberReferences members := by
      induction members with
      | nil => rfl
      | cons m ms ihms =>
        obtain ⟨k, t⟩ := m
        rw [List.map_cons, memberReferences, memberReferences, ih (k, t) List.mem_cons_self,
          ihms fun u hu => ih u (List.mem_cons_of_mem _ hu)]
    rw [atOrigin_object, references?, references?, hmembers]

/-- Where the holes are does not matter for the data of a template. -/
theorem fill_atOrigin (value : Reference → Except Fault Data) (t : Template) :
    fill value t.atOrigin = fill value t := by
  induction t using Template.induction with
  | hole h => rfl
  | scalar s => rfl
  | list items ih =>
    -- whether a hole is spliced has nothing to do with its place
    have hcontribution : ∀ (t : Template) (d : Data),
        contribution t.atOrigin d = contribution t d := by
      intro t d
      cases t <;> simp [contribution, Hole.atOrigin]
    have hitems : fillItems value (items.map atOrigin) = fillItems value items := by
      induction items with
      | nil => rfl
      | cons t ts ihts =>
        rw [List.map_cons, fillItems_cons, fillItems_cons, ih t List.mem_cons_self,
          ihts fun u hu => ih u (List.mem_cons_of_mem _ hu)]
        simp only [hcontribution]
    rw [atOrigin_list, fill, fill, hitems]
  | object members ih =>
    have hmembers : fillMembers value (members.map fun m => (m.1, m.2.atOrigin)) =
        fillMembers value members := by
      induction members with
      | nil => rfl
      | cons m ms ihms =>
        obtain ⟨k, t⟩ := m
        rw [List.map_cons, fillMembers, fillMembers, ih (k, t) List.mem_cons_self,
          ihms fun u hu => ih u (List.mem_cons_of_mem _ hu)]
    rw [atOrigin_object, fill, fill, hmembers]

end Template

end DesignTokens
