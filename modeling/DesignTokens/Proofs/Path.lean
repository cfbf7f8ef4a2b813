import DesignTokens.Draft.Discovery
import DesignTokens.Proofs.Text
import Mathlib.Data.List.Induction

/-!
# Names on a path

A name has no point in it, so the path of a member has the names of the path before it, and then
its own.  A path can be told from its names, and its names from it.
-/

namespace DesignTokens

namespace Path

/-- The names of the path of a group; the top of a document has none. -/
def namesOf : Option String → List String
  | none => []
  | some path => names path

/-- The path of a member goes on with the name of the member. -/
theorem names_below {name : String} (h : Discovery.isName name = true) (parent : Option String) :
    names (below parent name) = namesOf parent ++ [name] := by
  have hpoint : '.' ∉ name.toList := by
    intro hmem
    simp only [Discovery.isName, Bool.and_eq_true, Bool.not_eq_true', List.any_eq_false] at h
    exact h.2 _ hmem (by simp [Discovery.isForbidden])
  have hname : Text.parts '.' name.toList = [name.toList] := Text.parts_of_not_mem hpoint
  cases parent with
  | none => simp [names, below, namesOf, hname]
  | some path =>
    have htext : (path ++ "." ++ name).toList = path.toList ++ '.' :: name.toList := by
      simp [String.toList_append]
    simp [names, below, namesOf, htext, Text.parts_append, hname]

/-- What goes on from the path of a member goes on from the path around it with the name first. -/
theorem namesOf_below_append {name : String} (h : Discovery.isName name = true)
    (parent : Option String) (rest : List String) :
    namesOf (some (below parent name)) ++ rest = namesOf parent ++ name :: rest := by
  rw [namesOf, names_below h, List.append_assoc, List.singleton_append]

/-- A path is its names with points between them. -/
theorem intercalate_names (path : String) : ".".intercalate (names path) = path := by
  have hparts : (names path).map String.toList = Text.parts '.' path.toList := by
    rw [names, List.map_map]
    simp [Function.comp_def]
  rw [← String.toList_inj, String.toList_intercalate, hparts]
  exact Text.intercalate_parts '.' path.toList

theorem names_ne_nil (path : String) : names path ≠ [] := by
  simp [names, Text.parts_ne_nil]

theorem names_injective : Function.Injective names := by
  intro a b h
  rw [← intercalate_names a, h, intercalate_names]

/-! ## Paths of names -/

/-- The path of names; without a name there is none. -/
def ofNames : List String → Option String
  | [] => none
  | name :: names => some (".".intercalate (name :: names))

theorem ofNames_eq_some {names : List String} (h : names ≠ []) :
    ofNames names = some (".".intercalate names) := by
  cases names with
  | nil => exact absurd rfl h
  | cons name names => rfl

/-- The path of a member goes on with its name. -/
theorem below_ofNames (names : List String) (name : String) :
    below (ofNames names) name = ".".intercalate (names ++ [name]) := by
  cases names with
  | nil => simp [ofNames, below]
  | cons first rest =>
    rw [ofNames, below]
    induction rest generalizing first with
    | nil => simp [String.intercalate_cons_cons]
    | cons second rest ih =>
      rw [String.intercalate_cons_cons, List.cons_append, List.cons_append,
        String.intercalate_cons_cons, ← List.cons_append, ← ih]
      simp only [String.append_assoc]

theorem some_below_ofNames (names : List String) (name : String) :
    some (below (ofNames names) name) = ofNames (names ++ [name]) := by
  rw [below_ofNames, ofNames_eq_some (by simp)]

/-- The names of a path are those that it was made of. -/
theorem namesOf_ofNames {names : List String} (h : ∀ n ∈ names, Discovery.isName n = true) :
    namesOf (ofNames names) = names := by
  induction names using List.reverseRecOn with
  | nil => rfl
  | append_singleton names name ih =>
    obtain ⟨hnames, hname⟩ := List.forall_mem_append.mp h
    rw [← some_below_ofNames, namesOf, names_below (hname name List.mem_cons_self), ih hnames]

theorem names_intercalate {names : List String} (hne : names ≠ [])
    (h : ∀ n ∈ names, Discovery.isName n = true) : Path.names (".".intercalate names) = names := by
  have hnames := namesOf_ofNames h
  rwa [ofNames_eq_some hne, namesOf] at hnames

/-- Names make a path when they are the names of the path. -/
theorem ofNames_eq_some_iff {names : List String} (h : ∀ n ∈ names, Discovery.isName n = true)
    {path : String} : ofNames names = some path ↔ names = Path.names path := by
  constructor
  · intro hpath
    rw [← namesOf_ofNames h, hpath, namesOf]
  · rintro rfl
    rw [ofNames_eq_some (names_ne_nil path), intercalate_names]

/-! ## Paths below paths -/

/-- A path is somewhere below another one when its names go on after those of the other. -/
def Beneath (path above : String) : Prop :=
  ∃ rest, rest ≠ [] ∧ names path = names above ++ rest

/-- A path is below another one when the names around it start with those of the other. -/
theorem beneath_iff {path above : String} :
    Beneath path above ↔ names above <+: (names path).dropLast := by
  constructor
  · rintro ⟨rest, hne, hrest⟩
    rw [hrest, List.dropLast_append_of_ne_nil hne]
    exact List.prefix_append _ _
  · rintro ⟨rest, hrest⟩
    refine ⟨rest ++ [(names path).getLast (names_ne_nil path)], by simp, ?_⟩
    rw [← List.append_assoc, hrest, List.dropLast_concat_getLast]

instance (path above : String) : Decidable (Beneath path above) := decidable_of_iff _ beneath_iff.symm

theorem Beneath.names_start {path above : String} (h : Beneath path above) :
    names above <+: names path :=
  (beneath_iff.mp h).trans <| List.dropLast_prefix _

theorem Beneath.trans {a b c : String} (h : Beneath a b) (h' : Beneath b c) : Beneath a c :=
  beneath_iff.mpr (h'.names_start.trans (beneath_iff.mp h))

end Path

end DesignTokens
