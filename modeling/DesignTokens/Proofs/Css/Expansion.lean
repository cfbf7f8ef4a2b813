import DesignTokens.Proofs.Css.Declarations

/-!
# Expanding uses

Under a selector a custom property has the value that the block of the selector declares for it, or
else the value that the root block declares (`Options.cascade`).  Words are read by replacing every
use by the value of its name, again and again until no use is left; whatever the order, there is
only one text to arrive at (`Expands.unique`).
-/

namespace DesignTokens.Css

/-! ## Expansion -/

/-- The text that words become when every use is replaced by what its name stands for, until no use
is left. -/
inductive Expands (scope : String → Option (List Word)) : List Word → String → Prop where
  | nil : Expands scope [] ""
  | text (s : String) {ws : List Word} {rest : String} :
    Expands scope ws rest → Expands scope (.text s :: ws) (s ++ rest)
  /-- A use is expanded on its own. -/
  | use {name : String} {value ws : List Word} {s rest : String} :
    scope name = some value → Expands scope value s → Expands scope ws rest →
    Expands scope (.use name :: ws) (s ++ rest)

namespace Expands

variable {scope : String → Option (List Word)} {ws : List Word} {s t : String}

/-- Words expand to one text at most. -/
theorem unique (hs : Expands scope ws s) (ht : Expands scope ws t) : s = t := by
  induction hs generalizing t with
  | nil => cases ht; rfl
  | text s _ ih =>
    cases ht with
    | text _ hrest => rw [ih hrest]
  | use hvalue _ _ ihvalue ihrest =>
    cases ht with
    | use hvalue' hs hrest =>
      obtain rfl := Option.some.inj (hvalue.symm.trans hvalue')
      rw [ihvalue hs, ihrest hrest]

theorem append {us : List Word} (hs : Expands scope ws s) (ht : Expands scope us t) :
    Expands scope (ws ++ us) (s ++ t) := by
  induction hs with
  | nil => rwa [List.nil_append, String.empty_append]
  | text s _ ih =>
    rw [List.cons_append, String.append_assoc]
    exact .text s ih
  | use hvalue hs _ _ ih =>
    rw [List.cons_append, String.append_assoc]
    exact .use hvalue hs ih

theorem ofText (s : String) : Expands scope [.text s] s := by
  have h : Expands scope [.text s] (s ++ "") := .text s .nil
  rwa [String.append_empty] at h

theorem ofUse {name : String} (hvalue : scope name = some ws) (hs : Expands scope ws s) :
    Expands scope [.use name] s := by
  have h : Expands scope [.use name] (s ++ "") := .use hvalue hs .nil
  rwa [String.append_empty] at h

end Expands

/-! ## Scopes -/

/-- The value that declarations give a name; a later declaration takes precedence. -/
def valueIn (naming : Naming) (ds : List Declaration) (name : String) : Option (List Word) :=
  (ds.reverse.find? (·.name naming = name)).map (·.words naming)

/-- The value of a name under a selector for a mode: the value in the block of the mode, or else the
one in the root block. -/
def Options.cascade (o : Options) (ds : List Declaration) (mode name : String) :
    Option (List Word) :=
  (valueIn o.naming (ds.filter (o.shows mode)) name).or
    (valueIn o.naming (ds.filter (o.shows defaultMode)) name)

/-- A declared name has the value of a declaration. -/
theorem exists_valueIn (naming : Naming) {ds : List Declaration} {d : Declaration} (hd : d ∈ ds) :
    ∃ other ∈ ds, other.name naming = d.name naming ∧
      valueIn naming ds (d.name naming) = some (other.words naming) := by
  have hsome : (ds.reverse.find? (·.name naming = d.name naming)).isSome = true :=
    List.find?_isSome.mpr ⟨d, List.mem_reverse.mpr hd, decide_eq_true rfl⟩
  obtain ⟨other, hother⟩ := Option.isSome_iff_exists.mp hsome
  refine ⟨other, List.mem_reverse.mp (List.mem_of_find?_eq_some hother), ?_, ?_⟩
  · simpa using List.find?_some hother
  · rw [valueIn, hother]
    rfl

theorem valueIn_of_mem {naming : Naming} {ds : List Declaration}
    (hnodup : (ds.map (Declaration.name naming)).Nodup) {d : Declaration} (hd : d ∈ ds) :
    valueIn naming ds (d.name naming) = some (d.words naming) := by
  obtain ⟨other, hother, hname, hvalue⟩ := exists_valueIn naming hd
  rw [hvalue, List.inj_on_of_nodup_map hnodup hother hd hname]

theorem valueIn_eq_none {naming : Naming} {ds : List Declaration} {name : String}
    (h : ∀ d ∈ ds, d.name naming ≠ name) : valueIn naming ds name = none := by
  rw [valueIn, List.find?_eq_none.mpr fun d hd hname => h d (List.mem_reverse.mp hd)
    (of_decide_eq_true hname)]
  rfl

/-- No name is declared twice in the block of a mode or in the root block, and a name in both of them
is one of the same token. -/
structure Options.Unambiguous (o : Options) (ds : List Declaration) (mode : String) : Prop where
  own : ((ds.filter (o.shows mode)).map (Declaration.name o.naming)).Nodup
  root : ((ds.filter (o.shows defaultMode)).map (Declaration.name o.naming)).Nodup
  across : ∀ d ∈ ds, ∀ other ∈ ds, o.shows mode d = true → o.shows defaultMode other = true →
    d.name o.naming = other.name o.naming → d.token = other.token

instance (o : Options) (ds : List Declaration) (mode : String) :
    Decidable (o.Unambiguous ds mode) :=
  decidable_of_iff
    (((ds.filter (o.shows mode)).map (Declaration.name o.naming)).Nodup ∧
      ((ds.filter (o.shows defaultMode)).map (Declaration.name o.naming)).Nodup ∧
      ∀ d ∈ ds, ∀ other ∈ ds, o.shows mode d = true → o.shows defaultMode other = true →
        d.name o.naming = other.name o.naming → d.token = other.token)
    ⟨fun ⟨hown, hroot, hacross⟩ => ⟨hown, hroot, hacross⟩, fun ⟨hown, hroot, hacross⟩ =>
      ⟨hown, hroot, hacross⟩⟩

section

variable {o : Options} {ds : List Declaration} {mode : String} (h : o.Unambiguous ds mode)
  {d : Declaration} (hd : d ∈ ds)

include h hd

theorem cascade_own (hshows : o.shows mode d = true) :
    o.cascade ds mode (d.name o.naming) = some (d.words o.naming) := by
  rw [Options.cascade, valueIn_of_mem h.own (List.mem_filter.mpr ⟨hd, hshows⟩), Option.some_or]

/-- What the root block declares is seen under a selector when the token has no value of its own
there. -/
theorem cascade_root (hshows : o.shows defaultMode d = true)
    (hnone : ∀ other ∈ ds, o.shows mode other = true → other.token ≠ d.token) :
    o.cascade ds mode (d.name o.naming) = some (d.words o.naming) := by
  have hown : valueIn o.naming (ds.filter (o.shows mode)) (d.name o.naming) = none := by
    refine valueIn_eq_none fun other hother hname => ?_
    obtain ⟨hother, hshows'⟩ := List.mem_filter.mp hother
    exact hnone other hother hshows' (h.across other hother d hd hshows' hshows hname)
  rw [Options.cascade, hown, valueIn_of_mem h.root (List.mem_filter.mpr ⟨hd, hshows⟩),
    Option.none_or]

end

end DesignTokens.Css
