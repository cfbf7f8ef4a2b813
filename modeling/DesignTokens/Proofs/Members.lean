import DesignTokens.Data
import Mathlib.Data.List.Nodup

/-!
# Members with distinct names

In a list whose names are distinct a member is found by its name, and what is found by a name is a
member.
-/

namespace DesignTokens

/-- In a list without repeated keys an item is found by its key. -/
theorem find?_key_eq_some_iff {α κ : Type} [DecidableEq κ] {key : α → κ} {xs : List α}
    (h : (xs.map key).Nodup) {k : κ} {x : α} :
    xs.find? (fun y => key y = k) = some x ↔ x ∈ xs ∧ key x = k := by
  constructor
  · intro hx
    exact ⟨List.mem_of_find?_eq_some hx, by simpa using List.find?_some hx⟩
  · rintro ⟨hx, rfl⟩
    obtain ⟨y, hy⟩ := Option.isSome_iff_exists.mp
      (List.find?_isSome.mpr ⟨x, hx, decide_eq_true rfl⟩ :
        (xs.find? fun y => decide (key y = key x)).isSome = true)
    have hkey : key y = key x := by simpa using List.find?_some hy
    rw [hy, List.inj_on_of_nodup_map h (List.mem_of_find?_eq_some hy) hx hkey]

theorem find?_key_eq_none_iff {α κ : Type} [DecidableEq κ] {key : α → κ} {xs : List α} {k : κ} :
    xs.find? (fun y => key y = k) = none ↔ ∀ x ∈ xs, key x ≠ k := by
  simp

namespace Members

variable {α β : Type}

theorem get?_eq_find? (name : String) (m : Members α) :
    get? name m = (m.find? fun p => p.1 = name).map Prod.snd := by
  induction m with
  | nil => rfl
  | cons p rest ih =>
    by_cases h : p.1 = name <;> simp [get?, h, ih]

/-- In members with distinct names the value of a name is the one that stands with it. -/
theorem get?_eq_some_iff {m : Members α} (h : m.names.Nodup) {name : String} {a : α} :
    get? name m = some a ↔ (name, a) ∈ m := by
  rw [get?_eq_find?, Option.map_eq_some_iff]
  constructor
  · rintro ⟨p, hp, rfl⟩
    obtain ⟨hmem, rfl⟩ := (find?_key_eq_some_iff h).mp hp
    exact hmem
  · intro hmem
    exact ⟨(name, a), (find?_key_eq_some_iff h).mpr ⟨hmem, rfl⟩, rfl⟩

theorem has_iff {m : Members α} {name : String} : has name m = true ↔ name ∈ m.names := by
  simp [has, get?_eq_find?, names, List.find?_isSome]

theorem get?_eq_none_iff {m : Members α} {name : String} :
    get? name m = none ↔ name ∉ m.names := by
  rw [get?_eq_find?, Option.map_eq_none_iff, find?_key_eq_none_iff, names, List.mem_map]
  push Not
  rfl

theorem mem_of_get? {m : Members α} {name : String} {a : α} (h : get? name m = some a) :
    (name, a) ∈ m := by
  rw [get?_eq_find?, Option.map_eq_some_iff] at h
  obtain ⟨p, hp, rfl⟩ := h
  have hname : p.1 = name := by simpa using List.find?_some hp
  rw [← hname]
  exact List.mem_of_find?_eq_some hp

theorem get?_map (f : α → β) (name : String) (m : Members α) :
    get? name (m.map fun p => (p.1, f p.2)) = (get? name m).map f := by
  induction m with
  | nil => rfl
  | cons p rest ih =>
    by_cases h : p.1 = name <;> simp [get?, h, ih]

theorem get?_append (name : String) (a b : Members α) :
    get? name (a ++ b) = (get? name a).or (get? name b) := by
  induction a with
  | nil => rfl
  | cons m a ih =>
    obtain ⟨k, v⟩ := m
    rw [List.cons_append, get?, get?, ih]
    split <;> rfl

theorem names_eq_of_forall₂ {R : String × α → String × β → Prop} {as : Members α} {bs : Members β}
    (h : List.Forall₂ R as bs) (hname : ∀ a b, R a b → b.1 = a.1) : bs.names = as.names := by
  induction h with
  | nil => rfl
  | cons hab _ ih =>
    rw [names] at ih ⊢
    rw [List.map_cons, hname _ _ hab, ih, names, names, List.map_cons]

/-- With distinct names the name of a member is not that of a member before it or after it, and no
member before it has the name of one after it. -/
theorem nodup_around {before after : Members α} {name : String} {a : α}
    (h : (before ++ (name, a) :: after : Members α).names.Nodup) :
    before.names.Nodup ∧ after.names.Nodup ∧ name ∉ before.names ∧ name ∉ after.names ∧
      ∀ n ∈ before.names, n ∉ after.names := by
  rw [names, List.map_append, List.map_cons, List.nodup_append, List.nodup_cons] at h
  obtain ⟨hbefore, ⟨hnot_after, hafter⟩, hapart⟩ := h
  refine ⟨hbefore, hafter, fun hmem => ?_, hnot_after, fun n hn hmem => ?_⟩
  · exact hapart name hmem name List.mem_cons_self rfl
  · exact hapart n hn n (List.mem_cons_of_mem _ hmem) rfl

theorem set_of_not_mem {name : String} {a : α} {m : Members α} (h : name ∉ m.names) :
    set name a m = m ++ [(name, a)] := by
  induction m with
  | nil => rfl
  | cons p rest ih =>
    rw [names, List.map_cons, List.mem_cons, not_or] at h
    rw [set, if_neg (Ne.symm h.1), ih h.2, List.cons_append]

theorem names_modify (name : String) (f : α → α) (m : Members α) :
    (modify name f m).names = m.names := by
  induction m with
  | nil => rfl
  | cons p rest ih =>
    rw [names] at ih ⊢
    rw [modify, names, List.map_cons]
    split
    · rfl
    · rw [List.map_cons, ih, names]

/-- With distinct names all members but one stay as they are. -/
theorem modify_eq_map {name : String} {f : α → α} {m : Members α} (h : m.names.Nodup) :
    modify name f m = m.map fun p => (p.1, if p.1 = name then f p.2 else p.2) := by
  induction m with
  | nil => rfl
  | cons p rest ih =>
    obtain ⟨hnew, hrest⟩ := List.nodup_cons.mp h
    rw [modify, List.map_cons]
    split
    · rename_i hname
      -- the name does not come again
      have hsame : ∀ q ∈ rest, (q.1, if q.1 = name then f q.2 else q.2) = q := by
        intro q hq
        have hne : q.1 ≠ name := fun heq => hnew (hname ▸ heq ▸ List.mem_map_of_mem hq)
        rw [if_neg hne]
      rw [List.map_congr_left hsame, List.map_id', hname]
    · rw [ih hrest]

/-- Pairs with distinct names are the members that they make. -/
theorem ofPairs_eq_self {pairs : Members α} (h : pairs.names.Nodup) : ofPairs pairs = pairs := by
  have hfold (done rest : Members α) (hnodup : (done ++ rest).names.Nodup) :
      rest.foldl (fun m p => set p.1 p.2 m) done = done ++ rest := by
    induction rest generalizing done with
    | nil => rw [List.foldl_nil, List.append_nil]
    | cons p rest ih =>
      obtain ⟨-, -, hnew, -⟩ := nodup_around hnodup
      rw [List.foldl_cons, set_of_not_mem hnew, ih, List.append_assoc, List.singleton_append]
      rwa [List.append_assoc, List.singleton_append]
  exact hfold [] pairs h

/-- A member that need not be there. -/
def optional (name : String) (a : Option α) : Members α :=
  (a.map fun a => (name, a)).toList

@[simp] theorem get?_optional (name other : String) (a : Option α) :
    get? other (optional name a) = if name = other then a else none := by
  cases a <;> simp [optional, get?]

end Members

end DesignTokens
