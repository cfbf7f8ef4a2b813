import DesignTokens.Output.Fragment
import DesignTokens.Proofs.Members

/-!
# The store of fragments

The key of a fragment is everything but its text.  The store has every key once, in the order in
which the keys were first set, and each with the text that was set last; so a store is known from
its keys and their texts (`Fragments.ext`).
-/

namespace DesignTokens.Output

/-! ## Keys -/

/-- Everything about a fragment but its text. -/
def Fragment.key (f : Fragment) : Fragment := { f with value := "" }

theorem Fragment.eq_of_key {f g : Fragment} (hkey : f.key = g.key) (hvalue : f.value = g.value) :
    f = g := by
  cases f
  cases g
  simp_all [Fragment.key]

theorem Fragment.sameKey_iff {f g : Fragment} : f.sameKey g = true ↔ f.key = g.key := by
  cases f
  cases g
  simp [Fragment.sameKey, Fragment.key]

namespace Fragments

/-- The keys of a store in order. -/
def keys (store : Fragments) : List Fragment := store.map Fragment.key

/-- The text of a key. -/
def textOf? (k : Fragment) (store : Fragments) : Option String :=
  (store.find? (·.key = k)).map Fragment.value

@[simp] theorem keys_cons (f : Fragment) (store : Fragments) :
    keys (f :: store) = f.key :: keys store := rfl

theorem textOf?_cons (k f : Fragment) (store : Fragments) :
    textOf? k (f :: store) = if f.key = k then some f.value else textOf? k store := by
  by_cases h : f.key = k <;> simp [textOf?, h]

theorem textOf?_append (k : Fragment) (a b : Fragments) :
    textOf? k (a ++ b) = (textOf? k a).or (textOf? k b) := by
  induction a with
  | nil => rfl
  | cons f a ih =>
    rw [List.cons_append, textOf?_cons, textOf?_cons, ih]
    split <;> rfl

theorem textOf?_eq_none_iff {k : Fragment} {store : Fragments} :
    textOf? k store = none ↔ k ∉ keys store := by
  simp [textOf?, keys]

/-- Stores with the same keys and the same texts are the same. -/
theorem ext {a b : Fragments} (hnodup : (keys a).Nodup) (hkeys : keys a = keys b)
    (htext : ∀ k, textOf? k a = textOf? k b) : a = b := by
  induction a generalizing b with
  | nil => simpa [keys, eq_comm] using hkeys
  | cons f a ih =>
    cases b with
    | nil => simp [keys] at hkeys
    | cons g b =>
      rw [keys_cons, keys_cons, List.cons.injEq] at hkeys
      obtain ⟨hkey, hkeys⟩ := hkeys
      rw [keys_cons, List.nodup_cons] at hnodup
      have hfirst := htext f.key
      rw [textOf?_cons, textOf?_cons, if_pos rfl, if_pos hkey.symm, Option.some.injEq] at hfirst
      refine congrArg₂ _ (Fragment.eq_of_key hkey hfirst) (ih hnodup.2 hkeys fun k => ?_)
      -- the first key is not among those that are left
      by_cases hk : f.key = k
      · rw [textOf?_eq_none_iff.mpr (hk ▸ hnodup.1),
          textOf?_eq_none_iff.mpr (hkeys ▸ hk ▸ hnodup.1)]
      · have hrest := htext k
        rwa [textOf?_cons, textOf?_cons, if_neg hk, if_neg (hkey ▸ hk)] at hrest

/-! ## Setting one fragment -/

theorem keys_set (f : Fragment) (store : Fragments) :
    keys (store.set f) = if f.key ∈ keys store then keys store else keys store ++ [f.key] := by
  induction store with
  | nil => simp [set, keys]
  | cons g store ih =>
    unfold set
    split
    · rename_i hsame
      have hkey := Fragment.sameKey_iff.mp hsame
      simp [hkey]
    · rename_i hother
      have hkey : ¬ f.key = g.key := fun h => hother (Fragment.sameKey_iff.mpr h.symm)
      simp only [keys_cons, ih, List.mem_cons, hkey, false_or]
      split <;> simp

/-- A key has the text that was set last. -/
theorem textOf?_set (k f : Fragment) (store : Fragments) :
    textOf? k (store.set f) = if f.key = k then some f.value else textOf? k store := by
  induction store with
  | nil => simp [set, textOf?_cons]
  | cons g store ih =>
    unfold set
    split
    · rename_i hsame
      have hkey := Fragment.sameKey_iff.mp hsame
      simp only [textOf?_cons, hkey]
      split <;> rfl
    · rename_i hother
      have hkey : ¬ g.key = f.key := fun h => hother (Fragment.sameKey_iff.mpr h)
      simp only [textOf?_cons, ih]
      by_cases hg : g.key = k
      · simp [hg, show ¬ f.key = k from fun h => hkey (hg.trans h.symm)]
      · simp [hg]

/-- A fragment with a new key goes to the end. -/
theorem set_of_not_mem {f : Fragment} {store : Fragments} (h : f.key ∉ keys store) :
    store.set f = store ++ [f] := by
  induction store with
  | nil => rfl
  | cons g store ih =>
    rw [keys_cons, List.mem_cons, not_or] at h
    rw [set, if_neg fun hsame => h.1 (Fragment.sameKey_iff.mp hsame).symm, ih h.2,
      List.cons_append]

theorem nodup_set {f : Fragment} {store : Fragments} (h : (keys store).Nodup) :
    (keys (store.set f)).Nodup := by
  rw [keys_set]
  split
  · exact h
  · rename_i hnew
    rw [List.nodup_append]
    refine ⟨h, List.nodup_singleton _, ?_⟩
    rintro a ha b hb rfl
    exact hnew (List.mem_singleton.mp hb ▸ ha)

/-- What is asked of keys only is asked of the fragment that is set and of the others. -/
theorem filter_set {p : Fragment → Bool} (hp : ∀ a b, a.key = b.key → p a = p b) (f : Fragment)
    (store : Fragments) :
    (store.set f).filter p = if p f then set f (store.filter p) else store.filter p := by
  induction store with
  | nil => by_cases h : p f <;> simp [set, h]
  | cons g store ih =>
    rw [set]
    by_cases hsame : g.sameKey f = true
    · have hg : p g = p f := hp _ _ (Fragment.sameKey_iff.mp hsame)
      by_cases h : p f <;> simp [hsame, h, hg, set]
    · by_cases hg : p g <;> by_cases h : p f <;> simp [hsame, hg, h, ih, set]

theorem mem_of_mem_set {f g : Fragment} {store : Fragments} (h : f ∈ store.set g) :
    f = g ∨ f ∈ store := by
  induction store with
  | nil => exact .inl (List.mem_singleton.mp h)
  | cons e store ih =>
    rw [set] at h
    split at h
    · exact (List.mem_cons.mp h).imp_right (List.mem_cons_of_mem _)
    · rcases List.mem_cons.mp h with rfl | h
      · exact .inr List.mem_cons_self
      · exact (ih h).imp_right (List.mem_cons_of_mem _)

/-! ## Setting several fragments -/

@[simp] theorem setAll_cons (f : Fragment) (fs : List Fragment) (store : Fragments) :
    setAll (f :: fs) store = setAll fs (store.set f) := rfl

theorem nodup_setAll {store : Fragments} (h : (keys store).Nodup) (fs : List Fragment) :
    (keys (setAll fs store)).Nodup := by
  induction fs generalizing store with
  | nil => exact h
  | cons f fs ih => exact ih (nodup_set h)

theorem mem_keys_setAll {fs : List Fragment} {store : Fragments} {k : Fragment} :
    k ∈ keys (setAll fs store) ↔ k ∈ keys store ∨ k ∈ fs.map Fragment.key := by
  induction fs generalizing store with
  | nil => simp [setAll]
  | cons f fs ih =>
    rw [setAll_cons, ih, keys_set, List.map_cons, List.mem_cons]
    split
    · rename_i hmem
      constructor
      · tauto
      · rintro (h | rfl | h)
        · exact .inl h
        · exact .inl hmem
        · exact .inr h
    · rw [List.mem_append, List.mem_singleton]
      tauto

theorem keys_setAll_of_mem {fs : List Fragment} {store : Fragments}
    (h : ∀ f ∈ fs, f.key ∈ keys store) : keys (setAll fs store) = keys store := by
  induction fs generalizing store with
  | nil => rfl
  | cons f fs ih =>
    have hkeys : keys (store.set f) = keys store := by
      rw [keys_set, if_pos (h f List.mem_cons_self)]
    rw [setAll_cons, ih, hkeys]
    exact fun g hg => hkeys ▸ h g (List.mem_cons_of_mem _ hg)

/-- A key has the text that was set last among those that were set. -/
theorem textOf?_setAll (k : Fragment) (fs : List Fragment) (store : Fragments) :
    textOf? k (setAll fs store) = (textOf? k fs.reverse).or (textOf? k store) := by
  induction fs generalizing store with
  | nil => rfl
  | cons f fs ih =>
    rw [setAll_cons, ih, textOf?_set, List.reverse_cons, textOf?_append, textOf?_cons,
      Option.or_assoc]
    split <;> rfl

/-- Setting the same fragments once more changes nothing. -/
theorem setAll_setAll {fs : List Fragment} {store : Fragments} (h : (keys store).Nodup) :
    setAll fs (setAll fs store) = setAll fs store := by
  have hmem : ∀ f ∈ fs, f.key ∈ keys (setAll fs store) := fun f hf =>
    mem_keys_setAll.mpr (.inr (List.mem_map_of_mem hf))
  refine ext (nodup_setAll (nodup_setAll h fs) fs) (keys_setAll_of_mem hmem) fun k => ?_
  rw [textOf?_setAll, textOf?_setAll, ← Option.or_assoc, Option.or_self]

/-- Fragments with distinct keys are all kept. -/
theorem setAll_eq_self {fs : List Fragment} (h : (keys fs).Nodup) : setAll fs [] = fs := by
  have key (fs : List Fragment) (store : Fragments) (h : (keys (store ++ fs)).Nodup) :
      setAll fs store = store ++ fs := by
    induction fs generalizing store with
    | nil => exact (List.append_nil store).symm
    | cons f fs ih =>
      have hnew : f.key ∉ keys store := by
        rw [keys, List.map_append, List.nodup_append] at h
        exact fun hmem => h.2.2 _ hmem _ List.mem_cons_self rfl
      rw [setAll_cons, set_of_not_mem hnew, ih _ (by simpa using h), List.append_assoc,
        List.singleton_append]
  exact key fs [] h

/-- What is asked of keys only is asked of the fragments before they are set. -/
theorem filter_setAll {p : Fragment → Bool} (hp : ∀ a b, a.key = b.key → p a = p b)
    (fs : List Fragment) (store : Fragments) :
    (setAll fs store).filter p = setAll (fs.filter p) (store.filter p) := by
  induction fs generalizing store with
  | nil => rfl
  | cons f fs ih =>
    rw [setAll_cons, ih, filter_set hp, List.filter_cons]
    split <;> rfl

/-- Only what was set is in a store. -/
theorem mem_of_mem_setAll {fs : List Fragment} {f : Fragment} (h : f ∈ setAll fs []) : f ∈ fs := by
  have key : ∀ (fs : List Fragment) (store : Fragments), f ∈ setAll fs store →
      f ∈ fs ∨ f ∈ store := by
    intro fs
    induction fs with
    | nil => exact fun _ h => .inr h
    | cons g fs ih =>
      intro store h
      rcases ih _ h with h | h
      · exact .inl (List.mem_cons_of_mem _ h)
      · rcases mem_of_mem_set h with rfl | h
        · exact .inl List.mem_cons_self
        · exact .inr h
  exact (key fs [] h).resolve_right List.not_mem_nil

end Fragments

end DesignTokens.Output
