import DesignTokens.Proofs.Members
import DesignTokens.Proofs.Outcome
import Mathlib.Data.List.Perm.Basic

/-!
# Lists that correspond in some order

Two lists match when the items of the one can be put in an order in which they correspond to the
items of the other.  What is found by a key does not depend on the order, and neither does the
success of a list of computations.
-/

namespace DesignTokens

open Outcome

/-- The items of one list correspond to those of another one in some order. -/
def Matched {α β : Type} (R : α → β → Prop) (xs : List α) (ys : List β) : Prop :=
  ∃ zs, List.Forall₂ R xs zs ∧ zs.Perm ys

/-- Values that correspond to each other, under the same key. -/
inductive Keyed {κ α β : Type} (R : α → β → Prop) : κ × α → κ × β → Prop where
  /-- The key is the same. -/
  | intro (k : κ) {a : α} {b : β} : R a b → Keyed R (k, a) (k, b)

section

variable {ε κ α β γ δ : Type} {R : α → β → Prop} {S : γ → δ → Prop} {xs : List α} {ys : List β}

/-- What corresponds item by item to corresponding lists corresponds as well. -/
theorem forall₂_square {P : α → γ → Prop} {Q : β → δ → Prop} (h : List.Forall₂ R xs ys)
    {as : List γ} {bs : List δ} (has : List.Forall₂ P xs as) (hbs : List.Forall₂ Q ys bs)
    (hS : ∀ x ∈ xs, ∀ y a b, R x y → P x a → Q y b → S a b) : List.Forall₂ S as bs := by
  induction h generalizing as bs with
  | nil =>
    cases has
    cases hbs
    exact .nil
  | @cons x y xs ys hxy _ ih =>
    cases has with
    | cons ha has =>
      cases hbs with
      | cons hb hbs =>
        exact .cons (hS x List.mem_cons_self _ _ _ hxy ha hb)
          (ih has hbs fun z hz => hS z (List.mem_cons_of_mem _ hz))

/-- When the one computation succeeds the other one does, with an answer that corresponds. -/
def CarriesOver (R : α → β → Prop) (x : Except ε α) (y : Except ε β) : Prop :=
  ∀ a, x = .ok a → ∃ b, y = .ok b ∧ R a b

namespace CarriesOver

theorem ok {a : α} {b : β} (h : R a b) : CarriesOver R (.ok a : Except ε α) (.ok b) := by
  intro a' ha
  obtain rfl := Except.ok.inj ha
  exact ⟨b, rfl, h⟩

theorem error {e : ε} {y : Except ε β} : CarriesOver R (.error e) y := by
  intro a ha
  cases ha

theorem bind {x : Except ε α} {y : Except ε β} {f : α → Except ε γ} {g : β → Except ε δ}
    (h : CarriesOver R x y) (hfg : ∀ a b, R a b → CarriesOver S (f a) (g b)) :
    CarriesOver S (x >>= f) (y >>= g) := by
  intro c hc
  obtain ⟨a, ha, hc⟩ := bind_eq_ok.mp hc
  obtain ⟨b, hb, hab⟩ := h a ha
  obtain ⟨d, hd, hcd⟩ := hfg a b hab c hc
  exact ⟨d, bind_eq_ok.mpr ⟨b, hb, hd⟩, hcd⟩

/-- After one and the same computation both go on from its answer. -/
theorem same_bind {x : Except ε α} {f : α → Except ε γ} {g : α → Except ε δ}
    (h : ∀ a, CarriesOver S (f a) (g a)) : CarriesOver S (x >>= f) (x >>= g) := by
  cases x with
  | error e => exact .error
  | ok a => exact h a

theorem imp {T : α → β → Prop} {x : Except ε α} {y : Except ε β} (h : CarriesOver R x y)
    (hRT : ∀ a b, R a b → T a b) : CarriesOver T x y := by
  intro a ha
  obtain ⟨b, hb, hab⟩ := h a ha
  exact ⟨b, hb, hRT a b hab⟩

theorem map {x : Except ε α} {y : Except ε β} {f : α → γ} {g : β → δ} (h : CarriesOver R x y)
    (hfg : ∀ a b, R a b → S (f a) (g b)) : CarriesOver S (x.map f) (y.map g) := by
  intro c hc
  obtain ⟨a, ha, rfl⟩ := exceptMap_eq_ok.mp hc
  obtain ⟨b, hb, hab⟩ := h a ha
  exact ⟨g b, exceptMap_eq_ok.mpr ⟨b, hb, rfl⟩, hfg a b hab⟩

/-- Computations for items that correspond have answers that correspond, one by one. -/
theorem mapM {f : α → Except ε γ} {g : β → Except ε δ} (h : List.Forall₂ R xs ys)
    (hfg : ∀ x y, R x y → CarriesOver S (f x) (g y)) :
    CarriesOver (List.Forall₂ S) (xs.mapM f) (ys.mapM g) := by
  induction h with
  | nil => exact .ok .nil
  | cons hxy _ ih =>
    rw [List.mapM_cons, List.mapM_cons]
    exact .bind (hfg _ _ hxy) fun _ _ hab => .bind ih fun _ _ hrest => .ok (.cons hab hrest)

end CarriesOver

/-- Two answers correspond when there is none to both questions, or one to each. -/
theorem rel_iff {a : Option α} {b : Option β} :
    Option.Rel R a b ↔ (a = none ∧ b = none) ∨ ∃ x y, a = some x ∧ b = some y ∧ R x y := by
  constructor
  · rintro (hxy | _)
    · exact .inr ⟨_, _, rfl, rfl, hxy⟩
    · exact .inl ⟨rfl, rfl⟩
  · rintro (⟨rfl, rfl⟩ | ⟨x, y, rfl, rfl, hxy⟩)
    · exact .none
    · exact .some hxy

theorem rel_map {f : α → γ} {g : β → δ} {a : Option α} {b : Option β} (h : Option.Rel R a b)
    (hfg : ∀ x y, R x y → S (f x) (g y)) : Option.Rel S (a.map f) (b.map g) := by
  cases h with
  | none => exact .none
  | some hxy => exact .some (hfg _ _ hxy)

/-- Two computations that carry over to each other both fail, or both have answers that
correspond. -/
theorem rel_toOption {x : Except ε α} {y : Except ε β} (h : CarriesOver R x y)
    (h' : CarriesOver (fun b a => R a b) y x) : Option.Rel R x.toOption y.toOption := by
  cases x with
  | ok a =>
    obtain ⟨b, rfl, hab⟩ := h a rfl
    exact .some hab
  | error e =>
    cases y with
    | error e' => exact .none
    | ok b =>
      obtain ⟨a, ha, -⟩ := h' b rfl
      cases ha

theorem keyed_iff {p : κ × α} {q : κ × β} : Keyed R p q ↔ p.1 = q.1 ∧ R p.2 q.2 := by
  obtain ⟨k, a⟩ := p
  obtain ⟨l, b⟩ := q
  constructor
  · rintro ⟨_, h⟩
    exact ⟨rfl, h⟩
  · rintro ⟨rfl, h⟩
    exact .intro _ h

theorem Keyed.imp {T : α → β → Prop} {p : κ × α} {q : κ × β} (h : Keyed R p q)
    (himp : ∀ a b, R a b → T a b) : Keyed T p q := by
  obtain ⟨k, hab⟩ := h
  exact .intro k (himp _ _ hab)

theorem Keyed.symm {p : κ × α} {q : κ × β} (h : Keyed R p q) : Keyed (fun b a => R a b) q p := by
  obtain ⟨k, hab⟩ := h
  exact .intro k hab

namespace Matched

/-! ## Building lists -/

theorem of_forall₂ (h : List.Forall₂ R xs ys) : Matched R xs ys := ⟨ys, h, .refl ys⟩

theorem nil : Matched R [] [] := of_forall₂ .nil

theorem cons {x : α} {y : β} (hx : R x y) (h : Matched R xs ys) :
    Matched R (x :: xs) (y :: ys) := by
  obtain ⟨zs, hall, hperm⟩ := h
  exact ⟨y :: zs, .cons hx hall, hperm.cons y⟩

theorem append {xs' : List α} {ys' : List β} (h : Matched R xs ys) (h' : Matched R xs' ys') :
    Matched R (xs ++ xs') (ys ++ ys') := by
  obtain ⟨zs, hall, hperm⟩ := h
  obtain ⟨zs', hall', hperm'⟩ := h'
  exact ⟨zs ++ zs', List.rel_append hall hall', hperm.append hperm'⟩

theorem imp {T : α → β → Prop} (h : Matched R xs ys) (himp : ∀ x ∈ xs, ∀ y, R x y → T x y) :
    Matched T xs ys := by
  obtain ⟨zs, hall, hperm⟩ := h
  exact ⟨zs, forall₂_imp hall himp, hperm⟩

theorem map {f : α → γ} {g : β → δ} (h : Matched R xs ys)
    (hfg : ∀ x y, R x y → S (f x) (g y)) : Matched S (xs.map f) (ys.map g) := by
  obtain ⟨zs, hall, hperm⟩ := h
  refine ⟨zs.map g, ?_, hperm.map g⟩
  rw [List.forall₂_map_left_iff, List.forall₂_map_right_iff]
  exact hall.imp hfg

theorem map_perm {f : α → γ} {g : β → γ} (h : Matched R xs ys)
    (hfg : ∀ x y, R x y → f x = g y) : (xs.map f).Perm (ys.map g) := by
  obtain ⟨zs, hall, hperm⟩ := h
  have heq : xs.map f = zs.map g := forall₂_map_eq.mp (hall.imp hfg)
  rw [heq]
  exact hperm.map g

theorem filter {p : α → Bool} {q : β → Bool} (h : Matched R xs ys)
    (hpq : ∀ x y, R x y → p x = q y) : Matched R (xs.filter p) (ys.filter q) := by
  obtain ⟨zs, hall, hperm⟩ := h
  refine ⟨zs.filter q, List.rel_filter (fun x y hxy => ?_) hall, hperm.filter q⟩
  exact iff_of_eq (congrArg (· = true) (hpq x y hxy))

theorem flatMap {f : α → List γ} {g : β → List δ} (h : Matched R xs ys)
    (hfg : ∀ x y, R x y → Matched S (f x) (g y)) :
    Matched S (xs.flatMap f) (ys.flatMap g) := by
  obtain ⟨zs, hall, hperm⟩ := h
  have hparts : Matched S (xs.flatMap f) (zs.flatMap g) := by
    clear hperm
    induction hall with
    | nil => exact nil
    | cons hx _ ih =>
      rw [List.flatMap_cons, List.flatMap_cons]
      exact (hfg _ _ hx).append ih
  -- the parts come in the order of the items
  obtain ⟨ws, hws, hwsperm⟩ := hparts
  exact ⟨ws, hws, hwsperm.trans (hperm.flatMap_right g)⟩

/-- Either list can be put in order. -/
theorem symm (h : Matched R xs ys) : Matched (fun y x => R x y) ys xs := by
  obtain ⟨zs, hall, hperm⟩ := h
  exact List.perm_comp_forall₂ hperm.symm hall.flip

/-! ## What does not depend on the order -/

theorem length_eq (h : Matched R xs ys) : xs.length = ys.length := by
  obtain ⟨zs, hall, hperm⟩ := h
  rw [hall.length_eq, hperm.length_eq]

theorem exists_right (h : Matched R xs ys) {x : α} (hx : x ∈ xs) : ∃ y ∈ ys, R x y := by
  obtain ⟨zs, hall, hperm⟩ := h
  obtain ⟨y, hy, hxy⟩ := Outcome.exists_right hall hx
  exact ⟨y, hperm.mem_iff.mp hy, hxy⟩

theorem exists_left (h : Matched R xs ys) {y : β} (hy : y ∈ ys) : ∃ x ∈ xs, R x y :=
  h.symm.exists_right hy

/-- When the keys of one list are distinct, so are those of the other. -/
theorem nodup {key : α → κ} {key' : β → κ} (h : Matched R xs ys)
    (hkey : ∀ x y, R x y → key x = key' y) : (xs.map key).Nodup ↔ (ys.map key').Nodup :=
  (h.map_perm hkey).nodup_iff

/-- What is found by a key in the one list corresponds to what is found in the other. -/
theorem find? [DecidableEq κ] {key : α → κ} {key' : β → κ} (h : Matched R xs ys)
    (hkey : ∀ x y, R x y → key x = key' y) (hnodup : (xs.map key).Nodup) (k : κ) :
    Option.Rel R (xs.find? fun x => key x = k) (ys.find? fun y => key' y = k) := by
  cases hx : xs.find? fun x => key x = k with
  | none =>
    have hnone : (ys.find? fun y => key' y = k) = none := by
      rw [find?_key_eq_none_iff] at hx ⊢
      intro y hy
      obtain ⟨x, hmem, hxy⟩ := h.exists_left hy
      exact hkey x y hxy ▸ hx x hmem
    rw [hnone]
    exact .none
  | some x =>
    obtain ⟨hmem, rfl⟩ := (find?_key_eq_some_iff hnodup).mp hx
    obtain ⟨y, hy, hxy⟩ := h.exists_right hmem
    rw [(find?_key_eq_some_iff ((h.nodup hkey).mp hnodup)).mpr ⟨hy, (hkey x y hxy).symm⟩]
    exact .some hxy

/-- What corresponds item by item to matching lists matches as well. -/
theorem forall₂ {P : α → γ → Prop} {Q : β → δ → Prop} (h : Matched R xs ys) {as : List γ}
    {bs : List δ} (has : List.Forall₂ P xs as) (hbs : List.Forall₂ Q ys bs)
    (hS : ∀ x ∈ xs, ∀ y a b, R x y → P x a → Q y b → S a b) : Matched S as bs := by
  obtain ⟨zs, hall, hperm⟩ := h
  obtain ⟨cs, hcs, hcsperm⟩ := List.perm_comp_forall₂ hperm hbs
  exact ⟨cs, forall₂_square hall has hcs hS, hcsperm⟩

/-- The success of computations carries over to the matching computations, and the answers match. -/
theorem mapM {f : α → Except ε γ} {g : β → Except ε δ} (h : Matched R xs ys)
    (hfg : ∀ x ∈ xs, ∀ y, R x y → CarriesOver S (f x) (g y)) :
    CarriesOver (Matched S) (xs.mapM f) (ys.mapM g) := by
  intro as has
  have hall := mapM_eq_ok_iff.mp has
  have hright : ∀ y ∈ ys, ∃ b, g y = .ok b := by
    intro y hy
    obtain ⟨x, hx, hxy⟩ := h.exists_left hy
    obtain ⟨a, -, ha⟩ := Outcome.exists_right hall hx
    obtain ⟨b, hb, -⟩ := hfg x hx y hxy a ha
    exact ⟨b, hb⟩
  obtain ⟨bs, hbs⟩ := exists_forall₂ hright
  refine ⟨bs, mapM_eq_ok_iff.mpr hbs, h.forall₂ hall hbs fun x hx y a b hxy ha hb => ?_⟩
  obtain ⟨b', hb', hab⟩ := hfg x hx y hxy a ha
  obtain rfl := Except.ok.inj (hb.symm.trans hb')
  exact hab

end Matched

end

/-! ## Members by name -/

namespace Members

variable {α β : Type} {R : α → β → Prop} {m : Members α} {n : Members β}

theorem names_perm (h : Matched (Keyed R) m n) : m.names.Perm n.names :=
  h.map_perm fun _ _ hpq => (keyed_iff.mp hpq).1

/-- Members with distinct names match as maps do: under each name stand values that correspond. -/
theorem get?_matched (h : Matched (Keyed R) m n) (hnodup : m.names.Nodup) (name : String) :
    Option.Rel R (get? name m) (get? name n) := by
  rw [get?_eq_find?, get?_eq_find?]
  have hkey : ∀ (p : String × α) (q : String × β), Keyed R p q → p.1 = q.1 :=
    fun _ _ hpq => (keyed_iff.mp hpq).1
  exact rel_map (h.find? hkey hnodup name) fun _ _ hpq => (keyed_iff.mp hpq).2

end Members

end DesignTokens
