import DesignTokens.Proofs.Tree.Content

/-!
# Trees that differ in one place

Two trees agree but for the node at a path when nothing else differs between them.  Whatever is
looked up under another name is the same in both.  A computation on the one and the same computation
on the other agree when their answers correspond, should both of them have one.
-/

namespace DesignTokens

/-! ## Computations that agree -/

section

variable {ε α β γ δ : Type} {R : α → β → Prop} {S : γ → δ → Prop}

/-- The answers of two computations correspond when both of them have one. -/
def Agreeing (R : α → β → Prop) (x : Except ε α) (y : Except ε β) : Prop :=
  ∀ a b, x = .ok a → y = .ok b → R a b

namespace Agreeing

theorem ok {a : α} {b : β} (h : R a b) : Agreeing R (.ok a : Except ε α) (.ok b) := by
  rintro _ _ ⟨⟩ ⟨⟩
  exact h

theorem error_left {e : ε} {y : Except ε β} : Agreeing R (.error e) y := by
  rintro _ _ ⟨⟩

theorem error_right {e : ε} {x : Except ε α} : Agreeing R x (.error e) := by
  rintro _ _ - ⟨⟩

theorem refl {R : α → α → Prop} (h : ∀ a, R a a) (x : Except ε α) : Agreeing R x x := by
  rintro a b rfl hb
  obtain rfl := Except.ok.inj hb
  exact h a

theorem bind {x : Except ε α} {y : Except ε β} {f : α → Except ε γ} {g : β → Except ε δ}
    (h : Agreeing R x y) (hfg : ∀ a b, R a b → Agreeing S (f a) (g b)) :
    Agreeing S (x >>= f) (y >>= g) := by
  cases x with
  | error => exact error_left
  | ok a =>
    cases y with
    | error => exact error_right
    | ok b => exact hfg a b (h a b rfl rfl)

theorem same_bind {x : Except ε α} {f : α → Except ε γ} {g : α → Except ε δ}
    (h : ∀ a, Agreeing S (f a) (g a)) : Agreeing S (x >>= f) (x >>= g) :=
  (refl (R := Eq) (fun _ => rfl) x).bind fun a _ hab => hab ▸ h a

/-- Computations that agree item by item agree on the lists. -/
theorem mapM {f : α → Except ε γ} {g : β → Except ε δ} {xs : List α} {ys : List β}
    (h : List.Forall₂ R xs ys) (hfg : ∀ x y, R x y → Agreeing S (f x) (g y)) :
    Agreeing (List.Forall₂ S) (xs.mapM f) (ys.mapM g) := by
  induction h with
  | nil => exact ok .nil
  | cons hxy _ ih =>
    rw [List.mapM_cons, List.mapM_cons]
    exact (hfg _ _ hxy).bind fun _ _ hfirst => ih.bind fun _ _ hrest => ok (.cons hfirst hrest)

end Agreeing

end

namespace Tree

/-! ## Differing at a path -/

/-- Trees that do not differ, or only in the node that the names of a path lead to. -/
inductive AgreesBut : List String → Tree → Tree → Prop where
  /-- There is no difference. -/
  | same {path : List String} (t : Tree) : AgreesBut path t t
  /-- The nodes themselves differ. -/
  | here (t u : Tree) : AgreesBut [] t u
  /-- The nodes differ inside one member. -/
  | member {path : List String} (before after : List (Key × Tree)) (k : Key) (span : Span)
      {t u : Tree} : AgreesBut path t u →
      AgreesBut (k.name :: path) (.mapping (before ++ (k, t) :: after) span)
        (.mapping (before ++ (k, u) :: after) span)

/-- Members with the same key that agree but for a path that starts with a name. -/
def MemberAgrees (name : String) (path : List String) (m n : Key × Tree) : Prop :=
  m.1 = n.1 ∧ (m.2 = n.2 ∨ m.1.name = name ∧ m.2.AgreesBut path n.2)

theorem MemberAgrees.refl (name : String) (path : List String) (m : Key × Tree) :
    MemberAgrees name path m m :=
  ⟨rfl, .inl rfl⟩

namespace AgreesBut

variable {name other : String} {path : List String} {t u : Tree}

theorem span_eq (h : AgreesBut (name :: path) t u) : t.span = u.span := by
  cases h <;> rfl

theorem members? (h : AgreesBut (name :: path) t u) :
    Option.Rel (List.Forall₂ (MemberAgrees name path)) t.members? u.members? := by
  cases h with
  | same t =>
    cases t.members? with
    | none => exact .none
    | some ms => exact .some (List.forall₂_same.mpr fun m _ => .refl name path m)
  | member before after k span h =>
    have hsame : ∀ ms, List.Forall₂ (MemberAgrees k.name path) ms ms := fun ms =>
      List.forall₂_same.mpr fun m _ => .refl k.name path m
    exact .some (List.rel_append (hsame before) (.cons ⟨rfl, .inr ⟨rfl, h⟩⟩ (hsame after)))

theorem members (h : AgreesBut (name :: path) t u) :
    List.Forall₂ (MemberAgrees name path) t.members u.members := by
  obtain ⟨ht, hu⟩ | ⟨ms, ns, ht, hu, hall⟩ := rel_iff.mp h.members? <;>
    rw [Tree.members, Tree.members, ht, hu]
  · exact .nil
  · exact hall

theorem rel_get? (h : AgreesBut (name :: path) t u) (other : String) :
    Option.Rel (fun v w => v = w ∨ other = name ∧ v.AgreesBut path w)
      (t.get? other) (u.get? other) := by
  have hfind : Option.Rel (MemberAgrees name path) (t.member? other) (u.member? other) :=
    rel_find? h.members fun _ _ hmn => by rw [hmn.1]
  obtain ⟨ht, hu⟩ | ⟨m, n, ht, hu, -, hmn⟩ := rel_iff.mp hfind <;>
    rw [Tree.get?, Tree.get?, ht, hu]
  · exact .none
  · refine .some (hmn.imp id fun h => ⟨?_, h.2⟩)
    -- the member was found by its name
    have hname : m.1.name = other := by simpa using List.find?_some ht
    rw [← hname, h.1]

/-- What stands under another name is the same. -/
theorem get?_of_ne (h : AgreesBut (name :: path) t u) (hne : other ≠ name) :
    t.get? other = u.get? other := by
  obtain ⟨ht, hu⟩ | ⟨v, w, ht, hu, hvw⟩ := rel_iff.mp (h.rel_get? other) <;> rw [ht, hu]
  rw [hvw.resolve_right fun h => hne h.1]

/-- What stands under the first name of the path agrees but for the rest of it. -/
theorem get? (h : AgreesBut (name :: path) t u) :
    Option.Rel (AgreesBut path) (t.get? name) (u.get? name) := by
  obtain ⟨ht, hu⟩ | ⟨v, w, ht, hu, hvw⟩ := rel_iff.mp (h.rel_get? name) <;> rw [ht, hu]
  · exact .none
  · exact .some (hvw.elim (fun h => h ▸ .same v) fun h => h.2)

end AgreesBut

end Tree

end DesignTokens
