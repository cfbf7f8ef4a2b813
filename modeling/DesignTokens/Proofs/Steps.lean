/-!
# Steps that change a state

A step that may fail changes its state also when it fails.  `Ends` says what holds of the state
before a step, and of the state after it together with the answer or the failure.  `Gives` says
what the answer and the state after a step are, for a step that does not fail.
-/

namespace DesignTokens

section Ends

variable {ε σ α β : Type} {I J : σ → Prop} {Q : α → σ → Prop} {R : β → σ → Prop}
  {E : ε → σ → Prop} {m : ExceptT ε (StateM σ) α} {f : α → ExceptT ε (StateM σ) β}

/-- From a state that satisfies `I` a step ends in an answer and a state that satisfy `Q`, or in a
failure and a state that satisfy `E`. -/
def Ends (I : σ → Prop) (m : ExceptT ε (StateM σ) α) (Q : α → σ → Prop) (E : ε → σ → Prop) : Prop :=
  ∀ s, I s → match m.run.run s with
    | (.ok a, s') => Q a s'
    | (.error e, s') => E e s'

/-- What holds of the answer of a run. -/
theorem Ends.of_ok (h : Ends I m Q E) {s : σ} (hs : I s) {a : α} (ha : (m.run.run s).1 = .ok a) :
    Q a (m.run.run s).2 := by
  have hm := h s hs
  revert hm ha
  rcases m.run.run s with ⟨_ | _, s'⟩
  · simp
  · rintro ⟨⟩
    exact id

/-- What holds of the failure of a run. -/
theorem Ends.of_error (h : Ends I m Q E) {s : σ} (hs : I s) {e : ε}
    (he : (m.run.run s).1 = .error e) : E e (m.run.run s).2 := by
  have hm := h s hs
  revert hm he
  rcases m.run.run s with ⟨_ | _, s'⟩
  · rintro ⟨⟩
    exact id
  · simp

theorem Ends.imp {Q' : α → σ → Prop} (h : Ends I m Q E) (hI : ∀ s, J s → I s)
    (hQ : ∀ a s, Q a s → Q' a s) : Ends J m Q' E := by
  intro s hs
  have hm := h s (hI s hs)
  revert hm
  rcases m.run.run s with ⟨_ | _, s'⟩
  · exact id
  · exact hQ _ _

theorem ends_pure {a : α} (h : ∀ s, I s → Q a s) : Ends I (pure a) Q E := h

theorem ends_throw {e : ε} (h : ∀ s, I s → E e s) : Ends I (throw e) Q E := h

theorem Ends.bind (hm : Ends I m Q E) (hf : ∀ a, Ends (Q a) (f a) R E) :
    Ends I (m >>= f) R E := by
  intro s hs
  have hms := hm s hs
  rw [ExceptT.run_bind, StateT.run_bind]
  revert hms
  rcases m.run.run s with ⟨e | a, s'⟩
  · exact id
  · exact hf a s'

theorem ends_get {f : σ → ExceptT ε (StateM σ) β} (h : ∀ t, I t → Ends (fun s => I s ∧ s = t) (f t) R E) :
    Ends I (get >>= f) R E :=
  fun s hs => h s hs s ⟨hs, rfl⟩

theorem ends_set {t : σ} {Q : Unit → σ → Prop} (h : (∃ s, I s) → Q () t) : Ends I (set t) Q E :=
  fun s hs => h ⟨s, hs⟩

theorem ends_modify {g : σ → σ} {Q : Unit → σ → Prop} (h : ∀ s, I s → Q () (g s)) :
    Ends I (modify g) Q E := h

/-- A computation without a state, as a step that leaves the state as it is. -/
theorem ends_lift {x : Except ε α} (hok : ∀ a, x = .ok a → ∀ s, I s → Q a s)
    (herror : ∀ e, x = .error e → ∀ s, I s → E e s) :
    Ends I (liftM x : ExceptT ε (StateM σ) α) Q E := by
  intro s hs
  cases x with
  | ok a => exact hok a rfl s hs
  | error e => exact herror e rfl s hs

end Ends

section Gives

variable {ε σ α β : Type} {s s' s'' : σ} {a : α} {b : β} {m : ExceptT ε (StateM σ) α}
  {f : α → ExceptT ε (StateM σ) β}

/-- From a state a step gives an answer and a state. -/
def Gives (s : σ) (m : ExceptT ε (StateM σ) α) (a : α) (s' : σ) : Prop :=
  m.run.run s = (.ok a, s')

theorem Gives.bind (hm : Gives s m a s') (hf : Gives s' (f a) b s'') : Gives s (m >>= f) b s'' := by
  unfold Gives at hm hf ⊢
  rw [ExceptT.run_bind, StateT.run_bind, hm]
  exact hf

theorem gives_pure : Gives s (pure a : ExceptT ε (StateM σ) α) a s := rfl

theorem gives_get : Gives s (get : ExceptT ε (StateM σ) σ) s s := rfl

theorem gives_set : Gives s (set s' : ExceptT ε (StateM σ) PUnit) ⟨⟩ s' := rfl

theorem gives_modify {g : σ → σ} : Gives s (modify g : ExceptT ε (StateM σ) PUnit) ⟨⟩ (g s) := rfl

theorem gives_modify_of_eq {g : σ → σ} (h : g s = s') :
    Gives s (modify g : ExceptT ε (StateM σ) PUnit) ⟨⟩ s' := by
  subst h
  rfl

theorem gives_lift {x : Except ε α} (h : x = .ok a) :
    Gives s (liftM x : ExceptT ε (StateM σ) α) a s := by
  subst h
  rfl

end Gives

end DesignTokens
