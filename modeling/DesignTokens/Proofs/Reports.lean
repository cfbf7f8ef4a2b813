import DesignTokens.Problem

/-!
# Issues, faults and answers

A computation over a document returns an answer, reports an issue, or ends with a fault.  `Reports`
says what holds of each of them.
-/

namespace DesignTokens

section Reports

variable {α β : Type} {I : Issue → Prop} {F : Fault → Prop} {x : Except Failure α}
  {f : α → Except Failure β} {Q : α → Prop} {R : β → Prop}

/-- The issues of a computation satisfy `I`, its faults `F`, and what it returns satisfies `Q`. -/
structure Reports (I : Issue → Prop) (F : Fault → Prop) (x : Except Failure α) (Q : α → Prop) :
    Prop where
  issue : ∀ i, x = .error (.issue i) → I i
  fault : ∀ a, x = .error (.fault a) → F a
  answer : ∀ a, x = .ok a → Q a

theorem reports_ok {a : α} (h : Q a) : Reports I F (.ok a) Q := by
  refine ⟨by simp, by simp, ?_⟩
  rintro _ ⟨⟩
  exact h

theorem reports_issue {i : Issue} (h : I i) : Reports I F (.error (.issue i)) Q := by
  refine ⟨?_, by simp, by simp⟩
  rintro _ ⟨⟩
  exact h

theorem reports_fault {fault : Fault} (h : F fault) : Reports I F (.error (.fault fault)) Q := by
  refine ⟨by simp, ?_, by simp⟩
  rintro _ ⟨⟩
  exact h

/-- A failure is reported whatever the answer had to satisfy. -/
theorem Reports.error {e : Failure} (hx : Reports I F (.error e : Except Failure α) Q) :
    Reports I F (.error e : Except Failure β) R := by
  cases e with
  | issue i => exact reports_issue (hx.issue i rfl)
  | fault a => exact reports_fault (hx.fault a rfl)

theorem Reports.bind (hx : Reports I F x Q) (hf : ∀ a, Q a → Reports I F (f a) R) :
    Reports I F (x >>= f) R := by
  cases x with
  | error e => exact hx.error
  | ok a => exact hf a (hx.answer a rfl)

theorem Reports.map {g : α → β} (hx : Reports I F x Q) (h : ∀ a, Q a → R (g a)) :
    Reports I F (x.map g) R := by
  cases x with
  | error e => exact hx.error
  | ok a => exact reports_ok (h a (hx.answer a rfl))

theorem Reports.imp {J : Issue → Prop} {R : α → Prop} (hx : Reports I F x Q)
    (hI : ∀ i, I i → J i) (hQ : ∀ a, Q a → R a) : Reports J F x R :=
  ⟨fun i hi => hI i (hx.issue i hi), hx.fault, fun a ha => hQ a (hx.answer a ha)⟩

/-- What is returned is the answer of the computation. -/
theorem Reports.answered (hx : Reports I F x Q) : Reports I F x fun a => x = .ok a ∧ Q a :=
  ⟨hx.issue, hx.fault, fun a ha => ⟨ha, hx.answer a ha⟩⟩

/-- Less may be said of the faults. -/
theorem Reports.weaken {G : Fault → Prop} (hx : Reports I F x Q) (h : ∀ a, F a → G a) :
    Reports I G x Q :=
  ⟨hx.issue, fun a ha => h a (hx.fault a ha), hx.answer⟩

theorem reports_mapM {f : β → Except Failure α} {xs : List β} (h : ∀ b ∈ xs, Reports I F (f b) Q) :
    Reports I F (xs.mapM f) fun as => ∀ a ∈ as, Q a := by
  induction xs with
  | nil => exact reports_ok (by simp)
  | cons b xs ih =>
    obtain ⟨hb, hxs⟩ := List.forall_mem_cons.mp h
    rw [List.mapM_cons]
    exact hb.bind fun a ha => (ih hxs).bind fun as has =>
      reports_ok (List.forall_mem_cons.mpr ⟨ha, has⟩)

/-- What every step of a loop keeps is kept by the whole loop. -/
theorem reports_foldlM {f : α → β → Except Failure α} {xs : List β} {a : α} (ha : Q a)
    (h : ∀ b ∈ xs, ∀ a, Q a → Reports I F (f a b) Q) : Reports I F (xs.foldlM f a) Q := by
  induction xs generalizing a with
  | nil => exact reports_ok ha
  | cons b xs ih =>
    obtain ⟨hb, hxs⟩ := List.forall_mem_cons.mp h
    rw [List.foldlM_cons]
    exact (hb a ha).bind fun a' ha' => ih ha' hxs

end Reports

end DesignTokens
