import DesignTokens.Proofs.Value.Reading

/-!
# Integers that are converted

Readers keep numbers as they are written, however large.  Only the weights of fonts and the channels
and the opacities of colours are converted to double precision, and an integer that is too large for
it is a fault.
-/

namespace DesignTokens.Grammar

open Outcome

/-- The integers that are converted when a node is read as a value of a type. -/
inductive Converts : TokenType → Tree → Int → Prop where
  | weight {t : Tree} {i : Int} : t.number? = some (.int i) → Converts .fontWeight t i
  /-- Channels beyond the third do not count. -/
  | channel {t list item : Tree} {items : List Tree} {i : Int} :
      t.get? Color.channelsField = some list → list.items? = some items → item ∈ items.take 3 →
      item.number? = some (.int i) → Converts .color t i
  | opacity {t alpha : Tree} {i : Int} : t.get? Color.alphaField = some alpha →
      alpha.number? = some (.int i) → Converts .color t i
  | border {t color : Tree} {i : Int} : t.get? "color" = some color → Converts .color color i →
      Converts .border t i
  | stop {t stop color : Tree} {items : List Tree} {i : Int} : t.items? = some items →
      stop ∈ items → stop.get? "color" = some color → Converts .color color i →
      Converts .gradient t i
  /-- A single layer is no list. -/
  | layer {t layer color : Tree} {i : Int} :
      layer = t ∨ (∃ items, t.items? = some items ∧ layer ∈ items) →
      layer.get? "color" = some color → Converts .color color i → Converts .shadow t i
  | property {t : Tree} {m : Key × Tree} {i : Int} : m ∈ t.members → m.1.name = "fontWeight" →
      Converts .fontWeight m.2 i → Converts .typography t i

/-- A number is too large when an integer is converted that double precision does not reach. -/
def Overflows (type : TokenType) (t : Tree) (fault : Fault) : Prop :=
  fault = .tooLarge ∧ ∃ i, Converts type t i ∧ Binary64.ofInt? i = none

theorem Overflows.imp {type outer : TokenType} {t u : Tree}
    (h : ∀ i, Converts type t i → Converts outer u i) (fault : Fault)
    (hfault : Overflows type t fault) : Overflows outer u fault :=
  ⟨hfault.1, hfault.2.imp fun i hi => ⟨h i hi.1, hi.2⟩⟩

/-! ## Weights -/

theorem fault_of_integral? {n : Scalar} {fault : Fault} (h : integral? n = .error fault) :
    fault = .tooLarge ∧ ∃ i, n = .int i ∧ Binary64.ofInt? i = none := by
  unfold integral? at h
  split at h
  · split at h
    · simp at h
    · rename_i i hlarge
      exact ⟨(Except.error.inj h).symm, i, rfl, by simpa using hlarge⟩
  · simp at h

theorem overflows_fontWeight {t : Tree} {n : Scalar} {fault : Fault} (hn : t.number? = some n)
    (h : integral? n = .error fault) : Overflows .fontWeight t fault := by
  obtain ⟨hfault, i, rfl, hi⟩ := fault_of_integral? h
  exact ⟨hfault, i, .weight hn, hi⟩

/-! ## Colours -/

theorem fault_of_number {s : Scalar} {fault : Fault} (h : Color.number s = .error fault) :
    fault = .unreadable ∨ fault = .tooLarge ∧ ∃ i, s = .int i ∧ Binary64.ofInt? i = none := by
  unfold Color.number at h
  split at h
  · simp at h
  · split at h
    · simp at h
    · exact .inr ⟨(Except.error.inj h).symm, _, rfl, ‹_›⟩
  · simp at h
  · exact .inl (Except.error.inj h).symm

/-- There is no colour of parts when their space is unknown, when one of them is no number, or when
one is too large. -/
theorem fault_of_ofParts {space : String} {channels : List Scalar} {alpha : Scalar}
    {fault : Fault} (h : Color.ofParts space channels alpha = .error fault) :
    fault = .unreadable ∨ fault = .tooLarge ∧
      ∃ i, (.int i ∈ channels.take 3 ∨ alpha = .int i) ∧ Binary64.ofInt? i = none := by
  unfold Color.ofParts at h
  split at h
  · exact .inl (Except.error.inj h).symm
  · rcases hnumbers : (channels.take 3).mapM Color.number with e | numbers
    · rw [hnumbers] at h
      obtain rfl : e = fault := Except.error.inj h
      obtain ⟨before, n, after, hsplit, -, hn⟩ := mapM_eq_error_iff.mp hnumbers
      refine (fault_of_number hn).imp_right fun ⟨hfault, i, hi, hlarge⟩ =>
        ⟨hfault, i, .inl ?_, hlarge⟩
      rw [hsplit, ← hi]
      exact List.mem_append_right _ List.mem_cons_self
    · rcases halpha : Color.number alpha with e | a
      · rw [hnumbers, halpha] at h
        obtain rfl : e = fault := Except.error.inj h
        exact (fault_of_number halpha).imp_right fun ⟨hfault, i, hi, hlarge⟩ =>
          ⟨hfault, i, .inr hi, hlarge⟩
      · simp [hnumbers, halpha, bind, Except.bind, pure, Except.pure] at h

/-- The parts of a colour that are too large are among those that are converted. -/
theorem overflows_color {t list : Tree} (hlist : t.get? Color.channelsField = some list)
    {channels : List Scalar} (hchannels : numbers list = .ok channels) {alpha : Scalar}
    (halpha : opacity t = .ok alpha) {space : String} {fault : Fault}
    (hne : fault ≠ .unreadable) (h : Color.ofParts space channels alpha = .error fault) :
    Overflows .color t fault := by
  obtain ⟨hfault, i, hi, hlarge⟩ := (fault_of_ofParts h).resolve_left hne
  refine ⟨hfault, i, ?_, hlarge⟩
  obtain hi | rfl := hi
  · obtain ⟨items, hitems, hnumbers⟩ := numbers_eq_ok.mp hchannels
    obtain ⟨item, hitem, hnumber⟩ := exists_left (List.forall₂_take 3 hnumbers) hi
    exact .channel hlist hitems hitem hnumber
  · unfold opacity at halpha
    split at halpha
    · exact .opacity ‹_› (numberOf_eq_ok.mp halpha)
    · -- without an opacity the number is one
      obtain rfl := Scalar.int.inj (Except.ok.inj halpha)
      exact absurd hlarge (by decide +kernel)

end DesignTokens.Grammar
