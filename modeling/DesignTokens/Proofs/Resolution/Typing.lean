import DesignTokens.Proofs.Pipeline
import DesignTokens.Proofs.Value.Families
import DesignTokens.Proofs.Value.Reading

/-!
# Values by type

What a reference stands for has a type that its hole accepts.  So what the values of each type have
in common can be shown literal by literal, with the references inside standing for values of which
it is known already (`Genuine.induction`).
-/

namespace DesignTokens.Resolution

variable {readings : List Reading} {values : Values}

/-- A hole stands for a value of a type that it accepts, and something is known of values of that
type. -/
def StandsFor (values : Values) (P : TokenType → Data → Prop) (h : Hole) : Prop :=
  ∃ c type, targetValue values h.reference = .ok c ∧
    (∀ types, h.accepted = some types → type ∈ types) ∧ P type c

/-- A value of a type that is a reference as a whole, or a literal of the type. -/
theorem Genuine.template (hr : Genuine readings) {r : Reading} (hmem : r ∈ readings)
    {type : TokenType} (htype : r.draft.type = some type) {p : String × Template}
    (hp : p ∈ r.values) :
    (∃ h, p.2 = .hole h ∧ h.accepted = some [type]) ∨ Grammar.Literal type p.2 := by
  obtain ⟨node, hkeyed, hread⟩ := hr.read r hmem type htype p hp
  have hnormal := Grammar.normal_of_value hkeyed hread
  generalize p.2 = t at hnormal ⊢
  rcases hnormal with hhole | hliteral
  · cases hhole
    exact .inl ⟨_, rfl, rfl⟩
  · exact .inr hliteral

/-- What holds of the data of each literal, whenever it holds of what its references stand for,
holds of all resolved values. -/
theorem Genuine.induction (hr : Genuine readings)
    (hgood : ∀ p ∈ allHoles readings, WellTargeted readings p.2) (hacyclic : Acyclic readings)
    (hv : Resolved readings values) {P : TokenType → Data → Prop}
    (literal : ∀ r ∈ readings, ∀ type, r.draft.type = some type → ∀ p ∈ r.values, ∀ d,
      Grammar.Literal type p.2 → p.2.fill (targetValue values) = .ok d →
      (∀ h, p.2.HasHole h → StandsFor values P h) → P type d) :
    ∀ r ∈ readings, ∀ type, r.draft.type = some type → ∀ mode d,
      valueAt values ⟨r.draft.id, mode⟩ = .ok d → P type d := by
  have key : ∀ s d, (s, d) ∈ values → ∀ r ∈ readings, s.token = r.draft.id →
      ∀ type, r.draft.type = some type → P type d := by
    refine hv.induction hr.toReadable hgood hacyclic ?_
    intro s t d ht hfill ih r hmem hs type htype
    obtain ⟨r', hmem', hid, hmode⟩ := (templateAt_eq_ok hr.toReadable).mp ht
    obtain rfl : r' = r := List.inj_on_of_nodup_map hr.ids_nodup hmem' hmem (by rw [hid, hs])
    -- the types that a hole accepts are those of its target
    have hstands : ∀ h, t.HasHole h → StandsFor values P h := by
      intro h hh
      obtain ⟨c, hc, hP⟩ := ih h hh
      obtain ⟨target, htarget, hid', -, htypes⟩ :=
        hgood _ (mem_allHoles_of_templateAt hr.toReadable ht hh)
      obtain ⟨found, hfound⟩ := hr.typed target htarget
      refine ⟨c, found, hc, ?_, hP target htarget hid'.symm found hfound⟩
      intro types haccepted
      obtain ⟨type', hin, htype'⟩ := htypes types haccepted
      rwa [Option.some.inj (hfound.symm.trans htype')]
    obtain ⟨h, hhole, haccepted⟩ | hliteral := hr.template hmem htype hmode
    · dsimp only at hhole
      subst hhole
      obtain ⟨c, found, hc, htypes, hP⟩ := hstands h (Template.hasHole_hole.mpr rfl)
      obtain rfl : c = d := Except.ok.inj (hc.symm.trans hfill)
      obtain rfl := List.mem_singleton.mp (htypes _ haccepted)
      exact hP
    · exact literal r' hmem type htype _ hmode d hliteral hfill hstands
  intro r hmem type htype mode d hd
  exact key _ d ((valueAt_eq_ok hv.nodup).mp hd) r hmem rfl type htype

/-- Font families are lists that are not empty. -/
theorem families_ne_nil (hr : Genuine readings)
    (hgood : ∀ p ∈ allHoles readings, WellTargeted readings p.2) (hacyclic : Acyclic readings)
    (hv : Resolved readings values) :
    ∀ r ∈ readings, ∀ type, r.draft.type = some type → ∀ mode d,
      valueAt values ⟨r.draft.id, mode⟩ = .ok d → type = .fontFamily →
        ∃ cs, d = .list cs ∧ cs ≠ [] := by
  refine hr.induction hgood hacyclic hv ?_
  rintro r - type - p - d hliteral hfill hstands rfl
  refine Grammar.ne_nil_of_fill hliteral (fun h hh haccepted => ?_) hfill
  obtain ⟨c, type, hc, htypes, hlist⟩ := hstands h hh
  obtain ⟨cs, rfl, hne⟩ := hlist (List.mem_singleton.mp (htypes _ haccepted))
  exact ⟨cs, hc, hne⟩

/-- What is known of all values is known of what the holes stand for. -/
theorem Genuine.standsFor (hr : Genuine readings)
    (hgood : ∀ p ∈ allHoles readings, WellTargeted readings p.2) (hv : Resolved readings values)
    {P : TokenType → Data → Prop}
    (hP : ∀ r ∈ readings, ∀ type, r.draft.type = some type → ∀ mode d,
      valueAt values ⟨r.draft.id, mode⟩ = .ok d → P type d) {s : Slot} {h : Hole}
    (hh : (s, h) ∈ allHoles readings) : StandsFor values P h := by
  have hwell := hgood _ hh
  -- the slot of the target has a value, and the claim holds of it
  obtain ⟨q, hq, hslot⟩ := List.mem_map.mp ((hv.mem_iff _).mpr hwell.slotOf_mem)
  have hc : targetValue values h.reference = .ok q.2 :=
    (valueAt_eq_ok hv.nodup).mpr (hslot ▸ hq)
  obtain ⟨target, htarget, hid, -, htypes⟩ := hwell
  obtain ⟨found, hfound⟩ := hr.typed target htarget
  refine ⟨q.2, found, hc, ?_, hP target htarget found hfound h.reference.mode q.2 ?_⟩
  · intro types haccepted
    obtain ⟨type, hin, htype⟩ := htypes types haccepted
    rwa [Option.some.inj (hfound.symm.trans htype)]
  · rw [hid]
    exact hc

end DesignTokens.Resolution
