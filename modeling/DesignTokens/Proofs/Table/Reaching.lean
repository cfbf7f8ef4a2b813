import DesignTokens.Proofs.Resolution.Tables
import DesignTokens.Proofs.Resolution.Typing
import DesignTokens.Proofs.Value.Families

/-!
# What references reach in a table

The holes of a value that was read stand for the values that their references lead to in the
finished table, and the holes of a list of font families for lists of families
(`reaches_of_reading`).
-/

namespace DesignTokens

open Grammar

/-- The holes of a template stand for the values of their targets, and those of a list of families
for lists that are not empty. -/
structure Table.Reaches (t : Table) (value : Reference → Except Fault Data) (template : Template) :
    Prop where
  target_eq : ∀ h, template.HasHole h → t.target h.reference = value h.reference
  families : ∀ h, template.HasHole h → h.accepted = some [.fontFamily] →
    ∃ cs, value h.reference = .ok (.list cs) ∧ cs ≠ []

namespace Table.Reaches

variable {t : Table} {value : Reference → Except Fault Data}

theorem member {members : List (String × Template)} (h : t.Reaches value (.object members))
    {m : String × Template} (hm : m ∈ members) : t.Reaches value m.2 where
  target_eq g hg := h.target_eq g (Template.hasHole_object.mpr ⟨m, hm, hg⟩)
  families g hg := h.families g (Template.hasHole_object.mpr ⟨m, hm, hg⟩)

/-- A slot of a list of families that is a reference reaches a list that is not empty. -/
theorem slot {items : List Template} (h : t.Reaches value (.list items))
    (hitems : ∀ i ∈ items, IsFamily i) {g : Hole} (hg : .hole g ∈ items) :
    t.target g.reference = value g.reference ∧
      ∃ cs, value g.reference = .ok (.list cs) ∧ cs ≠ [] := by
  have hhole : (Template.list items).HasHole g :=
    Template.hasHole_list.mpr ⟨_, hg, Template.hasHole_hole.mpr rfl⟩
  exact ⟨h.target_eq g hhole, h.families g hhole (accepted_of_isFamily (hitems _ hg))⟩

end Table.Reaches

namespace Resolution

variable {readings : List Reading} {values : Values} {groups : List Group} {t : Table}

/-- In the table of readings their references reach their targets. -/
theorem reaches_of_reading (hr : Genuine readings)
    (hgood : ∀ p ∈ allHoles readings, WellTargeted readings p.2) (hacyclic : Acyclic readings)
    (hv : Resolved readings values) (ht : tableOf values readings groups = .ok t) {r : Reading}
    (hmem : r ∈ readings) {p : String × Template} (hp : p ∈ r.values) :
    t.Reaches (targetValue values) p.2 := by
  have hhole : ∀ h, p.2.HasHole h → (⟨r.draft.id, p.1⟩, h) ∈ allHoles readings := by
    rintro h ⟨q, hq, rfl⟩
    exact mem_allHoles.mpr ⟨r, hmem, p, hp, q, hq, rfl, rfl⟩
  constructor
  · intro h hh
    obtain ⟨target, htarget, hid, hmode, -⟩ := hgood _ (hhole h hh)
    exact target_eq hr.toReadable ht htarget hid hmode
  · intro h hh haccepted
    -- a hole that accepts families only stands for families
    obtain ⟨c, type, hc, htypes, hlist⟩ := hr.standsFor hgood hv
      (families_ne_nil hr hgood hacyclic hv) (hhole h hh)
    obtain ⟨cs, rfl, hne⟩ := hlist (List.mem_singleton.mp (htypes _ haccepted))
    exact ⟨cs, hc, hne⟩

end Resolution

end DesignTokens
