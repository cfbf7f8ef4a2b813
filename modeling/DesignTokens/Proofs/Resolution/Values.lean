import DesignTokens.Proofs.Dependency.Cycle
import DesignTokens.Proofs.Dependency.Order
import DesignTokens.Proofs.Resolution.References
import DesignTokens.Proofs.Value.Filling

/-!
# The values of readings

Values are resolved when each of them is the data of its template with the values of all others.
Filling along the order of references resolves all values, and without cycles there is only one way
to resolve them.  So a table does not depend on the order (`resolve_eq_ok`).
-/

namespace DesignTokens.Resolution

open Outcome

/-! ## Looking up templates and values -/

/-- The template of a slot stands at its mode in the reading of its token. -/
theorem templateAt_eq_ok {readings : List Reading} (hr : Readable readings) {s : Slot}
    {t : Template} :
    templateAt readings s = .ok t ↔
      ∃ r ∈ readings, r.draft.id = s.token ∧ (s.mode, t) ∈ r.values := by
  -- the two lookups as one
  have hlookup : templateAt readings s = .ok t ↔
      ((find? s.token readings).bind fun r => Members.get? s.mode r.values) = some t := by
    unfold templateAt
    split <;> simp [*]
  rw [hlookup, Option.bind_eq_some_iff]
  constructor
  · rintro ⟨r, hfind, hmode⟩
    obtain ⟨hmem, hid⟩ := hr.find?_eq_some_iff.mp hfind
    exact ⟨r, hmem, hid, (Members.get?_eq_some_iff (hr.modes_nodup r hmem)).mp hmode⟩
  · rintro ⟨r, hmem, hid, hmode⟩
    exact ⟨r, hr.find?_eq_some_iff.mpr ⟨hmem, hid⟩,
      (Members.get?_eq_some_iff (hr.modes_nodup r hmem)).mpr hmode⟩

theorem exists_templateAt {readings : List Reading} (hr : Readable readings) {s : Slot}
    (hs : s ∈ readings.flatMap slotsOf) : ∃ t, templateAt readings s = .ok t := by
  obtain ⟨r, hmem, hid, hmode⟩ := mem_flatMap_slotsOf.mp hs
  obtain ⟨p, hp, hname⟩ := List.mem_map.mp hmode
  exact ⟨p.2, (templateAt_eq_ok hr).mpr ⟨r, hmem, hid, hname ▸ hp⟩⟩

theorem mem_allHoles_of_templateAt {readings : List Reading} (hr : Readable readings) {s : Slot}
    {t : Template} (ht : templateAt readings s = .ok t) {h : Hole} (hh : t.HasHole h) :
    (s, h) ∈ allHoles readings := by
  obtain ⟨r, hmem, hid, hmode⟩ := (templateAt_eq_ok hr).mp ht
  obtain ⟨q, hq, rfl⟩ := hh
  exact mem_allHoles.mpr ⟨r, hmem, _, hmode, q, hq, by rw [hid], rfl⟩

/-- In values without repeated slots the value of a slot stands with it. -/
theorem valueAt_eq_ok {values : Values} (h : (values.map Prod.fst).Nodup) {s : Slot} {d : Data} :
    valueAt values s = .ok d ↔ (s, d) ∈ values := by
  have hlookup : valueAt values s = .ok d ↔ values.find? (·.1 = s) = some (s, d) := by
    unfold valueAt
    split
    · rename_i p hp
      have hslot := List.find?_some hp
      simp only [decide_eq_true_eq] at hslot
      simp [hp, hslot]
    · simp [*]
  rw [hlookup, find?_key_eq_some_iff h]
  simp

/-! ## Resolved values -/

/-- The value that a reference stands for. -/
def targetValue (values : Values) (r : Reference) : Except Fault Data := valueAt values (slotOf r)

/-- Values of all slots, of which each is the data of its template. -/
structure Resolved (readings : List Reading) (values : Values) : Prop where
  nodup : (values.map Prod.fst).Nodup
  mem_iff : ∀ s, s ∈ values.map Prod.fst ↔ s ∈ readings.flatMap slotsOf
  filled : ∀ p ∈ values, ∃ t, templateAt readings p.1 = .ok t ∧
    t.fill (targetValue values) = .ok p.2

/-- The value of a mode of a reading is the data of its template. -/
theorem Resolved.fill_eq {readings : List Reading} (hr : Readable readings) {values : Values}
    (hv : Resolved readings values) {r : Reading} (hmem : r ∈ readings) {p : String × Template}
    (hp : p ∈ r.values) {d : Data} (hd : valueAt values ⟨r.draft.id, p.1⟩ = .ok d) :
    p.2.fill (targetValue values) = .ok d := by
  have ht : templateAt readings ⟨r.draft.id, p.1⟩ = .ok p.2 :=
    (templateAt_eq_ok hr).mpr ⟨r, hmem, rfl, hp⟩
  obtain ⟨t, ht', hfill⟩ := hv.filled _ ((valueAt_eq_ok hv.nodup).mp hd)
  rwa [Except.ok.inj (ht.symm.trans ht')]

theorem valueAt_cons {values : Values} {s other : Slot} {d : Data} (h : other ≠ s) :
    valueAt ((s, d) :: values) other = valueAt values other := by
  simp [valueAt, h.symm]

/-- One more value does not change the data of a template whose holes have values already. -/
theorem fill_targetValue_cons {values : Values} {s : Slot} {d : Data} {t : Template}
    (h : ∀ g, t.HasHole g → slotOf g.reference ≠ s) :
    t.fill (targetValue ((s, d) :: values)) = t.fill (targetValue values) :=
  Template.fill_congr fun g hg => valueAt_cons (h g hg)

/-- The step of filling: the value of a slot is added. -/
def addValue (readings : List Reading) (values : Values) (slot : Slot) : Except Fault Values := do
  let template ← templateAt readings slot
  let value ← template.fill fun r => valueAt values ⟨r.target, r.mode⟩
  return (slot, value) :: values

theorem fillAll_eq (readings : List Reading) (order : List Slot) :
    fillAll readings order = order.foldlM (addValue readings) [] :=
  rfl

/-- Filling along arranged slots gives each of them the data of its template. -/
theorem exists_fillAll {readings : List Reading} (hr : Readable readings)
    {g : Dependencies Hole} (hrefers : ∀ a b, g.Refers a b ↔ Refers readings a b)
    {done : List Slot} (harranged : g.Arranged done) (hnodup : done.Nodup)
    (hmem : ∀ s ∈ done, s ∈ readings.flatMap slotsOf) :
    ∃ values, fillAll readings done.reverse = .ok values ∧ values.map Prod.fst = done ∧
      ∀ p ∈ values, ∃ t, templateAt readings p.1 = .ok t ∧
        t.fill (targetValue values) = .ok p.2 := by
  induction harranged with
  | nil => exact ⟨[], rfl, rfl, by simp⟩
  | cons s done htargets harranged ih =>
    obtain ⟨hnew, hnodup⟩ := List.nodup_cons.mp hnodup
    obtain ⟨values, hfill, hslots, hfilled⟩ :=
      ih hnodup fun t ht => hmem t (List.mem_cons_of_mem _ ht)
    have hkeys : (values.map Prod.fst).Nodup := hslots ▸ hnodup
    obtain ⟨t, ht⟩ := exists_templateAt hr (hmem s List.mem_cons_self)
    -- every hole leads to a slot that is done, so the new slot is none of them
    have htarget : ∀ h, t.HasHole h → slotOf h.reference ∈ done := fun h hh =>
      htargets _ ((hrefers _ _).mpr ⟨h, mem_allHoles_of_templateAt hr ht hh, rfl⟩)
    obtain ⟨d, hd⟩ : ∃ d, t.fill (targetValue values) = .ok d := by
      refine Template.exists_fill fun h hh => ?_
      have hdone := htarget h hh
      rw [← hslots] at hdone
      obtain ⟨p, hp, hslot⟩ := List.mem_map.mp hdone
      exact ⟨p.2, (valueAt_eq_ok hkeys).mpr (hslot ▸ hp)⟩
    -- the value of the new slot is added
    have hstep : addValue readings values s = .ok ((s, d) :: values) := by
      have hd' : (t.fill fun r => valueAt values ⟨r.target, r.mode⟩) = .ok d := hd
      simp [addValue, ht, hd']
    refine ⟨(s, d) :: values, ?_, by simp [hslots], ?_⟩
    · rw [fillAll_eq] at hfill
      simp [fillAll_eq, List.foldlM_append, List.foldlM_cons, hfill, hstep]
    · intro p hp
      rcases List.mem_cons.mp hp with rfl | hp
      · refine ⟨t, ht, ?_⟩
        rw [fill_targetValue_cons fun h hh => ne_of_mem_of_not_mem (htarget h hh) hnew]
        exact hd
      · -- a value that was there does not refer to the new slot, because its targets are done
        obtain ⟨u, hu, hfill⟩ := hfilled p hp
        refine ⟨u, hu, ?_⟩
        have hpdone : p.1 ∈ done := hslots ▸ List.mem_map_of_mem hp
        rw [fill_targetValue_cons, hfill]
        intro h hh
        have href : g.Refers p.1 (slotOf h.reference) :=
          (hrefers _ _).mpr ⟨h, mem_allHoles_of_templateAt hr hu hh, rfl⟩
        exact ne_of_mem_of_not_mem (harranged.closed hpdone href) hnew

/-! ## Induction over references -/

/-- No slot of the readings leads back to itself. -/
def Acyclic (readings : List Reading) : Prop := ∀ s, ¬ Relation.TransGen (Refers readings) s s

theorem acyclic_iff {readings : List Reading} {g : Dependencies Hole}
    (hrefers : ∀ a b, g.Refers a b ↔ Refers readings a b) : g.Acyclic ↔ Acyclic readings := by
  have heq : g.Refers = Refers readings := funext fun a => funext fun b => propext (hrefers a b)
  rw [Dependencies.Acyclic, Acyclic, heq]

/-- What holds of a value whenever it holds of the values that its template refers to, holds of all
resolved values. -/
theorem Resolved.induction {readings : List Reading} (hr : Readable readings)
    (hgood : ∀ p ∈ allHoles readings, WellTargeted readings p.2) (hacyclic : Acyclic readings)
    {values : Values} (hv : Resolved readings values) {P : Slot → Data → Prop}
    (step : ∀ s t d, templateAt readings s = .ok t → t.fill (targetValue values) = .ok d →
      (∀ h, t.HasHole h → ∃ c, targetValue values h.reference = .ok c ∧ P (slotOf h.reference) c) →
      P s d) : ∀ s d, (s, d) ∈ values → P s d := by
  -- the induction is along the graph, from the slots without targets on
  obtain ⟨g, -, hg, hslots, hrefers⟩ := exists_dependencies hr hgood
  have key : ∀ s ∈ g.slots, ∀ d, (s, d) ∈ values → P s d := by
    refine ((acyclic_iff hrefers).mpr hacyclic).induction hg fun s _ ih d hd => ?_
    obtain ⟨t, ht, hfill⟩ := hv.filled _ hd
    refine step s t d ht hfill fun h hh => ?_
    -- a hole of the template stands for a value that the claim holds of already
    have hin := mem_allHoles_of_templateAt hr ht hh
    have hslot := (hv.mem_iff _).mpr (hgood _ hin).slotOf_mem
    obtain ⟨p, hp, hps⟩ := List.mem_map.mp hslot
    have hvalue : (slotOf h.reference, p.2) ∈ values := hps ▸ hp
    exact ⟨p.2, (valueAt_eq_ok hv.nodup).mpr hvalue,
      ih _ ((hrefers _ _).mpr ⟨h, hin, rfl⟩) _ hvalue⟩
  intro s d hd
  exact key s ((hslots s).mpr ((hv.mem_iff s).mp (List.mem_map_of_mem hd))) d hd

/-- The data of the template of a slot is its value. -/
theorem Resolved.valueAt_eq {readings : List Reading} (hr : Readable readings) {values : Values}
    (hv : Resolved readings values) {s : Slot} {t : Template} {d : Data}
    (ht : templateAt readings s = .ok t) (hfill : t.fill (targetValue values) = .ok d) :
    valueAt values s = .ok d := by
  obtain ⟨r, hmem, hid, hmode⟩ := (templateAt_eq_ok hr).mp ht
  have hslot : s ∈ readings.flatMap slotsOf :=
    mem_flatMap_slotsOf.mpr ⟨r, hmem, hid, List.mem_map_of_mem hmode⟩
  obtain ⟨q, hq, rfl⟩ := List.mem_map.mp ((hv.mem_iff s).mpr hslot)
  obtain ⟨u, hu, hother⟩ := hv.filled q hq
  obtain rfl : t = u := Except.ok.inj (ht.symm.trans hu)
  rw [(valueAt_eq_ok hv.nodup).mpr hq, ← hother, hfill]

/-- Without cycles values are resolved in one way only. -/
theorem Resolved.unique {readings : List Reading} (hr : Readable readings)
    (hgood : ∀ p ∈ allHoles readings, WellTargeted readings p.2) (hacyclic : Acyclic readings)
    {values others : Values} (hv : Resolved readings values) (ho : Resolved readings others)
    {s : Slot} (hs : s ∈ readings.flatMap slotsOf) : valueAt values s = valueAt others s := by
  obtain ⟨p, hp, rfl⟩ := List.mem_map.mp ((hv.mem_iff s).mpr hs)
  rw [(valueAt_eq_ok hv.nodup).mpr hp, eq_comm]
  refine hv.induction hr hgood hacyclic (P := fun s d => valueAt others s = .ok d) ?_ p.1 p.2 hp
  intro s t d ht hfill htargets
  -- the targets have the same values, so the template has the same data
  refine ho.valueAt_eq hr ht ?_
  rw [← hfill]
  refine Template.fill_congr fun h hh => ?_
  obtain ⟨c, hc, hother⟩ := htargets h hh
  rw [hc, targetValue, hother]

/-- Without cycles, and with all references well targeted, all values are resolved along the order
of references. -/
theorem exists_resolved {readings : List Reading} (hr : Readable readings)
    {g : Dependencies Hole} (hg : g.WellFormed)
    (hslots : ∀ s, s ∈ g.slots ↔ s ∈ readings.flatMap slotsOf)
    (hrefers : ∀ a b, g.Refers a b ↔ Refers readings a b) (hacyclic : Acyclic readings) :
    ∃ values, (g.order >>= fillAll readings) = .ok values ∧ Resolved readings values := by
  obtain ⟨order, horder, hperm, harranged⟩ :=
    Dependencies.exists_order hg ((acyclic_iff hrefers).mpr hacyclic)
  have hnodup : order.reverse.Nodup := List.nodup_reverse.mpr (hperm.nodup_iff.mpr hg.slots_nodup)
  have hmem : ∀ s, s ∈ order.reverse ↔ s ∈ readings.flatMap slotsOf := fun s => by
    rw [List.mem_reverse, hperm.mem_iff, hslots]
  obtain ⟨values, hfill, hkeys, hfilled⟩ :=
    exists_fillAll hr hrefers harranged hnodup fun s hs => (hmem s).mp hs
  -- filling goes along the order, from the first slot to the last
  rw [List.reverse_reverse] at hfill
  exact ⟨values, by rw [horder]; exact hfill, hkeys ▸ hnodup, fun s => hkeys ▸ hmem s, hfilled⟩

/-! ## Resolving -/

/-- The renditions of a value; only colours have them. -/
def variantsOf (type : TokenType) (d : Data) : Except Fault (Members Data) :=
  if type = .color then Color.variants d else .ok []

/-- The entry of a value with renditions: a reference as a whole, or else the references inside. -/
def entryOf (t : Template) (d : Data) (variants : Members Data) : Entry :=
  match t with
  | .hole h => ⟨d, none, some h.reference, variants⟩
  | t => ⟨d, t.references?, none, variants⟩

theorem reference_entryOf {t : Template} {d : Data} {v : Members Data} {r : Reference}
    (h : (entryOf t d v).reference = some r) :
    (entryOf t d v).references = none ∧ ∃ g, t = .hole g ∧ g.reference = r := by
  cases t with
  | hole g => exact ⟨rfl, g, rfl, Option.some.inj h⟩
  | _ => simp [entryOf] at h

theorem references_entryOf {t : Template} {d : Data} {v : Members Data} {tree : ReferenceTree}
    (h : (entryOf t d v).references = some tree) :
    t.references? = some tree ∧ ∀ g, t ≠ .hole g := by
  cases t with
  | hole g => simp [entryOf] at h
  | _ => exact ⟨h, by simp⟩

@[simp] theorem value_entryOf (t : Template) (d : Data) (v : Members Data) :
    (entryOf t d v).value = d := by
  cases t <;> rfl

/-- An entry needs the renditions of its value, and nothing else can be missing. -/
theorem entry_eq (type : TokenType) (t : Template) (d : Data) :
    entry type t d = (do return entryOf t d (← variantsOf type d)) := by
  unfold entry variantsOf entryOf
  by_cases hcolor : type = .color <;> cases t <;> simp [hcolor]

theorem entry_eq_ok {type : TokenType} {t : Template} {d : Data} {e : Entry} :
    entry type t d = .ok e ↔ ∃ v, variantsOf type d = .ok v ∧ e = entryOf t d v := by
  rw [entry_eq]
  simp only [bind_eq_ok, pure_eq_ok, eq_comm (a := e)]

/-- The entry of one mode of a token. -/
def modeEntry (values : Values) (id : String) (type : TokenType) (p : String × Template) :
    Except Fault (String × Entry) := do
  return (p.1, ← entry type p.2 (← valueAt values ⟨id, p.1⟩))

/-- The entry of a mode is that of the value of its slot. -/
theorem modeEntry_eq_ok {values : Values} {id : String} {type : TokenType}
    {p : String × Template} {q : String × Entry} :
    modeEntry values id type p = .ok q ↔
      ∃ d, valueAt values ⟨id, p.1⟩ = .ok d ∧ ∃ v, variantsOf type d = .ok v ∧
        q = (p.1, entryOf p.2 d v) := by
  simp only [modeEntry, bind_eq_ok, pure_eq_ok, entry_eq_ok]
  constructor
  · rintro ⟨d, hd, e, ⟨v, hv, rfl⟩, rfl⟩
    exact ⟨d, hd, v, hv, rfl⟩
  · rintro ⟨d, hd, v, hv, rfl⟩
    exact ⟨d, hd, _, ⟨v, hv, rfl⟩, rfl⟩

/-- The token of a draft with a type and entries. -/
def finish (d : Draft) (type : TokenType) (modes : Members Entry) : Token where
  id := d.id
  type := type
  modes := modes
  group := d.group
  span := d.node.span
  description := d.description
  extensions := d.extensions

/-- A token has the entries of its modes, and everything else from its draft. -/
theorem token_eq {values : Values} {r : Reading} {type : TokenType}
    (h : r.draft.type = some type) :
    token values r = finish r.draft type <$> r.values.mapM (modeEntry values r.draft.id type) := by
  unfold token
  rw [h]
  rfl

def tableOf (values : Values) (readings : List Reading) (groups : List Group) :
    Except Fault Table := do
  let tokens ← readings.mapM (token values)
  return ⟨tokens.map fun t => (t.id, t), groups.map fun g => (g.id, g)⟩

/-- Only the values of the slots of readings matter for their table. -/
theorem tableOf_congr {values others : Values} {readings : List Reading} (hr : Readable readings)
    {groups : List Group}
    (h : ∀ s ∈ readings.flatMap slotsOf, valueAt values s = valueAt others s) :
    tableOf values readings groups = tableOf others readings groups := by
  unfold tableOf
  congr 1
  refine mapM_congr fun r hmem => ?_
  obtain ⟨type, htype⟩ := hr.typed r hmem
  rw [token_eq htype, token_eq htype]
  congr 1
  refine mapM_congr fun p hp => ?_
  rw [modeEntry, modeEntry, h]
  exact mem_flatMap_slotsOf.mpr ⟨r, hmem, rfl, List.mem_map_of_mem hp⟩

/-- Well-targeted references without cycles are resolved, and what is left is to make the table. -/
theorem resolve_eq_tableOf {readings : List Reading} (hr : Readable readings)
    (hgood : ∀ p ∈ allHoles readings, WellTargeted readings p.2) (hacyclic : Acyclic readings)
    (groups : List Group) :
    ∃ values, Resolved readings values ∧
      resolve readings groups = orFault (tableOf values readings groups) := by
  obtain ⟨g, hdeps, hg, hslots, hrefers⟩ := exists_dependencies hr hgood
  obtain ⟨values, hfill, hv⟩ := exists_resolved hr hg hslots hrefers hacyclic
  -- there is no cycle to report, so the order is taken
  have hcycle : g.findCycle = none :=
    (Dependencies.findCycle_eq_none_iff hg.contained).mpr ((acyclic_iff hrefers).mpr hacyclic)
  refine ⟨values, hv, ?_⟩
  have hsplit : resolve readings groups = (do
      let values ← orFault (g.order >>= fillAll readings)
      let tokens ← orFault (readings.mapM (token values))
      return ⟨tokens.map fun t => (t.id, t), groups.map fun g => (g.id, g)⟩) := by
    rw [resolve, hdeps]
    simp only [bind, Except.bind, hcycle]
  rw [hsplit, hfill, tableOf]
  simp only [orFault, Except.mapError, bind, Except.bind]
  cases readings.mapM (token values) <;> rfl

/-- The first hole that is not well targeted is reported, with what is wrong with it. -/
theorem resolve_of_bad {readings : List Reading} (hr : Readable readings) (groups : List Group)
    {before after : List (Slot × Hole)} {s : Slot} {h : Hole}
    (hsplit : allHoles readings = before ++ (s, h) :: after)
    (hbefore : ∀ p ∈ before, WellTargeted readings p.2) (hbad : ¬ WellTargeted readings h) :
    ∃ problem, resolve readings groups = failAt problem h ∧ Misses readings s.token h problem := by
  obtain ⟨problem, hdeps, hmiss⟩ := dependencies_eq_error hr hsplit hbefore hbad
  exact ⟨problem, by rw [resolve, hdeps]; rfl, hmiss⟩

/-- A cycle of well-targeted references is reported as one. -/
theorem resolve_of_cycle {readings : List Reading} (hr : Readable readings) (groups : List Group)
    (hgood : ∀ p ∈ allHoles readings, WellTargeted readings p.2)
    (hcycle : ¬ Acyclic readings) :
    ∃ cycle h, resolve readings groups = failAt (.circular cycle) h := by
  obtain ⟨g, hdeps, hg, -, hrefers⟩ := exists_dependencies hr hgood
  have hsome : g.findCycle ≠ none := by
    rwa [ne_eq, Dependencies.findCycle_eq_none_iff hg.contained, acyclic_iff hrefers]
  obtain ⟨⟨cycle, h⟩, hfound⟩ := Option.ne_none_iff_exists'.mp hsome
  refine ⟨cycle.map Slot.label, h, ?_⟩
  rw [resolve, hdeps]
  simp only [bind, Except.bind, hfound]

/-- Not all holes are well targeted exactly when there is a first one that is not. -/
theorem exists_first_bad {readings : List Reading}
    (h : ¬ ∀ p ∈ allHoles readings, WellTargeted readings p.2) :
    ∃ before s hole after, allHoles readings = before ++ (s, hole) :: after ∧
      (∀ p ∈ before, WellTargeted readings p.2) ∧ ¬ WellTargeted readings hole := by
  classical
  generalize allHoles readings = holes at h ⊢
  induction holes with
  | nil => simp at h
  | cons p holes ih =>
    by_cases hp : WellTargeted readings p.2
    · -- the first hole is fine, so the bad one is among the others
      have hrest : ¬ ∀ q ∈ holes, WellTargeted readings q.2 := by
        intro hall
        exact h fun q hq => (List.mem_cons.mp hq).elim (fun hqp => hqp ▸ hp) (hall q)
      obtain ⟨before, s, hole, after, rfl, hbefore, hbad⟩ := ih hrest
      refine ⟨p :: before, s, hole, after, rfl, ?_, hbad⟩
      intro q hq
      rcases List.mem_cons.mp hq with rfl | hq
      · exact hp
      · exact hbefore q hq
    · exact ⟨[], p.1, p.2, holes, rfl, by simp, hp⟩

/-- A table comes from well-targeted references without cycles, by way of the resolved values. -/
theorem resolve_eq_ok {readings : List Reading} (hr : Readable readings) {groups : List Group}
    {t : Table} :
    resolve readings groups = .ok t ↔
      (∀ p ∈ allHoles readings, WellTargeted readings p.2) ∧ Acyclic readings ∧
        ∃ values, Resolved readings values ∧ tableOf values readings groups = .ok t := by
  constructor
  · intro ht
    by_cases hgood : ∀ p ∈ allHoles readings, WellTargeted readings p.2
    · by_cases hacyclic : Acyclic readings
      · obtain ⟨values, hv, hresolve⟩ := resolve_eq_tableOf hr hgood hacyclic groups
        rw [hresolve, orFault, mapError_eq_ok] at ht
        exact ⟨hgood, hacyclic, values, hv, ht⟩
      · obtain ⟨cycle, h, hfail⟩ := resolve_of_cycle hr groups hgood hacyclic
        rw [hfail] at ht
        exact absurd ht (by simp [failAt])
    · obtain ⟨before, s, h, after, hsplit, hbefore, hbad⟩ := exists_first_bad hgood
      obtain ⟨problem, hfail, -⟩ := resolve_of_bad hr groups hsplit hbefore hbad
      rw [hfail] at ht
      exact absurd ht (by simp [failAt])
  · rintro ⟨hgood, hacyclic, values, hv, ht⟩
    -- the values that are found are the given ones
    obtain ⟨others, ho, hresolve⟩ := resolve_eq_tableOf hr hgood hacyclic groups
    rw [hresolve, orFault, mapError_eq_ok, ← ht]
    exact tableOf_congr hr fun s hs => ho.unique hr hgood hacyclic hv hs

end DesignTokens.Resolution
