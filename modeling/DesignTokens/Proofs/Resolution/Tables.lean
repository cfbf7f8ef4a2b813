import DesignTokens.Proofs.Resolution.Values

/-!
# Looking things up in a table

A table of readings has the token of every reading under its path, the entry of every mode under
its name, and what a reference stands for in it is the resolved value of the slot.
-/

namespace DesignTokens.Resolution

open Outcome

variable {values : Values} {readings : List Reading} {groups : List Group} {t : Table}

theorem tableOf_eq_ok :
    tableOf values readings groups = .ok t ↔
      ∃ tokens, List.Forall₂ (fun r tok => token values r = .ok tok) readings tokens ∧
        t = ⟨tokens.map fun tok => (tok.id, tok), groups.map fun g => (g.id, g)⟩ := by
  simp only [tableOf, bind_eq_ok, pure_eq_ok, mapM_eq_ok_iff, eq_comm (a := t)]

theorem token_eq_ok {r : Reading} {type : TokenType} (htype : r.draft.type = some type)
    {tok : Token} :
    token values r = .ok tok ↔
      ∃ modes, List.Forall₂ (fun p q => modeEntry values r.draft.id type p = .ok q) r.values modes ∧
        tok = finish r.draft type modes := by
  simp only [token_eq htype, map_eq_ok, mapM_eq_ok_iff, eq_comm (a := tok)]

theorem id_of_token (hr : Readable readings) {r : Reading} (hmem : r ∈ readings) {tok : Token}
    (h : token values r = .ok tok) : tok.id = r.draft.id := by
  obtain ⟨type, htype⟩ := hr.typed r hmem
  obtain ⟨modes, -, rfl⟩ := (token_eq_ok htype).mp h
  rfl

/-- The paths of a table are those of the readings. -/
theorem names_tokens (hr : Readable readings) (ht : tableOf values readings groups = .ok t) :
    t.tokens.names = readings.map fun r => r.draft.id := by
  obtain ⟨tokens, htokens, rfl⟩ := tableOf_eq_ok.mp ht
  -- only readings of the list have tokens, and they keep their paths
  have key : ∀ (rs : List Reading) (tokens : List Token), (∀ r ∈ rs, r ∈ readings) →
      List.Forall₂ (fun r tok => token values r = .ok tok) rs tokens →
      tokens.map Token.id = rs.map fun r => r.draft.id := by
    intro rs tokens hsub h
    induction h with
    | nil => rfl
    | @cons r tok rs tokens hrt _ ih =>
      rw [List.map_cons, List.map_cons, id_of_token hr (hsub r List.mem_cons_self) hrt,
        ih fun r' h' => hsub r' (List.mem_cons_of_mem _ h')]
  rw [Members.names, List.map_map, ← key readings tokens (fun _ h => h) htokens]
  rfl

/-- A token of a table is that of a reading of its path. -/
theorem mem_tokens (hr : Readable readings) (ht : tableOf values readings groups = .ok t)
    {id : String} {tok : Token} :
    (id, tok) ∈ t.tokens ↔ ∃ r ∈ readings, r.draft.id = id ∧ token values r = .ok tok := by
  obtain ⟨tokens, htokens, rfl⟩ := tableOf_eq_ok.mp ht
  simp only [List.mem_map, Prod.mk.injEq]
  constructor
  · rintro ⟨tok', hmem, rfl, rfl⟩
    obtain ⟨r, hmem, hrt⟩ := exists_left htokens hmem
    exact ⟨r, hmem, (id_of_token hr hmem hrt).symm, hrt⟩
  · rintro ⟨r, hmem, rfl, hrt⟩
    obtain ⟨tok', hmem', hrt'⟩ := exists_right htokens hmem
    obtain rfl : tok = tok' := Except.ok.inj (hrt.symm.trans hrt')
    exact ⟨tok, hmem', id_of_token hr hmem hrt, rfl⟩

theorem token_lookup {t : Table} (h : t.tokens.names.Nodup) {id : String} {tok : Token} :
    t.token id = .ok tok ↔ (id, tok) ∈ t.tokens := by
  rw [← Members.get?_eq_some_iff h]
  unfold Table.token
  split <;> simp [*]

theorem entry_lookup {tok : Token} (h : tok.modes.names.Nodup) {mode : String} {e : Entry} :
    tok.entry mode = .ok e ↔ (mode, e) ∈ tok.modes := by
  rw [← Members.get?_eq_some_iff h]
  unfold Token.entry
  split <;> simp [*]

theorem names_modes {r : Reading} {type : TokenType} {modes : Members Entry}
    (h : List.Forall₂ (fun p q => modeEntry values r.draft.id type p = .ok q) r.values modes) :
    modes.names = r.values.names := by
  rw [Members.names, Members.names]
  refine map_eq_map_of_mapM (fun p q hq => ?_) (mapM_eq_ok_iff.mpr h)
  obtain ⟨d, -, v, -, rfl⟩ := modeEntry_eq_ok.mp hq
  rfl

/-- An entry of a table: the reading of its token, and the template and the resolved value of its
mode. -/
theorem entry_spec (hr : Readable readings) (ht : tableOf values readings groups = .ok t)
    {id mode : String} {tok : Token} {e : Entry} (htok : (id, tok) ∈ t.tokens)
    (he : (mode, e) ∈ tok.modes) :
    ∃ r ∈ readings, r.draft.id = id ∧ r.draft.type = some tok.type ∧
      ∃ template, (mode, template) ∈ r.values ∧
        ∃ d, valueAt values ⟨id, mode⟩ = .ok d ∧
          ∃ v, variantsOf tok.type d = .ok v ∧ e = entryOf template d v := by
  obtain ⟨r, hmem, rfl, hrt⟩ := (mem_tokens hr ht).mp htok
  obtain ⟨type, htype⟩ := hr.typed r hmem
  obtain ⟨modes, hmodes, rfl⟩ := (token_eq_ok htype).mp hrt
  obtain ⟨p, hp, hentry⟩ := exists_left hmodes he
  obtain ⟨d, hd, v, hv, heq⟩ := modeEntry_eq_ok.mp hentry
  obtain ⟨rfl, rfl⟩ := Prod.mk.inj heq
  exact ⟨r, hmem, rfl, htype, p.2, hp, d, hd, v, hv, rfl⟩

/-- Every value of a reading has its entry in the table. -/
theorem exists_entry (hr : Readable readings) (ht : tableOf values readings groups = .ok t)
    {r : Reading} (hmem : r ∈ readings) {mode : String} (hmode : mode ∈ r.values.names) :
    ∃ tok, t.token r.draft.id = .ok tok ∧ r.draft.type = some tok.type ∧
      ∃ e, tok.entry mode = .ok e ∧ valueAt values ⟨r.draft.id, mode⟩ = .ok e.value := by
  obtain ⟨tokens, htokens, -⟩ := tableOf_eq_ok.mp ht
  obtain ⟨tok, -, hrt⟩ := exists_right htokens hmem
  obtain ⟨type, htype⟩ := hr.typed r hmem
  have hnames : t.tokens.names.Nodup := names_tokens hr ht ▸ hr.ids_nodup
  refine ⟨tok, (token_lookup hnames).mpr ((mem_tokens hr ht).mpr ⟨r, hmem, rfl, hrt⟩), ?_⟩
  obtain ⟨modes, hmodes, rfl⟩ := (token_eq_ok htype).mp hrt
  obtain ⟨p, hp, rfl⟩ := List.mem_map.mp hmode
  obtain ⟨q, hq, hentry⟩ := exists_right hmodes hp
  obtain ⟨d, hd, v, hv, rfl⟩ := modeEntry_eq_ok.mp hentry
  -- the modes are distinct, so the entry is found by its mode
  have hmodesnames : (Members.names modes).Nodup := names_modes hmodes ▸ hr.modes_nodup r hmem
  refine ⟨htype, entryOf p.2 d v, (entry_lookup hmodesnames).mpr hq, ?_⟩
  rw [hd, value_entryOf]

/-- What a reference stands for in a table is the resolved value of its slot. -/
theorem target_eq (hr : Readable readings) (ht : tableOf values readings groups = .ok t)
    {r : Reading} (hmem : r ∈ readings) {reference : Reference}
    (hid : r.draft.id = reference.target) (hmode : reference.mode ∈ r.values.names) :
    t.target reference = targetValue values reference := by
  obtain ⟨tok, htok, -, e, he, hvalue⟩ := exists_entry hr ht hmem hmode
  rw [targetValue, slotOf, ← hid, hvalue, Table.target, ← hid, htok]
  simp [bind, Except.bind, he, pure, Except.pure]

end DesignTokens.Resolution
