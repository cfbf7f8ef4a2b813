import DesignTokens.Proofs.Css.Declarations
import DesignTokens.Proofs.Resolution.Links
import DesignTokens.Proofs.Tree.OfData
import Mathlib.Data.List.Pairwise
import Mathlib.Data.Set.Pairwise.List

/-!
# Names of custom properties

Different paths can lead to one name, and so can different properties of one font.  The block of the
default mode declares every custom property once and with its own value exactly when no two names
meet (`block_names_iff`); this is so when no name continues another one behind a hyphen
(`namesApart_of_prefixFree`).
-/

namespace DesignTokens.Css

open Outcome Output Resolution

/-! ## Names within a token -/

/-- The names that a token declares for its default mode. -/
def Options.tokenNames (o : Options) (tok : Token) : List String :=
  if o.declares tok.id then
    tok.modes.flatMap fun m =>
      if m.1 = defaultMode then
        (entryParts tok.type m.2).map (partName (variableName tok.id))
      else []
  else []

/-- What is kept of lists one after the other is kept of each of them. -/
theorem filter_map_flatten {α β γ : Type} {R : α → List β → Prop} {keep : β → Bool} {name : β → γ}
    {names : α → List γ} (hR : ∀ a l, R a l → (l.filter keep).map name = names a) {as : List α}
    {ls : List (List β)} (h : List.Forall₂ R as ls) :
    (ls.flatten.filter keep).map name = as.flatMap names := by
  induction h with
  | nil => rfl
  | cons hl _ ih =>
    rw [List.flatten_cons, List.filter_append, List.map_append, ih, List.flatMap_cons, hR _ _ hl]

theorem names_tokenDeclarations (o : Options) {tok : Token} {ds : List Declaration}
    (h : tokenDeclarations tok = .ok ds) :
    (ds.filter (o.shows defaultMode)).map (Declaration.name variableName) = o.tokenNames tok := by
  simp only [tokenDeclarations, bind_eq_ok, pure_eq_ok, mapM_eq_ok_iff] at h
  obtain ⟨perMode, hmodes, rfl⟩ := h
  rw [Options.tokenNames]
  by_cases hdeclares : o.declares tok.id = true
  · rw [if_pos hdeclares]
    refine filter_map_flatten ?_ hmodes
    rintro ⟨mode, e⟩ l ⟨ps, hps, rfl⟩
    rw [List.filter_map, List.map_map]
    by_cases hdefault : mode = defaultMode
    · rw [if_pos hdefault, ← parts_entryProperties hps, List.map_map]
      refine congrArg _ (List.filter_congr fun p _ => ?_)
      simp [Options.shows, hdeclares, hdefault]
    · simp [Options.shows, hdefault, eq_comm (a := defaultMode)]
  · have hnone : ∀ d ∈ perMode.flatten, ¬ o.shows defaultMode d = true := by
      intro d hd hshows
      obtain ⟨l, hl, hd⟩ := List.mem_flatten.mp hd
      obtain ⟨m, -, ps, -, rfl⟩ := exists_left hmodes hl
      obtain ⟨p, -, rfl⟩ := List.mem_map.mp hd
      exact hdeclares (Options.shows_iff.mp hshows).2.2
    rw [if_neg hdeclares, List.filter_eq_nil_iff.mpr hnone, List.map_nil]

/-- The names of a block are those of the tokens one after the other. -/
theorem names_tableDeclarations (o : Options) {t : Table} {ds : List Declaration}
    (h : tableDeclarations t = .ok ds) :
    (ds.filter (o.shows defaultMode)).map (Declaration.name variableName) =
      t.tokens.flatMap fun p => o.tokenNames p.2 := by
  obtain ⟨perToken, htokens, rfl⟩ := exists_tokenDeclarations h
  exact filter_map_flatten (fun p l hl => names_tokenDeclarations o hl) htokens

/-! ## Names across tokens -/

/-- No two custom properties of the default mode have one name: the properties of one font have
different names, and a name of one token is none of another token. -/
structure NamesApart (o : Options) (t : Table) : Prop where
  within : ∀ p ∈ t.tokens, o.declares p.1 = true → ∀ e, (defaultMode, e) ∈ p.2.modes →
    (entryParts p.2.type e).Nodup
  across : ∀ p ∈ t.tokens, ∀ q ∈ t.tokens, p.1 ≠ q.1 → o.declares p.1 = true →
    o.declares q.1 = true → ∀ e f, (defaultMode, e) ∈ p.2.modes → (defaultMode, f) ∈ q.2.modes →
    ∀ a ∈ entryParts p.2.type e, ∀ b ∈ entryParts q.2.type f,
      partName (variableName p.1) a ≠ partName (variableName q.1) b

/-- Among members with distinct names only one has a given name. -/
theorem flatMap_eq_of_nodup {α β : Type} {m : Members α} (h : m.names.Nodup) {name : String} {a : α}
    (ha : (name, a) ∈ m) (f : α → List β) :
    (m.flatMap fun p => if p.1 = name then f p.2 else []) = f a := by
  induction m with
  | nil => exact absurd ha List.not_mem_nil
  | cons p m ih =>
    obtain ⟨hnot, hnodup⟩ := List.nodup_cons.mp h
    rw [List.flatMap_cons]
    rcases List.mem_cons.mp ha with rfl | ha
    · have hnone : ∀ q ∈ m, (if q.1 = name then f q.2 else []) = [] := by
        intro q hq
        refine if_neg fun hname : q.1 = name => hnot ?_
        exact List.mem_map.mpr ⟨q, hq, hname⟩
      rw [if_pos rfl, List.flatMap_eq_nil_iff.mpr hnone, List.append_nil]
    · rw [if_neg fun hname : p.1 = name => hnot (hname ▸ List.mem_map_of_mem ha), List.nil_append,
        ih hnodup ha]

section

variable {t : Table} (hl : Linked t) {o : Options}

include hl

theorem tokenNames_eq {p : String × Token} (hp : p ∈ t.tokens) {e : Entry}
    (he : (defaultMode, e) ∈ p.2.modes) :
    o.tokenNames p.2 = if o.declares p.1 then
      (entryParts p.2.type e).map (partName (variableName p.1)) else [] := by
  rw [Options.tokenNames, hl.id_eq p hp,
    flatMap_eq_of_nodup (hl.modes_nodup p hp) he fun e =>
      (entryParts p.2.type e).map (partName (variableName p.1))]

/-- The names of a block are distinct when they are apart within tokens and across them. -/
theorem nodup_names_iff :
    (t.tokens.flatMap fun p => o.tokenNames p.2).Nodup ↔ NamesApart o t := by
  have hnodup : t.tokens.Nodup := List.Nodup.of_map _ hl.ids_nodup
  have hsymm : Std.Symm (Function.onFun List.Disjoint fun p : String × Token => o.tokenNames p.2) :=
    ⟨fun _ _ h => h.symm⟩
  rw [List.nodup_flatMap, ← hnodup.pairwise_coe]
  constructor
  · rintro ⟨hwithin, hacross⟩
    refine ⟨fun p hp hdeclares e he => ?_, ?_⟩
    · have h := hwithin p hp
      rw [tokenNames_eq hl hp he, if_pos hdeclares] at h
      exact h.of_map
    · intro p hp q hq hne hpd hqd e f he hf a ha b hb heq
      have h : List.Disjoint (o.tokenNames p.2) (o.tokenNames q.2) :=
        hacross hp hq fun h => hne (congrArg Prod.fst h)
      rw [tokenNames_eq hl hp he, tokenNames_eq hl hq hf, if_pos hpd, if_pos hqd] at h
      exact h (List.mem_map_of_mem ha) (heq ▸ List.mem_map_of_mem hb)
  · rintro ⟨hwithin, hacross⟩
    refine ⟨fun p hp => ?_, fun p hp q hq hne => ?_⟩
    · obtain ⟨e, he⟩ := hl.default p hp
      rw [tokenNames_eq hl hp he]
      split
      · rename_i hdeclares
        exact (hwithin p hp hdeclares e he).map (partName_injective _)
      · exact List.nodup_nil
    · obtain ⟨e, he⟩ := hl.default p hp
      obtain ⟨f, hf⟩ := hl.default q hq
      -- distinct tokens have distinct paths
      have hid : p.1 ≠ q.1 := fun h => hne (List.inj_on_of_nodup_map hl.ids_nodup hp hq h)
      show List.Disjoint (o.tokenNames p.2) (o.tokenNames q.2)
      rw [tokenNames_eq hl hp he, tokenNames_eq hl hq hf]
      split <;> split
      · rename_i hpd hqd
        intro name hname hname'
        obtain ⟨a, ha, rfl⟩ := List.mem_map.mp hname
        obtain ⟨b, hb, heq⟩ := List.mem_map.mp hname'
        exact hacross p hp q hq hid hpd hqd e f he hf a ha b hb heq.symm
      all_goals simp

end

/-! ## Names that continue each other -/

/-- Names are apart when no name of a token is that of another one, or continues it behind a hyphen,
and the properties of each font have different names. -/
theorem namesApart_of_prefixFree {o : Options} {t : Table}
    (hfree : ∀ p ∈ t.tokens, ∀ q ∈ t.tokens, p.1 ≠ q.1 → o.declares p.1 = true →
      o.declares q.1 = true →
      ¬ (variableName p.1 ++ "-").toList <+: (variableName q.1 ++ "-").toList)
    (hwithin : ∀ p ∈ t.tokens, o.declares p.1 = true → ∀ e, (defaultMode, e) ∈ p.2.modes →
      (entryParts p.2.type e).Nodup) :
    NamesApart o t := by
  refine ⟨hwithin, fun p hp q hq hne hpd hqd e f _ _ a _ b _ heq => ?_⟩
  -- both names begin the name that they lead to, so one of them begins the other
  have hbegins (own : String) (part : Option String) :
      (own ++ "-").toList <+: (partName own part ++ "-").toList := by
    cases part with
    | none => exact List.prefix_rfl
    | some part =>
      refine ⟨(part ++ "-").toList, ?_⟩
      simp [partName, String.toList_append]
  rcases List.prefix_or_prefix_of_prefix (hbegins (variableName p.1) a)
    (heq ▸ hbegins (variableName q.1) b) with hprefix | hprefix
  · exact hfree p hp q hq hne hpd hqd hprefix
  · exact hfree q hq p hp hne.symm hqd hpd hprefix

/-! ## The block of the default mode -/

/-- The name of the custom property that a line declares. -/
def declaredName : Item → Option String
  | .declaration name _ => some name
  | .block _ _ => none

/-- In the style sheet of a document with distinct keys the block of the default mode declares no
custom property twice, and every custom property of a token that is not excluded has a line with its
own value, exactly when no two of them have one name. -/
theorem block_names_iff {d : Document} (hd : d.root.WellKeyed) {t : Table} (ht : d.table = .ok t)
    {ds : List Declaration} (hds : tableDeclarations t = .ok ds) {o : Options}
    (hnaming : o.naming = variableName) :
    let lines := o.block (sheetStore [o] ds) defaultMode
    (∃ others, build [plugin o] t =
      .ok [⟨o.filename, sheetText (.block rootSelector lines :: others)⟩]) ∧
    ((lines.map declaredName).Nodup ∧
        lines = (ds.filter (o.shows defaultMode)).map (Declaration.item variableName) ↔
      NamesApart o t) := by
  have hl := exists_linked hd ht
  refine ⟨⟨_, build_single o hds⟩, ?_⟩
  rw [← nodup_names_iff hl, ← names_tableDeclarations o hds]
  have hname : (fun d => declaredName (Declaration.item variableName d)) =
      some ∘ Declaration.name variableName := rfl
  constructor
  · rintro ⟨hnodup, hlines⟩
    rw [hlines, List.map_map, Function.comp_def, hname, ← List.map_map] at hnodup
    exact hnodup.of_map
  · intro hnodup
    rw [← hnaming] at hnodup
    have hlines := block_eq (hnaming ▸ variableName_ne_empty) hnodup
    rw [hnaming] at hnodup hlines
    refine ⟨?_, hlines⟩
    rw [hlines, List.map_map, Function.comp_def, hname, ← List.map_map]
    exact hnodup.map (Option.some_injective _)

/-- A document with a number, and with another one in a group `a`. -/
def inGroup (outside inside : String) : Document where
  root := (Data.object [
    (outside, .object [("$type", .text "number"), ("$value", .int 1)]),
    ("a", .object [(inside, .object [("$type", .text "number"), ("$value", .int 2)])])]).tree
  source := ""
  format := .data
  filename := Document.dataName

/-- For instance, `a-b` and `a.c` have different names, and both of them are declared. -/
theorem block_names_apart : ∃ t ds, (inGroup "a-b" "c").root.WellKeyed ∧
    (inGroup "a-b" "c").table = .ok t ∧ tableDeclarations t = .ok ds ∧ NamesApart .standard t ∧
    let lines := Options.standard.block (sheetStore [.standard] ds) defaultMode
    (lines.map declaredName).Nodup ∧
      lines = (ds.filter (Options.standard.shows defaultMode)).map (Declaration.item variableName) := by
  have hkeyed : (inGroup "a-b" "c").root.WellKeyed := by decide +kernel
  obtain ⟨t, ds, ht, hds, hnames⟩ := exists_declared (inGroup "a-b" "c") (fun t _ =>
    (t.tokens.flatMap fun p => Options.standard.tokenNames p.2).Nodup) (by decide +kernel)
  have hapart : NamesApart .standard t := (nodup_names_iff (exists_linked hkeyed ht)).mp hnames
  exact ⟨t, ds, hkeyed, ht, hds, hapart, (block_names_iff hkeyed ht hds rfl).2.mpr hapart⟩

/-- The names of `a-b` and `a.b` are the same, and it is declared twice. -/
theorem declared_twice : ∃ t ds, (inGroup "a-b" "b").root.WellKeyed ∧
    (inGroup "a-b" "b").table = .ok t ∧ tableDeclarations t = .ok ds ∧
    (Options.standard.block (sheetStore [.standard] ds) defaultMode).map declaredName =
      [some "--a-b", some "--a-b"] := by
  have hkeyed : (inGroup "a-b" "b").root.WellKeyed := by decide +kernel
  obtain ⟨t, ds, ht, hds, htwice⟩ := exists_declared (inGroup "a-b" "b") (fun _ ds =>
    (Options.standard.block (sheetStore [.standard] ds) defaultMode).map declaredName =
      [some "--a-b", some "--a-b"]) (by decide +kernel)
  exact ⟨t, ds, hkeyed, ht, hds, htwice⟩

end DesignTokens.Css
