import DesignTokens.Pipeline
import DesignTokens.Proofs.Css.Properties
import DesignTokens.Proofs.Output.Building
import DesignTokens.Proofs.Output.Store

/-!
# The declarations of style sheets

A style sheet declares custom properties of tokens in blocks, one for each mode that it shows.  What
stands in a block is known from the table (`mem_block`), and when no two custom properties of the
mode have one name, the block has all of them in the order of the table (`block_eq`).
-/

namespace DesignTokens.Css

open Outcome Output Output.Fragments

/-! ## Style sheets and their fragments -/

/-- Whether the custom properties of a token are declared. -/
def Options.declares (o : Options) (token : String) : Bool := !Text.fitsAny o.exclude token

/-- The store of several style sheets: each has set its fragments once. -/
def sheetStore (os : List Options) (ds : List Declaration) : Fragments :=
  os.foldl (fun store o => setAll (ds.map (Declaration.fragment o.naming)) store) []

theorem fragments_plugin (os : List Options) {t : Table} {ds : List Declaration}
    (hds : tableDeclarations t = .ok ds) :
    fragments (os.map plugin) t = .ok (sheetStore os ds) := by
  have key (store : Fragments) : (os.map plugin).foldlM (fun store p => do
      return setAll (← ofFault (p.fragments t)) store) store =
        (.ok (os.foldl (fun store o => setAll (ds.map (Declaration.fragment o.naming)) store) store) :
          Except Output.Problem Fragments) := by
    induction os generalizing store with
    | nil => rfl
    | cons o os ih =>
      rw [List.map_cons, List.foldlM_cons, List.foldl_cons]
      have hfragments : (plugin o).fragments t = .ok (ds.map (Declaration.fragment o.naming)) := by
        show tableFragments o.naming t = _
        rw [tableFragments, hds]
        rfl
      rw [hfragments]
      exact ih _
  exact key []

/-- A fault of a table is a fault of every style sheet. -/
theorem fragments_plugin_error {os : List Options} (hos : os ≠ []) {t : Table} {fault : Fault}
    (hds : tableDeclarations t = .error fault) :
    fragments (os.map plugin) t = .error (.fault fault) := by
  obtain ⟨o, os, rfl⟩ := List.exists_cons_of_ne_nil hos
  have hfragments : (plugin o).fragments t = .error fault := by
    show tableFragments o.naming t = _
    rw [tableFragments, hds]
    rfl
  rw [fragments, List.map_cons, List.foldlM_cons, hfragments]
  rfl

/-- The file of a style sheet. -/
def Options.file (o : Options) (store : Fragments) : File :=
  ⟨o.filename, sheetText (o.blocks store)⟩

/-- Style sheets with distinct names are written one after the other. -/
theorem build_plugin {os : List Options} (hnames : (os.map Options.filename).Nodup) {t : Table}
    {ds : List Declaration} (hds : tableDeclarations t = .ok ds) :
    build (os.map plugin) t = .ok (os.map fun o => o.file (sheetStore os ds)) := by
  rw [build_eq, fragments_plugin os hds]
  generalize sheetStore os ds = store
  have key (rest : List Options) (files : List File)
      (hnodup : (files.map File.name ++ rest.map Options.filename).Nodup) :
      (rest.map plugin).foldlM (addFiles t store) files =
        .ok (files ++ rest.map fun o => o.file store) := by
    induction rest generalizing files with
    | nil => rw [List.map_nil, List.foldlM_nil, List.map_nil, List.append_nil]; rfl
    | cons o rest ih =>
      -- no file has the name of the next one
      have hnew : files.any (·.name = (o.file store).name) = false := by
        rw [List.any_eq_false]
        intro f hf hname
        exact (List.nodup_append.mp hnodup).2.2 _ (List.mem_map_of_mem hf) _ List.mem_cons_self
          (of_decide_eq_true hname)
      have hfiles : (plugin o).files t store = .ok [o.file store] := rfl
      rw [List.map_cons, List.foldlM_cons, addFiles_single hfiles, addFile, hnew]
      show (rest.map plugin).foldlM _ (files ++ [o.file store]) = _
      rw [ih, List.append_assoc, List.map_cons, List.singleton_append]
      rwa [List.map_append, List.append_assoc]
  exact key os [] hnames

/-- A style sheet alone. -/
theorem build_single (o : Options) {t : Table} {ds : List Declaration}
    (hds : tableDeclarations t = .ok ds) :
    build [plugin o] t = .ok [o.file (sheetStore [o] ds)] := by
  have hnames : ([o].map Options.filename).Nodup := List.nodup_singleton _
  exact build_plugin hnames hds

/-! ## Names of parts -/

/-- Parts of one value have different names. -/
theorem partName_injective (own : String) : Function.Injective (partName own) := by
  have hlonger (part : String) : own ++ "-" ++ part ≠ own := fun h => by
    have hlength := congrArg String.length h
    simp only [String.length_append] at hlength
    have : "-".length = 1 := rfl
    omega
  intro a b h
  cases a with
  | none =>
    cases b with
    | none => rfl
    | some part => exact absurd h.symm (hlonger part)
  | some part =>
    cases b with
    | none => exact absurd h (hlonger part)
    | some part' => rw [(String.append_right_inj _).mp h]

/-! ## The declarations of a table -/

theorem mem_tokenDeclarations {tok : Token} {ds : List Declaration}
    (h : tokenDeclarations tok = .ok ds) {d : Declaration} :
    d ∈ ds ↔ d.token = tok.id ∧ ∃ e, (d.mode, e) ∈ tok.modes ∧
      ∃ ps, entryProperties tok.type e = .ok ps ∧ d.property ∈ ps := by
  simp only [tokenDeclarations, bind_eq_ok, pure_eq_ok, mapM_eq_ok_iff] at h
  obtain ⟨perMode, hmodes, rfl⟩ := h
  rw [List.mem_flatten]
  constructor
  · rintro ⟨l, hl, hd⟩
    obtain ⟨⟨mode, e⟩, he, ps, hps, rfl⟩ := exists_left hmodes hl
    obtain ⟨p, hp, rfl⟩ := List.mem_map.mp hd
    exact ⟨rfl, e, he, ps, hps, hp⟩
  · rintro ⟨htoken, e, he, ps, hps, hp⟩
    obtain ⟨l, hl, ps', hps', rfl⟩ := exists_right hmodes he
    obtain rfl : ps' = ps := Except.ok.inj (hps'.symm.trans hps)
    refine ⟨_, hl, List.mem_map.mpr ⟨d.property, hp, ?_⟩⟩
    cases d
    simp_all

theorem exists_tokenDeclarations {t : Table} {ds : List Declaration}
    (h : tableDeclarations t = .ok ds) :
    ∃ perToken, List.Forall₂ (fun p l => tokenDeclarations p.2 = .ok l) t.tokens perToken ∧
      ds = perToken.flatten := by
  simp only [tableDeclarations, bind_eq_ok, pure_eq_ok, mapM_eq_ok_iff] at h
  obtain ⟨perToken, htokens, rfl⟩ := h
  exact ⟨perToken, htokens, rfl⟩

/-- A table declares the custom properties of the entries of its tokens. -/
theorem mem_tableDeclarations {t : Table} {ds : List Declaration}
    (h : tableDeclarations t = .ok ds) {d : Declaration} :
    d ∈ ds ↔ ∃ p ∈ t.tokens, d.token = p.2.id ∧ ∃ e, (d.mode, e) ∈ p.2.modes ∧
      ∃ ps, entryProperties p.2.type e = .ok ps ∧ d.property ∈ ps := by
  obtain ⟨perToken, htokens, rfl⟩ := exists_tokenDeclarations h
  rw [List.mem_flatten]
  constructor
  · rintro ⟨l, hl, hd⟩
    obtain ⟨p, hp, hl⟩ := exists_left htokens hl
    exact ⟨p, hp, (mem_tokenDeclarations hl).mp hd⟩
  · rintro ⟨p, hp, hd⟩
    obtain ⟨l, hl, hpl⟩ := exists_right htokens hp
    exact ⟨l, hl, (mem_tokenDeclarations hpl).mpr hd⟩

/-- Every entry of a table with declarations has custom properties. -/
theorem exists_entryProperties {t : Table} {ds : List Declaration}
    (h : tableDeclarations t = .ok ds) {p : String × Token} (hp : p ∈ t.tokens)
    {m : String × Entry} (hm : m ∈ p.2.modes) : ∃ ps, entryProperties p.2.type m.2 = .ok ps := by
  obtain ⟨perToken, htokens, rfl⟩ := exists_tokenDeclarations h
  obtain ⟨l, -, hl⟩ := exists_right htokens hp
  simp only [tokenDeclarations, bind_eq_ok, pure_eq_ok, mapM_eq_ok_iff] at hl
  obtain ⟨perMode, hmodes, -⟩ := hl
  obtain ⟨_, -, ps, hps, -⟩ := exists_right hmodes hm
  exact ⟨ps, hps⟩

/-- What can be decided of the table of a document and of its declarations is found by computing
them. -/
theorem exists_declared (d : Document) (P : Table → List Declaration → Prop)
    [∀ t ds, Decidable (P t ds)]
    (h : (d.table.toOption.any fun t => (tableDeclarations t).toOption.any fun ds => P t ds) =
      true) :
    ∃ t ds, d.table = .ok t ∧ tableDeclarations t = .ok ds ∧ P t ds := by
  obtain ⟨t, ht, h⟩ := (Option.any_eq_true _ _).mp h
  obtain ⟨ds, hds, h⟩ := (Option.any_eq_true _ _).mp h
  exact ⟨t, ds, toOption_eq_some.mp ht, toOption_eq_some.mp hds, of_decide_eq_true h⟩

/-! ## Blocks -/

/-- The line that declares a custom property. -/
def Declaration.item (naming : Naming) (d : Declaration) : Item :=
  .declaration (d.name naming) (wordsText (d.words naming))

/-- Whether a style sheet shows a custom property in the block of a mode. -/
def Options.shows (o : Options) (mode : String) (d : Declaration) : Bool :=
  mode = d.mode && d.property.isCommon && o.declares d.token

theorem Options.shows_iff {o : Options} {mode : String} {d : Declaration} :
    o.shows mode d = true ↔
      d.mode = mode ∧ d.property.isCommon = true ∧ o.declares d.token = true := by
  simp [shows, eq_comm (a := mode), and_assoc]

/-- The lines of the block of a mode for all tokens. -/
def Options.block (o : Options) (store : Fragments) (mode : String) : List Item :=
  o.declarations (store.select ⟨format, none, some mode, none⟩)

theorem Options.rootBlock_eq (o : Options) (store : Fragments) :
    o.rootBlock store = .block rootSelector (o.block store defaultMode) := rfl

/-- The usual names are never empty. -/
theorem variableName_ne_empty (path : String) : variableName path ≠ "" := by
  unfold variableName
  simp

theorem name_fragment {naming : Naming} (hnamed : ∀ path, naming path ≠ "") (d : Declaration) :
    (d.fragment naming).name = d.name naming := by
  have hname : d.name naming ≠ "" := by
    unfold Declaration.name partName
    split <;> simp [hnamed]
  simp [Declaration.fragment, Fragment.nameOf, hname]

theorem declaration_fragment {naming : Naming} (hnamed : ∀ path, naming path ≠ "")
    (d : Declaration) : declaration (d.fragment naming) = d.item naming := by
  rw [declaration, name_fragment hnamed]
  rfl

theorem itemLines_map_declaration (indent : Nat) (fs : List Fragment) :
    itemLines indent (fs.map declaration) =
      fs.map fun f => indented indent (f.name ++ ": " ++ f.value ++ ";") := by
  induction fs with
  | nil => rfl
  | cons f fs ih =>
    rw [List.map_cons, declaration, itemLines, Item.lines, ih]
    rfl

/-- Whether a fragment is shown in the block of a mode. -/
def Options.showsFragment (o : Options) (mode : String) (f : Fragment) : Bool :=
  isCommon f && o.includes f && Query.accepts ⟨format, none, some mode, none⟩ f

theorem Options.block_eq_map (o : Options) (store : Fragments) (mode : String) :
    o.block store mode = (store.filter (o.showsFragment mode)).map declaration := by
  rw [block, declarations, select, List.filter_filter]
  rfl

theorem Options.showsFragment_of_key {o : Options} {mode : String} {f g : Fragment}
    (h : f.key = g.key) : o.showsFragment mode f = o.showsFragment mode g := by
  -- nothing is asked about the texts
  have hkey (f : Fragment) : o.showsFragment mode f = o.showsFragment mode f.key := rfl
  rw [hkey, h, ← hkey]

theorem Options.showsFragment_fragment (o : Options) (mode : String) (d : Declaration) :
    o.showsFragment mode (d.fragment o.naming) = o.shows mode d := by
  rw [shows, Bool.and_assoc, Bool.and_comm]
  simp only [showsFragment, isCommon, includes, declares, Property.isCommon, Query.accepts,
    Declaration.fragment, Option.all_none, Option.all_some, decide_true, Bool.and_true,
    Bool.true_and]
  rfl

section

variable {o : Options} (hnamed : ∀ path, o.naming path ≠ "") {ds : List Declaration} {mode : String}

include hnamed

/-- A line of a block declares a custom property of the mode. -/
theorem mem_block {item : Item} (h : item ∈ o.block (sheetStore [o] ds) mode) :
    ∃ d ∈ ds, o.shows mode d = true ∧ item = d.item o.naming := by
  rw [Options.block_eq_map] at h
  obtain ⟨f, hf, rfl⟩ := List.mem_map.mp h
  obtain ⟨hf, hshows⟩ := List.mem_filter.mp hf
  obtain ⟨d, hd, rfl⟩ := List.mem_map.mp (mem_of_mem_setAll hf)
  rw [Options.showsFragment_fragment] at hshows
  exact ⟨d, hd, hshows, declaration_fragment hnamed d⟩

/-- Every custom property of the mode is declared in its block, perhaps with another value. -/
theorem exists_mem_block {d : Declaration} (hd : d ∈ ds) (hshows : o.shows mode d = true) :
    ∃ text, .declaration (d.name o.naming) text ∈ o.block (sheetStore [o] ds) mode := by
  have hkey : (d.fragment o.naming).key ∈ keys (sheetStore [o] ds) :=
    mem_keys_setAll.mpr (.inr (List.mem_map_of_mem (List.mem_map_of_mem hd)))
  obtain ⟨f, hf, hfkey⟩ := List.mem_map.mp hkey
  refine ⟨f.value, ?_⟩
  rw [Options.block_eq_map, List.mem_map]
  refine ⟨f, List.mem_filter.mpr ⟨hf, ?_⟩, ?_⟩
  · rw [Options.showsFragment_of_key hfkey, Options.showsFragment_fragment, hshows]
  · have hname : f.key.name = (d.fragment o.naming).key.name := congrArg Fragment.name hfkey
    rw [declaration, show f.name = (d.fragment o.naming).name from hname, name_fragment hnamed]

/-- When no two custom properties of the mode have one name, its block declares all of them in the
order of the table. -/
theorem block_eq (h : ((ds.filter (o.shows mode)).map (Declaration.name o.naming)).Nodup) :
    o.block (sheetStore [o] ds) mode =
      (ds.filter (o.shows mode)).map (Declaration.item o.naming) := by
  have hshows : o.showsFragment mode ∘ Declaration.fragment o.naming = o.shows mode :=
    funext fun d => Options.showsFragment_fragment o mode d
  have hname : (Fragment.name ∘ Fragment.key) ∘ Declaration.fragment o.naming =
      Declaration.name o.naming :=
    funext (name_fragment hnamed)
  -- fragments with distinct names have distinct keys
  have hkeys : (keys (((ds.map (Declaration.fragment o.naming))).filter
      (o.showsFragment mode))).Nodup := by
    refine List.Nodup.of_map Fragment.name ?_
    rw [List.filter_map, hshows, keys, List.map_map, List.map_map, hname]
    exact h
  have hitem : declaration ∘ Declaration.fragment o.naming = Declaration.item o.naming :=
    funext (declaration_fragment hnamed)
  rw [Options.block_eq_map, sheetStore, List.foldl_cons, List.foldl_nil,
    filter_setAll fun _ _ => Options.showsFragment_of_key, List.filter_nil, setAll_eq_self hkeys,
    List.filter_map, hshows, List.map_map, hitem]

end

end DesignTokens.Css
