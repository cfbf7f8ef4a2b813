import DesignTokens.Proofs.Css.Declarations
import DesignTokens.Proofs.Tree.OfData

/-!
# Style sheets side by side

All plugins put their fragments into one store, and every style sheet reads the fragments of all of
them.  A style sheet is the same as without the others when the others give the tokens that it
declares the same names (`content_in_company`); with other names their custom properties join it.
-/

namespace DesignTokens.Css

open Output Output.Fragments Outcome

/-! ## Namings -/

/-- Two namings give the same name to a token with a custom property, and to the tokens whose custom
properties are used in its value. -/
structure NamedAlike (a b : Naming) (d : Declaration) : Prop where
  own : a d.token = b d.token
  used : ∀ path, .token path ∈ d.property.value → a path = b path

theorem NamedAlike.refl (a : Naming) (d : Declaration) : NamedAlike a a d := ⟨rfl, fun _ _ => rfl⟩

/-- What is named alike has the same fragment. -/
theorem NamedAlike.fragment_eq {a b : Naming} {d : Declaration} (h : NamedAlike a b d) :
    d.fragment a = d.fragment b := by
  have hwords : d.words a = d.words b := by
    refine List.map_congr_left fun piece hpiece => ?_
    cases piece with
    | text s => rfl
    | part name => rw [Piece.word, Piece.word, h.own]
    | token path => rw [Piece.word, Piece.word, h.used path hpiece]
  have hname : d.name a = d.name b := by rw [Declaration.name, Declaration.name, h.own]
  rw [Declaration.fragment, Declaration.fragment, hwords, hname]

/-! ## The fragments of a store that a style sheet reads -/

/-- A style sheet depends on the fragments of the tokens that it declares only. -/
theorem Options.blocks_congr {o : Options} {a b : Fragments}
    (h : a.filter o.includes = b.filter o.includes) : o.blocks a = o.blocks b := by
  -- whatever is asked for besides, it is asked of included fragments
  have hdeclarations (q : Query) :
      o.declarations (a.select q) = o.declarations (b.select q) := by
    have hfilter (store : Fragments) : (store.select q).filter (fun f => isCommon f && o.includes f) =
        ((store.filter o.includes).filter q.accepts).filter isCommon := by
      rw [select, List.filter_filter, List.filter_filter, List.filter_filter]
      refine List.filter_congr fun f _ => ?_
      cases isCommon f <;> cases o.includes f <;> cases q.accepts f <;> rfl
    rw [declarations, declarations, hfilter, hfilter, h]
  have hwide (q : Query) : (a.select q).filter o.includes = (b.select q).filter o.includes := by
    rw [select, select, List.filter_filter, List.filter_filter]
    simp only [Bool.and_comm (o.includes _)]
    rw [← List.filter_filter, ← List.filter_filter, h]
  rw [blocks, blocks, rootBlock, rootBlock, wideBlock, wideBlock, hdeclarations, hwide]
  refine congrArg _ (List.flatMap_congr fun s _ => ?_)
  rw [modeBlocks, modeBlocks, hdeclarations]

/-! ## In company and alone -/

/-- The fragments that a style sheet reads are the same in company when the others name the tokens
alike that it declares. -/
theorem filter_sheetStore {os : List Options} {ds : List Declaration} {o : Options} (ho : o ∈ os)
    (halike : ∀ other ∈ os, ∀ d ∈ ds, o.declares d.token →
      NamedAlike o.naming other.naming d) :
    (sheetStore os ds).filter o.includes = (sheetStore [o] ds).filter o.includes := by
  have hkey : ∀ a b : Fragment, a.key = b.key → o.includes a = o.includes b := by
    intro a b h
    have htoken : a.key.token = b.key.token := congrArg Fragment.token h
    rw [Options.includes, Options.includes, show a.token = b.token from htoken]
  -- all style sheets give the same fragments to this one
  have hsame : ∀ other ∈ os, (ds.map (Declaration.fragment other.naming)).filter o.includes =
      (ds.map (Declaration.fragment o.naming)).filter o.includes := by
    intro other hother
    rw [List.filter_map, List.filter_map]
    refine (List.map_congr_left fun d hd => ?_).symm
    obtain ⟨hd, hin⟩ := List.mem_filter.mp hd
    exact (halike other hother d hd hin).fragment_eq
  generalize (ds.map (Declaration.fragment o.naming)).filter o.includes = fs at hsame
  have key (rest : List Options) (hrest : ∀ other ∈ rest, other ∈ os) (store : Fragments) :
      (rest.foldl (fun store o => setAll (ds.map (Declaration.fragment o.naming)) store)
        store).filter o.includes =
          rest.foldl (fun store _ => setAll fs store) (store.filter o.includes) := by
    induction rest generalizing store with
    | nil => rfl
    | cons other rest ih =>
      rw [List.foldl_cons, List.foldl_cons, ih (fun u hu => hrest u (List.mem_cons_of_mem _ hu)),
        filter_setAll hkey, hsame other (hrest other List.mem_cons_self)]
  -- setting them again changes nothing
  have hagain (rest : List Options) :
      rest.foldl (fun store _ => setAll fs store) (setAll fs []) = setAll fs [] := by
    induction rest with
    | nil => rfl
    | cons other rest ih => rw [List.foldl_cons, setAll_setAll (by simp [keys]), ih]
  rw [sheetStore, sheetStore, key os (fun _ h => h), key [o] (by simpa using ho)]
  obtain ⟨first, rest, rfl⟩ := List.exists_cons_of_ne_nil (List.ne_nil_of_mem ho)
  rw [List.foldl_cons, List.foldl_cons, List.filter_nil, hagain, List.foldl_nil]

/-- The text of the file of a name. -/
def contentOf (name : String) (files : List File) : Option String :=
  (files.find? (·.name = name)).map File.content

theorem contentOf_files {os : List Options} (hnames : (os.map Options.filename).Nodup) {o : Options}
    (ho : o ∈ os) (store : Fragments) :
    contentOf o.filename (os.map fun o => o.file store) = some (sheetText (o.blocks store)) := by
  have hfile : (os.map fun o => o.file store).find? (·.name = o.filename) = some (o.file store) := by
    have hnodup : ((os.map fun o => o.file store).map File.name).Nodup := by
      rw [List.map_map]
      exact hnames
    exact (find?_key_eq_some_iff hnodup).mpr ⟨List.mem_map_of_mem ho, rfl⟩
  rw [contentOf, hfile]
  rfl

/-- Among style sheets with distinct names each has the text that it has alone, and a fault is one
alone too, provided that the others give the tokens that it declares, and those whose custom
properties these use, the same names. -/
theorem content_in_company (t : Table) {os : List Options}
    (hnames : (os.map Options.filename).Nodup) {o : Options} (ho : o ∈ os)
    (halike : ∀ ds, tableDeclarations t = .ok ds → ∀ other ∈ os, ∀ d ∈ ds,
      o.declares d.token → NamedAlike o.naming other.naming d) :
    (build (os.map plugin) t).map (contentOf o.filename) =
      (build [plugin o] t).map (contentOf o.filename) := by
  cases hds : tableDeclarations t with
  | error fault =>
    have hall := fragments_plugin_error (List.ne_nil_of_mem ho) hds
    have hone : fragments [plugin o] t = .error (.fault fault) :=
      fragments_plugin_error (List.cons_ne_nil o []) hds
    rw [build, build, hall, hone]
    rfl
  | ok ds =>
    have hname : ([o].map Options.filename).Nodup := List.nodup_singleton _
    have hone : contentOf o.filename [o.file (sheetStore [o] ds)] =
        some (sheetText (o.blocks (sheetStore [o] ds))) :=
      contentOf_files hname (List.mem_singleton_self o) _
    rw [build_plugin hnames hds, build_single o hds, Except.map, Except.map,
      contentOf_files hnames ho, hone,
      Options.blocks_congr (filter_sheetStore ho (halike ds hds))]

/-- A document with two numbers. -/
def gapAndRadius : Document where
  root := (Data.object [
    ("gap", .object [("$type", .text "number"), ("$value", .int 1)]),
    ("radius", .object [("$type", .text "number"), ("$value", .int 2)])]).tree
  source := ""
  format := .data
  filename := Document.dataName

/-- A style sheet with names of its own for all tokens but `gap`. -/
def underscored : Options where
  filename := "underscored.css"
  exclude := []
  modeSelectors := []
  naming path := if path = "gap" then variableName path else "--_" ++ path

/-- For instance, a style sheet of the gap alone is the same beside one that gives only the radius
another name. -/
theorem content_in_company_gap : ∃ t, gapAndRadius.table = .ok t ∧
    let o := { Options.standard with exclude := ["radius"] }
    ([o, underscored].map Options.filename).Nodup ∧
      (build ([o, underscored].map plugin) t).map (contentOf o.filename) =
        (build [plugin o] t).map (contentOf o.filename) := by
  obtain ⟨t, ds, ht, hds, hvalues⟩ := exists_declared gapAndRadius (fun _ ds =>
    ds.map (fun d => (d.token, d.property.value)) =
      [("gap", [.text "1"]), ("radius", [.text "2"])]) (by decide +kernel)
  refine ⟨t, ht, by decide, content_in_company t (by decide) (by simp) ?_⟩
  intro ds' hds' other hother d hd hdeclares
  obtain rfl : ds' = ds := Except.ok.inj (hds'.symm.trans hds)
  have hmem : (d.token, d.property.value) ∈ ds'.map (fun d => (d.token, d.property.value)) :=
    List.mem_map_of_mem hd
  rw [hvalues] at hmem
  -- the radius is left out, and the value of the gap is a text
  rcases List.mem_pair.mp hmem with hgap | hradius
  · obtain ⟨htoken, hvalue⟩ := Prod.mk.inj hgap
    rcases List.mem_pair.mp hother with rfl | rfl
    · exact .refl _ _
    · exact ⟨by rw [htoken]; rfl, fun path hpath => by simp [hvalue] at hpath⟩
  · rw [(Prod.mk.inj hradius).1] at hdeclares
    exact absurd hdeclares (by decide +kernel)

/-- With another name for the gap the other style sheet adds a custom property. -/
theorem content_not_in_company : ∃ t, gapAndRadius.table = .ok t ∧
    let o := Options.standard
    let other := { underscored with naming path := "--_" ++ path }
    ([o, other].map Options.filename).Nodup ∧
      (build ([o, other].map plugin) t).map (contentOf o.filename) ≠
        (build [plugin o] t).map (contentOf o.filename) := by
  have hsome : (gapAndRadius.table.toOption.bind fun t =>
      let o := Options.standard
      let other := { underscored with naming path := "--_" ++ path }
      if ((build ([o, other].map plugin) t).map (contentOf o.filename)).toOption ≠
        ((build [plugin o] t).map (contentOf o.filename)).toOption then some t else none).isSome =
          true := by
    decide +kernel
  obtain ⟨t, hfound⟩ := Option.isSome_iff_exists.mp hsome
  obtain ⟨t', ht, hfound⟩ := Option.bind_eq_some_iff.mp hfound
  simp only [Option.ite_none_right_eq_some, Option.some.injEq] at hfound
  obtain ⟨hdiffers, rfl⟩ := hfound
  exact ⟨t', toOption_eq_some.mp ht, by decide, fun h => hdiffers (congrArg Except.toOption h)⟩

end DesignTokens.Css
