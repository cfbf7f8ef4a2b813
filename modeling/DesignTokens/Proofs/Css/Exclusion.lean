import DesignTokens.Proofs.Css.Declarations
import DesignTokens.Proofs.Output.Building
import DesignTokens.Proofs.Tree.OfData

/-!
# Style sheets without some tokens

Globs can leave tokens out of a style sheet.  This takes away the lines that declare them, and the
blocks in which nothing is left; only the block of the default mode may be empty.  All other lines
stay as they are, also where they use a token that is left out.

## Main statement

* `build_without`: the file of a style sheet beside the one with all tokens, among any plugins.
-/

namespace DesignTokens.Css

open Output Output.Fragments

/-! ## Blocks line by line -/

/-- A block of a style sheet. -/
structure Block where
  /-- An empty line and the lines that open the block. -/
  opening : List String
  /-- The lines that declare custom properties, each with the path of its token. -/
  declarations : List (String × String)
  /-- The lines that close the block. -/
  closing : List String

namespace Block

def lines (b : Block) : List String := b.opening ++ b.declarations.map Prod.snd ++ b.closing

/-- The block declares nothing. -/
def isEmpty (b : Block) : Bool := b.declarations.isEmpty

/-- The declarations of fragments behind some blanks. -/
def declared (indent : Nat) (fs : List Fragment) : List (String × String) :=
  fs.map fun f => (f.token, indented indent (f.name ++ ": " ++ f.value ++ ";"))

/-- The block of a selector with the declarations of fragments; under a condition the whole document
is selected. -/
def ofFragments (selector : String) (fs : List Fragment) : Block :=
  if selector.toList.head? = some '@' then
    ⟨["", selector ++ " \x7b", "  :root \x7b"], declared 4 fs, ["  \x7d", "\x7d"]⟩
  else ⟨["", selector ++ " \x7b"], declared 2 fs, ["\x7d"]⟩

/-- The block without the declarations of the tokens that globs leave out. -/
def without (globs : List String) (b : Block) : Block :=
  { b with declarations := b.declarations.filter fun d => !Text.fitsAny globs d.1 }

end Block

/-- The blocks of a style sheet. -/
structure Sheet where
  /-- The block of the default mode, which is there even without declarations. -/
  root : Block
  /-- The other blocks. -/
  others : List Block

namespace Sheet

/-- The text of the file. -/
def text (s : Sheet) : String :=
  "\n".intercalate (banner ++ (s.root :: s.others).flatMap Block.lines) ++ "\n"

/-- The sheet without the declarations of the tokens that globs leave out, and without the blocks in
which no declaration is left. -/
def without (globs : List String) (s : Sheet) : Sheet where
  root := s.root.without globs
  others := (s.others.map (Block.without globs)).filter (!·.isEmpty)

/-- The sheet of all fragments: the default mode, its colours for wide screens, and modes under
their selectors. -/
def ofStore (modes : List ModeSelector) (store : Fragments) : Sheet where
  root := .ofFragments rootSelector
    ((store.select ⟨format, none, some defaultMode, none⟩).filter isCommon)
  others :=
    let wide := store.select ⟨format, none, some defaultMode, some "p3"⟩
    let blocks := modes.flatMap fun s => s.selectors.map fun selector =>
      Block.ofFragments selector
        ((store.select ⟨format, s.tokens, some s.mode, none⟩).filter isCommon)
    (.ofFragments wideScreens wide :: blocks).filter (!·.isEmpty)

end Sheet

/-! ## Blocks of fragments -/

namespace Block

theorem lines_ofFragments (selector : String) (fs : List Fragment) :
    (ofFragments selector fs).lines = "" :: (selectorBlock selector (fs.map declaration)).lines 0 := by
  have hdeclared (indent : Nat) :
      (declared indent fs).map Prod.snd = itemLines indent (fs.map declaration) := by
    rw [itemLines_map_declaration, declared, List.map_map]
    rfl
  have hzero (line : String) : indented 0 line = line := String.empty_append
  have hroot : indented 2 (rootSelector ++ " \x7b") = "  :root \x7b" := rfl
  have hclosing : indented 2 "\x7d" = "  \x7d" := rfl
  unfold ofFragments selectorBlock
  split
  · simp [lines, hdeclared, Item.lines, itemLines, hzero, hroot, hclosing]
  · simp [lines, hdeclared, Item.lines, hzero]

theorem without_ofFragments (o : Options) (selector : String) (fs : List Fragment) :
    (ofFragments selector fs).without o.exclude =
      ofFragments selector (fs.filter o.includes) := by
  have hdeclared (indent : Nat) :
      (declared indent fs).filter (fun d => !Text.fitsAny o.exclude d.1) =
        declared indent (fs.filter o.includes) := by
    rw [declared, declared, List.filter_map]
    rfl
  unfold ofFragments without
  split <;> simp only [hdeclared]

theorem isEmpty_ofFragments (selector : String) (fs : List Fragment) :
    (ofFragments selector fs).isEmpty = fs.isEmpty := by
  unfold ofFragments
  split <;> simp [isEmpty, declared]

theorem without_nil (b : Block) : b.without [] = b := by
  have hnone (d : String × String) : (!Text.fitsAny [] d.1) = true := rfl
  simp [without, hnone]

/-- Nothing is left of a block in which there was nothing before. -/
theorem isEmpty_without {b : Block} (h : b.isEmpty = true) (globs : List String) :
    (b.without globs).isEmpty = true := by
  rw [isEmpty, List.isEmpty_iff] at h
  simp [isEmpty, without, h]

/-- It makes no difference whether empty blocks are taken away before. -/
theorem filter_without (globs : List String) (bs : List Block) :
    ((bs.filter (!·.isEmpty)).map (without globs)).filter (!·.isEmpty) =
      (bs.map (without globs)).filter (!·.isEmpty) := by
  induction bs with
  | nil => rfl
  | cons b bs ih =>
    cases hempty : b.isEmpty with
    -- the block is taken away before on one side, and afterwards on the other
    | true => simp [hempty, isEmpty_without hempty, ih]
    | false => simp [hempty, ih, List.filter_cons]

end Block

/-! ## Sheets of stores -/

theorem Options.declarations_eq (o : Options) (fs : List Fragment) :
    o.declarations fs = ((fs.filter isCommon).filter o.includes).map declaration := by
  rw [declarations, List.filter_filter]
  simp only [Bool.and_comm]

/-- The declarations that are left stand under each of the selectors, or there are none. -/
theorem lines_selectorBlocks (o : Options) (selectors : List String) (fs : List Fragment) :
    let left := fs.filter o.includes
    (if left.isEmpty then [] else selectors.map (selectorBlock · (left.map declaration))).flatMap
        (fun b => "" :: b.lines 0) =
      (((selectors.map (Block.ofFragments · fs)).map (Block.without o.exclude)).filter
        (!·.isEmpty)).flatMap Block.lines := by
  intro left
  have hwithout : (selectors.map (Block.ofFragments · fs)).map (Block.without o.exclude) =
      selectors.map (Block.ofFragments · left) := by
    rw [List.map_map]
    exact List.map_congr_left fun selector _ => Block.without_ofFragments o selector fs
  rw [hwithout, List.filter_map]
  -- the blocks of all selectors have the same declarations, so all of them stay or none does
  cases hempty : left.isEmpty with
  | true => simp [Function.comp_def, Block.isEmpty_ofFragments, hempty]
  | false =>
    simp [Function.comp_def, Block.isEmpty_ofFragments, hempty, List.flatMap_map,
      Block.lines_ofFragments]

theorem lines_rootBlock (o : Options) (store : Fragments) :
    "" :: (o.rootBlock store).lines 0 =
      ((Sheet.ofStore o.modeSelectors store).without o.exclude).root.lines := by
  rw [Sheet.without, Sheet.ofStore, Block.without_ofFragments, Block.lines_ofFragments,
    Options.rootBlock, Options.declarations_eq]
  rfl

theorem lines_wideBlock (o : Options) (store : Fragments) :
    (o.wideBlock store).flatMap (fun b => "" :: b.lines 0) =
      (([Block.ofFragments wideScreens
        (store.select ⟨format, none, some defaultMode, some "p3"⟩)].map
          (Block.without o.exclude)).filter (!·.isEmpty)).flatMap Block.lines :=
  lines_selectorBlocks o [wideScreens] _

theorem lines_modeBlocks (o : Options) (store : Fragments) (s : ModeSelector) :
    (o.modeBlocks store s).flatMap (fun b => "" :: b.lines 0) =
      (((s.selectors.map (Block.ofFragments ·
        ((store.select ⟨format, s.tokens, some s.mode, none⟩).filter isCommon))).map
          (Block.without o.exclude)).filter (!·.isEmpty)).flatMap Block.lines := by
  rw [← lines_selectorBlocks, Options.modeBlocks, Options.declarations_eq]
  simp only [List.isEmpty_map]

theorem sheetText_eq (o : Options) (store : Fragments) :
    sheetText (o.blocks store) = ((Sheet.ofStore o.modeSelectors store).without o.exclude).text := by
  have hothers : (o.wideBlock store ++ o.modeSelectors.flatMap (o.modeBlocks store)).flatMap
      (fun b => "" :: b.lines 0) =
        ((Sheet.ofStore o.modeSelectors store).without o.exclude).others.flatMap Block.lines := by
    rw [Sheet.without, Sheet.ofStore, Block.filter_without, ← List.singleton_append,
      List.map_append, List.filter_append, List.flatMap_append, List.flatMap_append,
      ← lines_wideBlock, List.map_flatMap, List.filter_flatMap, List.flatMap_assoc,
      List.flatMap_assoc]
    -- what is left are the blocks of the modes, mode by mode
    congr 1
    apply List.flatMap_congr
    intro s _
    exact lines_modeBlocks o store s
  rw [sheetText, Sheet.text, Options.blocks, List.cons_append, List.flatMap_cons,
    List.flatMap_cons, lines_rootBlock, hothers]

theorem Sheet.without_nil (modes : List ModeSelector) (store : Fragments) :
    (ofStore modes store).without [] = ofStore modes store := by
  have hid : Block.without [] = id := funext Block.without_nil
  rw [without, Block.without_nil, hid, List.map_id]
  simp [ofStore]

/-! ## Builds -/

/-- The same options without globs for tokens that are left out. -/
def Options.inclusive (o : Options) : Options := { o with exclude := [] }

/-- Whatever other plugins there are, leaving tokens out takes away the declarations of these tokens
from the file of a style sheet, and the blocks in which none is left. -/
theorem build_without (o : Options) (before after : List Plugin) (t : Table) :
    (∃ problem, build (before ++ plugin o.inclusive :: after) t = .error problem ∧
      build (before ++ plugin o :: after) t = .error problem) ∨
    ∃ store front back, fragments (before ++ plugin o.inclusive :: after) t = .ok store ∧
      let sheet := Sheet.ofStore o.modeSelectors store
      build (before ++ plugin o.inclusive :: after) t =
        .ok (front ++ ⟨o.filename, sheet.text⟩ :: back) ∧
      build (before ++ plugin o :: after) t =
        .ok (front ++ ⟨o.filename, (sheet.without o.exclude).text⟩ :: back) := by
  have hfiles (o : Options) (store : Fragments) : (plugin o).files t store = .ok [o.file store] := rfl
  apply @build_replace t (plugin o.inclusive) (plugin o) o.filename _ _ rfl rfl
  · -- without globs nothing is left out
    intro store
    have hall := sheetText_eq o.inclusive store
    rw [show o.inclusive.exclude = [] from rfl, Sheet.without_nil] at hall
    rw [hfiles, Options.file, hall]
    rfl
  · intro store
    rw [hfiles, Options.file, sheetText_eq]

/-- A document with two numbers, one of which is another one in the dark. -/
def radiusInTheDark : Document where
  root := (Data.object [
    ("gap", .object [("$type", .text "number"), ("$value", .int 1)]),
    ("radius", .object [("$type", .text "number"), ("$value", .int 2),
      ("$extensions", .object [("mode", .object [("dark", .int 3)])])])]).tree
  source := ""
  format := .data
  filename := Document.dataName

/-- A style sheet without the radius, with the dark mode under a condition and under a selector. -/
def withoutRadius : Options where
  filename := "index.css"
  exclude := ["radius"]
  modeSelectors := [⟨"dark", ["@media print", ".dark"], none⟩]
  naming := variableName

/-- For instance, the blocks of the dark mode vanish with the only number in them. -/
theorem build_without_radius : ∃ t sheet, radiusInTheDark.table = .ok t ∧
    build [plugin withoutRadius.inclusive] t = .ok [⟨"index.css", Sheet.text sheet⟩] ∧
    build [plugin withoutRadius] t = .ok [⟨"index.css", (sheet.without ["radius"]).text⟩] ∧
    sheet.others.map Block.lines =
      [["", "@media print \x7b", "  :root \x7b", "    --radius: 3;", "  \x7d", "\x7d"],
        ["", ".dark \x7b", "  --radius: 3;", "\x7d"]] ∧
    (sheet.without ["radius"]).root.lines = ["", ":root \x7b", "  --gap: 1;", "\x7d"] ∧
    (sheet.without ["radius"]).others.map Block.lines = [] := by
  obtain ⟨t, ds, ht, hds, hlines⟩ := exists_declared radiusInTheDark (fun _ ds =>
    let sheet := Sheet.ofStore withoutRadius.modeSelectors (sheetStore [withoutRadius.inclusive] ds)
    sheet.others.map Block.lines =
      [["", "@media print \x7b", "  :root \x7b", "    --radius: 3;", "  \x7d", "\x7d"],
        ["", ".dark \x7b", "  --radius: 3;", "\x7d"]] ∧
      (sheet.without ["radius"]).root.lines = ["", ":root \x7b", "  --gap: 1;", "\x7d"] ∧
      (sheet.without ["radius"]).others.map Block.lines = []) (by decide +kernel)
  rcases build_without withoutRadius [] [] t with
    ⟨problem, hproblem, -⟩ | ⟨store, front, back, hstore, hall, hleft⟩
  · rw [List.nil_append, build_single _ hds] at hproblem
    cases hproblem
  · obtain rfl : store = sheetStore [withoutRadius.inclusive] ds :=
      Except.ok.inj (hstore.symm.trans (fragments_plugin [withoutRadius.inclusive] hds))
    -- there is no other file
    have hone := Except.ok.inj (hall.symm.trans (build_single _ hds))
    have hlength : front.length + (back.length + 1) = 1 := by
      simpa using congrArg List.length hone
    obtain rfl : front = [] := List.eq_nil_of_length_eq_zero (by omega)
    obtain rfl : back = [] := List.eq_nil_of_length_eq_zero (by omega)
    exact ⟨t, _, ht, hall, hleft, hlines⟩

end DesignTokens.Css
