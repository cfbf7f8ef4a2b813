import DesignTokens.Css.Fragments
import DesignTokens.Field
import DesignTokens.Output.Plugin

/-!
# Style sheets of tables

The file of a table declares the custom properties of all tokens.  Colours for wide screens follow
in a block of their own, and so do the values of modes under the selectors that are asked for.
-/

namespace DesignTokens.Css

open Output

/-! ## Layout

A style sheet is blocks with declarations and blocks in them.  Every declaration, and every brace
of a block, is on a line of its own. -/

/-- A part of a style sheet. -/
inductive Item where
  | declaration (property value : String)
  /-- Parts under a selector or a condition. -/
  | block (head : String) (items : List Item)

/-- A line with blanks in front of it. -/
def indented (indent : Nat) (line : String) : String :=
  String.ofList (List.replicate indent ' ') ++ line

mutual

/-- The lines of a part. -/
def Item.lines (indent : Nat) : Item → List String
  | .declaration property value => [indented indent (property ++ ": " ++ value ++ ";")]
  | .block head items =>
    indented indent (head ++ " \x7b") :: itemLines (indent + 2) items ++ [indented indent "\x7d"]

/-- The lines of parts. -/
def itemLines (indent : Nat) : List Item → List String
  | [] => []
  | i :: is => i.lines indent ++ itemLines indent is

end

/-- The lines at the top of every file. -/
def banner : List String :=
  ["/* -------------------------------------------",
   " *  Autogenerated by tokenloom. DO NOT EDIT!",
   " * ------------------------------------------- */"]

/-- The text of a style sheet: the banner, and every block after an empty line. -/
def sheetText (blocks : List Item) : String :=
  "\n".intercalate (banner ++ blocks.flatMap fun b => "" :: b.lines 0) ++ "\n"

/-! ## Options -/

/-- The selectors under which the values of a mode are declared. -/
structure ModeSelector where
  mode : String
  /-- Selectors, or conditions with `@` at the start. -/
  selectors : List String
  /-- Globs for the tokens that are declared; without them all are. -/
  tokens : Option (List String)

/-- The selectors of a mode from data. -/
def ModeSelector.ofData (members : Members Data) : Field.Checked ModeSelector :=
  let required {α : Type} (name : String) (read : Data → Field.Checked α) : Field.Checked α :=
    match Members.get? name members with
    | some d => read d
    | none => .error [⟨[name], .missing⟩]
  let mode := required "mode" fun d => Field.named "mode" (Field.text d)
  let selectors := required "selectors" (Field.texts "selectors")
  let tokens : Field.Checked (Option (List String)) :=
    match Members.get? "tokens" members with
    | none => .ok none
    | some .null => .ok none
    | some d => (Field.texts "tokens" d).map some
  (Field.both mode (Field.both selectors tokens)).map fun (mode, selectors, tokens) =>
    ⟨mode, selectors, tokens⟩

/-- What can be chosen about a style sheet. -/
structure Options where
  filename : String
  /-- Globs for the tokens that are not declared. -/
  exclude : List String
  modeSelectors : List ModeSelector
  /-- How custom properties are named. -/
  naming : Naming

/-- The usual options. -/
def Options.standard : Options := ⟨"index.css", [], [], variableName⟩

/-- The condition for wide screens. -/
def wideScreens : String := "@supports (color(display-p3 0 0 0))"

/-- The selector for the whole document. -/
def rootSelector : String := ":root"

/-! ## Declarations -/

def declaration (f : Fragment) : Item := .declaration f.name f.value

/-- Whether a fragment is meant for common screens. -/
def isCommon (f : Fragment) : Bool := f.variant = none || f.variant = some "srgb"

/-- Whether the token of a fragment is declared. -/
def Options.includes (o : Options) (f : Fragment) : Bool := !Text.fitsAny o.exclude f.token

/-- The declarations of fragments for common screens. -/
def Options.declarations (o : Options) (fs : List Fragment) : List Item :=
  (fs.filter fun f => isCommon f && o.includes f).map declaration

/-! ## Blocks -/

/-- The block with the default mode. -/
def Options.rootBlock (o : Options) (store : Fragments) : Item :=
  .block rootSelector (o.declarations (store.select ⟨format, none, some defaultMode, none⟩))

/-- The block for wide screens, unless it would be empty. -/
def Options.wideBlock (o : Options) (store : Fragments) : List Item :=
  let fs := (store.select ⟨format, none, some defaultMode, some "p3"⟩).filter o.includes
  if fs.isEmpty then []
  else [.block wideScreens [.block rootSelector (fs.map declaration)]]

/-- The block of a selector; under a condition the whole document is selected. -/
def selectorBlock (selector : String) (declarations : List Item) : Item :=
  if selector.toList.head? = some '@' then .block selector [.block rootSelector declarations]
  else .block selector declarations

/-- The blocks of a mode; without declarations there are none. -/
def Options.modeBlocks (o : Options) (store : Fragments) (s : ModeSelector) : List Item :=
  let declarations := o.declarations (store.select ⟨format, s.tokens, some s.mode, none⟩)
  if declarations.isEmpty then [] else s.selectors.map fun text => selectorBlock text declarations

/-- The blocks of a style sheet. -/
def Options.blocks (o : Options) (store : Fragments) : List Item :=
  o.rootBlock store :: o.wideBlock store ++ o.modeSelectors.flatMap (o.modeBlocks store)

/-! ## The plugin -/

def pluginName : String := "css"

/-- The plugin that writes style sheets. -/
def plugin (o : Options) : Plugin := {
  name := pluginName
  fragments := tableFragments o.naming
  files := fun _ store => .ok [⟨o.filename, sheetText (o.blocks store)⟩] }

/-- The registry with this plugin alone. -/
def registry : Registry (Options → Plugin) := [(pluginName, plugin)]

end DesignTokens.Css
