import DesignTokens.Data
import DesignTokens.Output.Fragment
import DesignTokens.Table

/-!
# Output plugins

A plugin turns a table into files in two steps: first every plugin gives its fragments, afterwards
every plugin writes its files and may use the fragments of all.  No two files have the same name.
-/

namespace DesignTokens.Output

/-! ## Plugins -/

/-- A file that was written. -/
structure File where
  name : String
  /-- The text. -/
  content : String
deriving DecidableEq

/-- A way to write tables. -/
structure Plugin where
  /-- The name of the plugin. -/
  name : String
  fragments : Table → Except Fault (List Fragment)
  /-- The files of a table, from the fragments of all plugins. -/
  files : Table → Fragments → Except Fault (List File)

/-- Why there is no output. -/
inductive Problem where
  /-- There is no plugin of that name among those that are available. -/
  | unsupported (plugin : String) (available : List String)
  /-- A plugin writes a file that is there already. -/
  | overwritten (plugin file : String)
  /-- A fault of a plugin. -/
  | fault (fault : Fault)

/-- The wording of a problem, when it has one. -/
def Problem.message? : Problem → Option String
  | .unsupported plugin available =>
    some ("Unsupported plugin '" ++ plugin ++ "'. Available: " ++ ", ".intercalate available)
  | .overwritten plugin file =>
    some ("Plugin '" ++ plugin ++ "' tried to overwrite output file '" ++ file ++ "'")
  | .fault f => f.message?

/-- A fault of a plugin as a problem. -/
def ofFault {α : Type} (x : Except Fault α) : Except Problem α := x.mapError .fault

/-- The fragments of all plugins, one plugin after the other. -/
def fragments (plugins : List Plugin) (t : Table) : Except Problem Fragments :=
  plugins.foldlM (fun store p => do return store.setAll (← ofFault (p.fragments t))) []

/-- The files with one more file of a plugin. -/
def addFile (plugin : String) (files : List File) (f : File) : Except Problem (List File) :=
  if files.any (·.name = f.name) then .error (.overwritten plugin f.name) else .ok (files ++ [f])

/-- The files of all plugins in the order in which they are written. -/
def build (plugins : List Plugin) (t : Table) : Except Problem (List File) := do
  -- no plugin writes before all of them have given their fragments
  let store ← fragments plugins t
  plugins.foldlM (fun files p => do
    (← ofFault (p.files t store)).foldlM (addFile p.name) files) []

/-! ## Registries

Plugins are looked up by name.  What is registered is any way to make a plugin. -/

/-- Ways to make plugins by the names of the plugins. -/
abbrev Registry (α : Type) := Members α

namespace Registry

variable {α : Type}

/-- The names of the plugins in alphabetical order. -/
def available (r : Registry α) : List String :=
  (Members.names r).mergeSort fun a b => a ≤ b

/-- The way to make the plugin of a name. -/
def find (name : String) (r : Registry α) : Except Problem α :=
  match Members.get? name r with
  | some a => .ok a
  | none => .error (.unsupported name r.available)

/-- A name that was set is found. -/
theorem find_set (name : String) (a : α) (r : Registry α) :
    find name (Members.set name a r) = .ok a := by
  simp [find, Members.get?_set]

end Registry

end DesignTokens.Output
