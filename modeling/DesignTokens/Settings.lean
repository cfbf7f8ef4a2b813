import DesignTokens.Field
import DesignTokens.Files
import DesignTokens.Settings.EnvironmentFile
import DesignTokens.Text.Uppercase

/-!
# Settings

Settings come from arguments, from the environment, from a file in the working directory, and
otherwise they have their usual values; what comes first in this list counts.
-/

namespace DesignTokens

/-- The settings of a session. -/
structure Settings where
  /-- Which messages are logged. -/
  logLevel : String
  /-- Whether colours are wanted. -/
  color : Bool
  /-- Whether colours are forbidden. -/
  noColor : Bool
  /-- The directory that names of files in reports start from. -/
  directory : FilePath
  /-- The limits of documents. -/
  limits : Limits

/-- Where settings come from. -/
structure SettingSources where
  /-- Values by the names of settings. -/
  arguments : Members Data
  /-- The variables of the environment. -/
  environment : Members String
  /-- The text of the environment file. -/
  file : String

namespace Settings

/-! ## Looking up settings -/

/-- The names of a setting among arguments and among variables. -/
structure Names where
  /-- The name of the setting, which also is the first name of the argument. -/
  own : String
  /-- The name that reports have for the setting. -/
  shown : String
  /-- Further names of the argument, which reports have as they are; the first name that is given
  counts. -/
  further : List String
  /-- Names of the variable in small letters; the first name that is given counts. -/
  environment : List String

/-- What the names of variables begin with. -/
def variableMark : String := "tokenloom_"

/-- The names of a setting without further names. -/
def Names.usual (name : String) : Names := ⟨name, name, [], [variableMark ++ name]⟩

/-- The names of the setting that forbids colours. -/
def Names.noColor : Names :=
  ⟨"no_color", "NO_COLOR", ["NO_COLOR", variableMark.toUpper ++ "NO_COLOR"],
   ["no_color", variableMark ++ "no_color"]⟩

/-- Variables by their names in small letters; of names that differ in case alone the last one
counts. -/
def folded {α : Type} (bindings : Members α) : Members α :=
  Members.ofPairs (bindings.map fun (name, v) => (String.ofList (Text.lower name.toList), v))

/-- The first of several names that has a value, and the value. -/
def firstOf {α : Type} (names : List String) (values : Members α) : Option (String × α) :=
  names.findSome? fun name => (Members.get? name values).map fun v => (name, v)

/-- The value that is given for a setting, and the name that reports have for it: a further name of
an argument, when it was given by that name. -/
def given? (s : SettingSources) (names : Names) : Option (String × Data) :=
  let environment := folded s.environment
  let file := (folded (EnvironmentFile.bindings s.environment s.file)).filterMap fun (name, v) =>
    v.map fun v => (name, v)
  let inVariables := (firstOf names.environment environment).or (firstOf names.environment file)
  let own := (Members.get? names.own s.arguments).map fun v => (names.shown, v)
  (own.or (firstOf names.further s.arguments)).or
    (inVariables.map fun (_, v) => (names.shown, .text v))

/-! ## Reading settings -/

def path : Data → Except Field.Problem FilePath
  | .scalar (.text s) => .ok (FilePath.ofText s)
  | _ => .error .notPath

/-- Whether colours are forbidden: any text does it that is neither empty nor zero. -/
def prohibition : Data → Except Field.Problem Bool
  | .scalar (.text s) =>
    let bare := String.ofList (Text.trim s.toList)
    .ok (bare ≠ "" && bare ≠ "0")
  | d => Field.flag d

/-- The setting of some names, or its usual value. -/
def read {α : Type} (s : SettingSources) (names : Names)
    (reader : Data → Except Field.Problem α) (usual : α) : Field.Checked α :=
  match given? s names with
  | some (place, d) => Field.named place (reader d)
  | none => .ok usual

/-- The setting of a name that has no further names. -/
def readUsual {α : Type} (s : SettingSources) (name : String)
    (reader : Data → Except Field.Problem α) (usual : α) : Field.Checked α :=
  read s (.usual name) reader usual

/-- The settings from their sources. -/
def ofSources (s : SettingSources) : Field.Checked Settings :=
  let limit (name : String) (usual : Int) : Field.Checked Int :=
    readUsual s name Field.integer usual
  let l := Limits.standard
  let limits := (Field.both (limit "max_document_size" l.size)
    (Field.both (limit "max_node_count" l.nodes) (limit "max_depth" l.depth))).map
      fun (size, nodes, depth) => (⟨size, nodes, depth⟩ : Limits)
  let logLevel := readUsual s "log_level" Field.text "INFO"
  let color := readUsual s "color" Field.flag false
  let noColor := read s .noColor prohibition false
  let directory := readUsual s "cwd" path []
  (Field.both logLevel (Field.both color (Field.both noColor (Field.both directory limits)))).map
    fun (logLevel, color, noColor, directory, limits) =>
      ⟨logLevel, color, noColor, directory, limits⟩

/-! ## Using settings -/

/-- Whether reports have colours. -/
def colorEnabled (s : Settings) : Bool := s.color && !s.noColor

/-- The level of logging in capital letters. -/
def loggingLevel (s : Settings) : String := String.ofList (Text.upper s.logLevel.toList)

/-- What a session needs to know. -/
def setup (s : Settings) : Setup := ⟨s.limits, s.colorEnabled⟩

/-- Colours that are forbidden are never used. -/
theorem colorEnabled_of_noColor {s : Settings} (h : s.noColor = true) : s.colorEnabled = false := by
  simp [colorEnabled, h]

end Settings

end DesignTokens
