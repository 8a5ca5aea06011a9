import ChartPipeline.Document
import ChartPipeline.Options
import ChartPipeline.Settings.EnvFile
import ChartPipeline.Settings.Format

/-!
# Loading settings

Settings come from a file and from the environment, which goes before the file.  A variable of the
environment sets what its name spells after the program's own prefix; two underscores lead into a
table.  The keys of a file may be paths as well.
-/

namespace ChartPipeline

/-- The settings of a run. -/
structure RunSettings where
  compiler : CompilerOptions := {}
  /-- Whether datasets are printed on several lines. -/
  pretty : Bool := true
deriving DecidableEq, Inhabited

/-- Why settings cannot be loaded. -/
inductive SettingsFault where
  /-- There is no such file, its format is unknown, or its text is wrong. -/
  | unreadable
  /-- A setting has a value of the wrong type. -/
  | illTyped
deriving DecidableEq, Repr

/-- The words for a fault. -/
def SettingsFault.message : SettingsFault → String
  | unreadable => "Failed to read configuration"
  | illTyped => "Failed to deserialize configuration"

/-! ### Typed settings -/

namespace Setting

/-- A setting that may be left out. -/
def withDefault (s : Option Setting) (default : α) (decode : Setting → Option α) : Option α :=
  match s with
  | none => some default
  | some v => decode v

/-- The options of the compiler, in a table or in a list in their order. -/
def options? (s : Setting) : Option CompilerOptions :=
  match s with
  | table es =>
    match CompilerOptions.fieldNames.map fun name => entry? name es with
    | [analyze, optimize, facetPolicy, maxIterations] =>
      build analyze optimize facetPolicy maxIterations
    | _ => none
  | list vs => build vs[0]? vs[1]? vs[2]? vs[3]?
  | _ => none
where
  /-- The options of settings that may be left out. -/
  build (analyze optimize facetPolicy maxIterations : Option Setting) :
      Option CompilerOptions := do
    let defaults : CompilerOptions := {}
    let analyze ← withDefault analyze defaults.analyze bool?
    let optimize ← withDefault optimize defaults.optimize bool?
    let facetPolicy ← withDefault facetPolicy defaults.facetPolicy policy?
    let maxIterations ← withDefault maxIterations defaults.maxIterations nat?
    pure { analyze, optimize, facetPolicy, maxIterations }

end Setting

namespace RunSettings

/-- The settings in a table. -/
def ofSetting? (s : Setting) : Option RunSettings := do
  let compiler ← Setting.withDefault (Setting.entry? "compiler" s.entries) {} Setting.options?
  let pretty ← Setting.withDefault (Setting.entry? "pretty" s.entries) true Setting.bool?
  pure { compiler, pretty }

end RunSettings

/-! ### The environment -/

namespace Setting

/-- The setting that the value of a variable spells. -/
def ofVariable (value : String) : Setting :=
  let cs := value.toList
  let lower := value.map Char.toLower
  if lower = "true" then bool true
  else if lower = "false" then bool false
  else match NumberText.word? cs with
    | some n => int n
    | none =>
      match NumberText.floatOrName? cs with
      | some x => float x
      | none => str value

/-- What the names of variables begin with, in lower case. -/
def variablePrefix : String := "chartflow_"

/-- What the name of a variable sets, if it sets anything. -/
def variablePath? (name : String) : Option String :=
  let lower := name.map Char.toLower
  if lower.startsWith variablePrefix then
    some ((lower.drop variablePrefix.length).toString.replace "__" ".")
  else none

/-- The settings of an environment. -/
def ofEnvironment (environment : Variables) : List (String × Setting) :=
  environment.filterMap fun v => (variablePath? v.1).map fun path => (path, ofVariable v.2)

/-- Sets what the keys spell, one after the other. -/
def assignAll (es : List (String × Setting)) (target : Setting) : Setting :=
  es.foldl (fun target e => assign e.2 (path e.1) target) target

end Setting

/-! ### Files -/

/-- The format that an extension names. -/
def SettingFormat.ofExtension? : String → Option SettingFormat
  | "toml" => some .toml
  | "json" => some .json
  | "yaml" | "yml" => some .yaml
  | _ => none

/-- The extensions of files with settings. -/
def settingExtensions : List String := ["toml", "json", "yaml", "yml"]

/-- A way to read a file; there may be none at a path. -/
abbrev FileReader (m : Type → Type) := String → m (Option ByteArray)

/-- The first of the files that is there, with its path. -/
def firstFile [Monad m] (read : FileReader m) : List String → m (Option (String × ByteArray))
  | [] => pure none
  | path :: rest => do
    match ← read path with
    | some bytes => pure (some (path, bytes))
    | none => firstFile read rest

/-- The file with settings at a path: the path itself, or with an extension put behind it. -/
def settingsFile [Monad m] (read : FileReader m) (path : String) :
    m (Option (String × ByteArray)) :=
  firstFile read (path :: settingExtensions.map fun extension => path ++ "." ++ extension)

/-- The settings in a file. -/
def fileSettings? (path : String) (bytes : ByteArray) : Option (List (String × Setting)) := do
  let format ← SettingFormat.ofExtension? ((extension? path).getD "")
  let text ← String.fromUTF8? bytes
  Setting.read? format text

/-- The settings of a file, if one is named, and of an environment. -/
def combineSettings (file : Option (List (String × Setting))) (environment : Variables) :
    Except SettingsFault RunSettings :=
  let s := Setting.assignAll (file.getD []) (.table [])
  -- what is set later counts, so the environment goes before the file
  let s := Setting.assignAll (Setting.ofEnvironment environment) s
  match RunSettings.ofSetting? s with
  | some settings => .ok settings
  | none => .error .illTyped

/-- Loads the settings of a run. -/
def loadSettings [Monad m] (read : FileReader m) (path : Option String) (environment : Variables) :
    m (Except SettingsFault RunSettings) := do
  match path with
  | none => pure (combineSettings none environment)
  | some path =>
    match ← settingsFile read path with
    | none => pure (.error .unreadable)
    | some (found, bytes) =>
      match fileSettings? found bytes with
      | none => pure (.error .unreadable)
      | some es => pure (combineSettings (some es) environment)

end ChartPipeline
