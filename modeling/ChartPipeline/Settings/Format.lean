import ChartPipeline.Json.Reader
import ChartPipeline.Settings.Setting
import ChartPipeline.Toml.Document
import ChartPipeline.Yaml.Document

/-!
# Formats of settings

Settings are written in TOML, JSON or YAML.  Each text has to be a table.  In YAML the spellings of
plain scalars are fewer than in other documents, tags other than those of the core types make
strings, and the keys of a table may be integers.
-/

namespace ChartPipeline

/-- A format of settings. -/
inductive SettingFormat where
  | toml | json | yaml
deriving DecidableEq, Repr

namespace Setting

/-- An integer, or a float if it is too great. -/
def ofInteger (n : Int) : Setting :=
  if -(2 ^ 63) ≤ n && n < 2 ^ 63 then int n else float (Float.ofInt n)

mutual

/-- The setting that a value stands for. -/
def ofValue? : Value → Option Setting
  | .null => some nothing
  | .bool b => some (bool b)
  | .int n => some (ofInteger n)
  | .float x => some (float x)
  | .str s => some (str s)
  | .list vs => (ofItems? vs).map list
  | .map es => (ofEntries? es).map table
  | .tagged _ v => ofValue? v

/-- The settings of a list. -/
def ofItems? : List Value → Option (List Setting)
  | [] => some []
  | v :: rest => do
    let s ← ofValue? v
    let ss ← ofItems? rest
    pure (s :: ss)

/-- The settings of a table. -/
def ofEntries? : List (Value × Value) → Option (List (String × Setting))
  | [] => some []
  | (k, v) :: rest => do
    let name ← match k with
      | .str s => some s
      | .int n => some (toString n)
      | _ => none
    let s ← ofValue? v
    let ss ← ofEntries? rest
    pure ((name, s) :: ss)

end

/-! ### YAML -/

/-- The integer of a plain scalar: with base 16 or 8, or decimal. -/
def yamlInteger? : List Char → Option Int
  | '0' :: 'x' :: rest => ((NumberText.digits? 16 rest).map Int.ofNat).filter (· < 2 ^ 63)
  | '0' :: 'o' :: rest => ((NumberText.digits? 8 rest).map Int.ofNat).filter (· < 2 ^ 63)
  | cs => NumberText.word? cs

/-- The spellings of floats that only YAML has. -/
def yamlFloatNames : List String :=
  [".inf", ".Inf", ".INF", "+.inf", "+.Inf", "+.INF", "-.inf", "-.Inf", "-.INF", ".nan", ".NAN"]

/-- The value of a plain scalar.  The spellings of floats that only YAML has stand for none. -/
def yamlPlain? (text : String) : Option Value :=
  if ["", "~", "null"].contains text then some .null
  else if text = "true" then some (.bool true)
  else if text = "false" then some (.bool false)
  else match yamlInteger? text.toList with
    | some n => some (.int n)
    | none =>
      if text = "NaN" then some (.float (0.0 / 0.0))
      else if yamlFloatNames.contains text then none
      else match NumberText.float? text.toList with
        | some x => some (.float x)
        | none => some (.str text)

/-- The value of a scalar.  One that does not fit the tag of a core type is nothing. -/
def yamlScalar? (tag : Option String) (plain : Bool) (text : String) : Option Value :=
  match plain, tag with
  | false, _ => some (.str text)
  | true, none => yamlPlain? text
  | true, some tag =>
    let orNothing (v : Option Value) : Option Value := some (v.getD .null)
    if tag = Yaml.coreTag "bool" then
      orNothing (if text = "true" then some (.bool true)
        else if text = "false" then some (.bool false) else none)
    else if tag = Yaml.coreTag "int" then
      orNothing ((NumberText.word? text.toList).map .int)
    else if tag = Yaml.coreTag "float" then
      orNothing ((NumberText.float? text.toList).map .float)
    else if tag = Yaml.coreTag "null" then some .null
    else some (.str text)

/-- The values of settings: tags of lists and tables do not matter. -/
def yamlSchema : Yaml.Schema where
  scalar := yamlScalar?
  collection _ v := some v

/-! ### Texts -/

/-- The value of a text in a format. -/
def readValue : SettingFormat → String → Option Value
  | .toml, text => Toml.read text
  | .json, text =>
    match Json.read text with
    | .ok j => some (.ofJson j)
    | .error _ => none
  | .yaml, text => do
    match ← Yaml.root? text with
    | none => pure (.map [])
    | some (root, anchors) => Yaml.nodeValue yamlSchema anchors root

/-- The settings in a text, which has to be a table. -/
def read? (format : SettingFormat) (text : String) : Option (List (String × Setting)) := do
  match ← ofValue? (← readValue format text) with
  | .table es => some es
  | _ => none

end Setting

end ChartPipeline
