import ChartPipeline.Chart.Decode
import ChartPipeline.Json.Reader
import ChartPipeline.Yaml.Document

/-!
# Chart documents

A chart comes as a document of its own, or under `model` in a document that also has a version.
Documents are texts in YAML or JSON; the extension of a file's name says which.
-/

namespace ChartPipeline

/-- A chart with the version of the document that it came in. -/
structure ChartDocument where
  version : String
  chart : Chart
deriving Inhabited

/-- Why a JSON text gives no typed value. -/
inductive JsonFault where
  /-- The text is not JSON. -/
  | text (fault : Json.Fault)
  /-- The value does not have the shape of the type. -/
  | shape
deriving DecidableEq, Repr

/-- Why a chart cannot be loaded. -/
inductive LoadFault where
  /-- A YAML text is wrong, or its value does not have the shape of a chart. -/
  | yaml
  | json (fault : JsonFault)
  /-- There is no such file, or its bytes are not a text. -/
  | unreadable
  /-- The extension of a file is neither of YAML nor of JSON; without an extension this is the
  path of the file. -/
  | unsupportedFormat (format : String)
  /-- A document with a version has no chart. -/
  | missingModel
deriving DecidableEq, Repr

/-- The words for a fault, where they do not depend on what exactly is wrong with a text. -/
def LoadFault.message? : LoadFault → Option String
  | unsupportedFormat format => some ("Unsupported model format: " ++ format)
  | missingModel => some "Missing required field: model"
  | yaml | json _ | unreadable => none

namespace ChartDocument

/-- The version of a document that names none. -/
def defaultVersion : String := "0.1"

/-- The document that a YAML value stands for.  A value is the chart itself if it has a kind and no
version. -/
def ofYamlValue (v : Value) : Except LoadFault ChartDocument :=
  let root := v.untagged
  let version := (root.field? "version").bind fun w => w.untagged.str?
  let decode (v : Value) : Except LoadFault Chart :=
    match Chart.decode .yaml v with
    | some chart => .ok chart
    | none => .error .yaml
  if version.isNone && (root.field? "kind").isSome then
    (decode v).map (ChartDocument.mk defaultVersion)
  else match root.field? "model" with
    | none => .error .missingModel
    | some inner => (decode inner).map (ChartDocument.mk (version.getD defaultVersion))

/-- Reads a YAML text. -/
def ofYaml (text : String) : Except LoadFault ChartDocument :=
  match Yaml.read text with
  | some v => ofYamlValue v
  | none => .error .yaml

end ChartDocument

/-- The value of a JSON text, with a type. -/
def readJson (decode : Decoder α) (text : String) : Except JsonFault α :=
  match Json.read text with
  | .error fault => .error (.text fault)
  | .ok j =>
    match decode (Value.ofJson j) with
    | some a => .ok a
    | none => .error .shape

namespace Chart

/-- The chart in a JSON value: under `model` if the value has a version or no kind, or else the
value itself. -/
def decodeDocument : Decoder Chart := fun v =>
  let versioned := ((v.field? "version").bind Value.str?).isSome
  match v.field? "model" with
  | some inner =>
    if versioned || (v.field? "kind").isNone then decode .json inner else decode .json v
  | none => decode .json v

/-- Reads a JSON text. -/
def ofJson (text : String) : Except LoadFault Chart :=
  (readJson decodeDocument text).mapError .json

end Chart

/-! ### Files -/

/-- The last part of a path, without those that stand for the directory itself. -/
def fileName? (path : String) : Option String :=
  match ((path.splitOn "/").filter fun part => part ≠ "" && part ≠ ".").getLast? with
  | some ".." => none
  | part => part

/-- The extension of a path: what follows the last dot of its last part, unless that dot is in
front. -/
def extension? (path : String) : Option String :=
  (fileName? path).bind fun name =>
    match (name.splitOn ".").reverse with
    | extension :: before@(_ :: _) => if before = [""] then none else some extension
    | _ => none

/-- The text of a file's bytes, of a file that is there. -/
def fileText (bytes : Option ByteArray) : Except LoadFault String :=
  match bytes.bind String.fromUTF8? with
  | some text => .ok text
  | none => .error .unreadable

/-- The chart in a file with the given path and bytes, in the format that the extension names. -/
def loadChart (path : String) (bytes : Option ByteArray) : Except LoadFault Chart := do
  let text ← fileText bytes
  match ((extension? path).getD "").map Char.toLower with
  | "yaml" | "yml" => (ChartDocument.ofYaml text).map ChartDocument.chart
  | "json" => Chart.ofJson text
  | "" => throw (.unsupportedFormat path)
  | other => throw (.unsupportedFormat other)

end ChartPipeline
