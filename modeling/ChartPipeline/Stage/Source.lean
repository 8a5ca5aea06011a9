import ChartPipeline.Chart.Encode
import ChartPipeline.Dataset.Basic
import ChartPipeline.Digest.Sha256
import ChartPipeline.Json.Printer

/-!
# Sources

A source is where a tree of stages begins: one declaration of data, with the hash of its JSON
text, so that equal declarations share a source.
-/

namespace ChartPipeline

/-- A data declaration with its hash. -/
structure Source where
  data : DataSource
  hash : String
deriving Inhabited

namespace Source

/-- The hash of a declaration: the digest of its JSON text. -/
def hashOf (data : DataSource) : String := Sha256.hexDigest data.toJson.compact

/-- The source of a declaration. -/
def ofData (data : DataSource) : Source := ⟨data, hashOf data⟩

/-- The first eight digits of the hash. -/
def shortHash (s : Source) : String := (s.hash.take 8).toString

/-- The name under which the data are bound later. -/
def datasetName? (s : Source) : Option String :=
  match s.data with
  | .named name => some name
  | _ => none

/-- The record that loads the data. -/
def record (s : Source) (name : String) : DatasetRecord :=
  match s.data with
  | .values values format => { name, values := some values, format }
  | .url url format => { name, url := some url, format }
  | .sequence params => { name, steps := [.sequence params] }
  | .named _ => { name }

end Source

end ChartPipeline
