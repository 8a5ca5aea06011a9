import ChartPipeline.Chart.Decode
import ChartPipeline.Dataset.Basic

/-!
# Reading datasets off documents
-/

namespace ChartPipeline

/-- A list of strings. -/
def decodeStrings (place : Place) : Decoder (List String) := place.list place.string

/-- A signal, or fixed bounds. -/
def BinExtent.decode : Decoder BinExtent := fun v =>
  if v.isPlain then
    (decodeSignal v).orElse fun _ => (decodeBounds .nested v).map fun b => bounds b.1 b.2
  else none
where
  /-- A signal. -/
  decodeSignal (v : Value) : Option BinExtent := do
    let fields ← Place.variant ["signal"] v
    let name ← Fields.required fields "signal" Place.nested.string
    pure (signal name)

/-- Fields to sort by. -/
def SortSpec.decode (place : Place) : Decoder SortSpec := fun v => do
  let record ← place.record ["field", "order"] v
  let fields ← Fields.required record "field" (decodeStrings place)
  let orders ← Fields.required record "order" (decodeStrings place)
  pure { fields, orders }

namespace Step

/-- The kinds of steps. -/
def kinds : List String :=
  ["filter", "formula", "extent", "bin", "aggregate", "stack", "collect", "sequence"]

/-- A binning step below its kind. -/
def decodeBin (rest : Value) : Option Step := do
  let place := Place.nested
  let fields ← place.record
    ["field", "as", "signal", "extent", "maxbins", "step", "minstep", "nice", "base"] rest
  let field ← Fields.required fields "field" place.string
  let (start, stop) ← Fields.required fields "as" (place.pair place.string)
  let signal ← Fields.required fields "signal" place.string
  let extent ← Fields.required fields "extent" BinExtent.decode
  let maxbins ← Fields.optional fields "maxbins" place (place.nat (2 ^ 32))
  let step ← Fields.optional fields "step" place place.float
  let minstep ← Fields.optional fields "minstep" place place.float
  let nice ← Fields.optional fields "nice" place place.bool
  let base ← Fields.optional fields "base" place place.float
  pure (bin { field, start, stop, signal, extent, maxbins, step, minstep, nice, base })

/-- An aggregation step below its kind. -/
def decodeAggregate (rest : Value) : Option Step := do
  let place := Place.nested
  let record ← place.record ["groupby", "fields", "ops", "as"] rest
  let groupby ← Fields.withDefault record "groupby" [] (decodeStrings place)
  let fields ← Fields.withDefault record "fields" [] (decodeStrings place)
  let ops ← Fields.withDefault record "ops" [] (decodeStrings place)
  let outputs ← Fields.withDefault record "as" [] (decodeStrings place)
  pure (aggregate groupby fields ops outputs)

/-- A stacking step below its kind. -/
def decodeStack (rest : Value) : Option Step := do
  let place := Place.nested
  let fields ← place.record ["groupby", "field", "sort", "as", "offset"] rest
  let groupby ← Fields.withDefault fields "groupby" [] (decodeStrings place)
  let field ← Fields.required fields "field" place.string
  let sort ← Fields.withDefault fields "sort" {} (SortSpec.decode place)
  let (start, stop) ← Fields.required fields "as" (place.pair place.string)
  let offset ← Fields.required fields "offset" place.string
  pure (stack { groupby, field, sort, start, stop, offset })

/-- A step. -/
def decode (place : Place) : Decoder Step := fun v => do
  let (kind, rest) ← place.form kinds v
  let inner := Place.nested
  match kind with
  | "filter" =>
    let fields ← inner.record ["expr"] rest
    let expression ← Fields.required fields "expr" inner.string
    pure (filter expression)
  | "formula" =>
    let fields ← inner.record ["expr", "as"] rest
    let expression ← Fields.required fields "expr" inner.string
    let output ← Fields.required fields "as" inner.string
    pure (formula expression output)
  | "extent" =>
    let fields ← inner.record ["field", "signal"] rest
    let field ← Fields.required fields "field" inner.string
    let signal ← Fields.required fields "signal" inner.string
    pure (extent field signal)
  | "bin" => decodeBin rest
  | "aggregate" => decodeAggregate rest
  | "stack" => decodeStack rest
  | "collect" =>
    let fields ← inner.record ["sort"] rest
    let sort ← Fields.required fields "sort" (SortSpec.decode inner)
    pure (collect sort)
  | _ => (SequenceParams.decode inner rest).map sequence

end Step

/-- A dataset record. -/
def DatasetRecord.decode (place : Place) : Decoder DatasetRecord := fun v => do
  let fields ← place.record ["name", "source", "values", "url", "format", "transform"] v
  let name ← Fields.required fields "name" place.string
  let source ← Fields.optional fields "source" place place.string
  let values ← Fields.optional fields "values" place (place.list Value.toJson?)
  let url ← Fields.optional fields "url" place place.string
  let format ← Fields.optional fields "format" place (DataFormat.decode place)
  let steps ← Fields.withDefault fields "transform" [] (place.list (Step.decode place))
  pure { name, source, values, url, format, steps }

/-- The datasets of a facet. -/
def FacetData.decode (place : Place) : Decoder FacetData := fun v => do
  let fields ← place.record ["name", "source", "groupby", "datasets"] v
  let name ← Fields.required fields "name" place.string
  let source ← Fields.required fields "source" place.string
  let groupby ← Fields.required fields "groupby" (decodeStrings place)
  let datasets ← Fields.withDefault fields "datasets" [] (place.list (DatasetRecord.decode place))
  pure { name, source, groupby, datasets }

/-- All datasets of a chart. -/
def CompiledData.decode (place : Place) : Decoder CompiledData := fun v => do
  let fields ← place.record ["datasets", "facets"] v
  let datasets ← Fields.required fields "datasets" (place.list (DatasetRecord.decode place))
  let facets ← Fields.withDefault fields "facets" [] (place.list (FacetData.decode place))
  pure { datasets, facets }

end ChartPipeline
