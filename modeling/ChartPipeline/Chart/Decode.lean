import ChartPipeline.Chart.Basic
import ChartPipeline.Value.Decode

/-!
# Reading charts off documents

Each type of the chart model has its decoder.  Of a part with several forms the first form that
fits is taken.
-/

namespace ChartPipeline

namespace Channel

/-- A channel by its name. -/
def decode (place : Place) : Decoder Channel := place.choice name all

end Channel

/-- A time unit by its name. -/
def TimeUnit.decode (place : Place) : Decoder TimeUnit := place.choice TimeUnit.name TimeUnit.all

/-- A field type by its name. -/
def FieldType.decode (place : Place) : Decoder FieldType :=
  place.choice FieldType.name [.quantitative, .ordinal, .nominal, .temporal]

/-- An aggregation by its name. -/
def AggregateOp.decode (place : Place) : Decoder AggregateOp :=
  place.choice AggregateOp.name
    [.count, .valid, .missing, .distinct, .sum, .mean, .average, .variance, .stdev, .median,
      .q1, .q3, .min, .max]

/-- A scale type by its name. -/
def ScaleType.decode (place : Place) : Decoder ScaleType :=
  place.choice ScaleType.name
    [.linear, .log, .pow, .sqrt, .time, .utc, .sequential, .ordinal, .band, .point]

/-- A direction by its name. -/
def SortOrder.decode (place : Place) : Decoder SortOrder :=
  place.choice SortOrder.name [.ascending, .descending]

/-- A mark by its name. -/
def Mark.decode (place : Place) : Decoder Mark :=
  place.choice Mark.name
    [.point, .circle, .square, .tick, .bar, .rect, .rule, .text, .line, .area]

/-- An offset by its name. -/
def StackOffset.decode (place : Place) : Decoder StackOffset :=
  place.choice StackOffset.name [.zero, .center, .normalize]

/-- A data output by its name. -/
def DataOutput.decode (place : Place) : Decoder DataOutput :=
  place.choice DataOutput.name [.raw, .main]

/-- Bounds: two numbers. -/
def decodeBounds (place : Place) : Decoder (Float × Float) := place.pair place.float

/-- The parameters of a binning. -/
def BinParams.decode (place : Place) : Decoder BinParams := fun v => do
  let fields ← place.record ["extent", "maxbins", "step", "minstep", "nice", "base"] v
  let extent ← Fields.optional fields "extent" place (decodeBounds place)
  let maxbins ← Fields.optional fields "maxbins" place (place.nat (2 ^ 32))
  let step ← Fields.optional fields "step" place place.float
  let minstep ← Fields.optional fields "minstep" place place.float
  let nice ← Fields.optional fields "nice" place place.bool
  let base ← Fields.optional fields "base" place place.float
  pure { extent, maxbins, step, minstep, nice, base }

/-- A flag, or parameters. -/
def BinSpec.decode : Decoder BinSpec := fun v =>
  if v.isPlain then
    ((Place.nested.bool v).map .flag).orElse fun _ =>
      (BinParams.decode .nested v).map .params
  else none

/-- A scale, of which the type matters. -/
def decodeScale (place : Place) : Decoder ScaleType := fun v => do
  let fields ← place.record ["type"] v
  Fields.required fields "type" (ScaleType.decode place)

/-- The labels of an axis or a legend. -/
def Guide.decode (place : Place) : Decoder Guide := fun v => do
  let fields ← place.record ["format"] v
  let format ← Fields.optional fields "format" place place.string
  pure { format }

/-- A field definition. -/
def FieldDef.decode (place : Place) : Decoder FieldDef := fun v => do
  let fields ← place.record
    ["field", "type", "aggregate", "bin", "time_unit", "scale", "axis", "legend", "sort"] v
  let field ← Fields.optional fields "field" place place.string
  let type ← Fields.required fields "type" (FieldType.decode place)
  let aggregate ← Fields.optional fields "aggregate" place (AggregateOp.decode place)
  let bin ← Fields.optional fields "bin" place BinSpec.decode
  let timeUnit ← Fields.optional fields "time_unit" place (TimeUnit.decode place)
  let scale ← Fields.optional fields "scale" place (decodeScale place)
  let axis ← Fields.optional fields "axis" place (Guide.decode place)
  let legend ← Fields.optional fields "legend" place (Guide.decode place)
  let sort ← Fields.optional fields "sort" place (SortOrder.decode place)
  pure { field, type, aggregate, bin, timeUnit, scale, axis, legend, sort }

/-- The text of an expression, or a condition on a field. -/
def Predicate.decode : Decoder Predicate := fun v =>
  if v.isPlain then
    (v.str?.map expression).orElse fun _ =>
      (decodeEqual v).orElse fun _ => (decodeRange v).orElse fun _ => decodeOneOf v
  else none
where
  /-- Equality with a value. -/
  decodeEqual (v : Value) : Option Predicate := do
    let fields ← Place.variant ["field", "equal"] v
    let field ← Fields.required fields "field" Place.nested.string
    let value ← Fields.required fields "equal" Value.toJson?
    pure (equal field value)
  /-- A range. -/
  decodeRange (v : Value) : Option Predicate := do
    let fields ← Place.variant ["field", "range"] v
    let field ← Fields.required fields "field" Place.nested.string
    let (low, high) ← Fields.required fields "range" (decodeBounds .nested)
    pure (range field low high)
  /-- Membership in a list. -/
  decodeOneOf (v : Value) : Option Predicate := do
    let fields ← Place.variant ["field", "one_of"] v
    let field ← Fields.required fields "field" Place.nested.string
    let values ← Fields.required fields "one_of" (Place.nested.list Value.toJson?)
    pure (oneOf field values)

/-- A filter, or a calculated field. -/
def Transform.decode : Decoder Transform := fun v =>
  if v.isPlain then (decodeFilter v).orElse fun _ => decodeCalculate v else none
where
  /-- A filter. -/
  decodeFilter (v : Value) : Option Transform := do
    let fields ← Place.variant ["filter"] v
    let predicate ← Fields.required fields "filter" Predicate.decode
    pure (filter predicate)
  /-- A calculated field. -/
  decodeCalculate (v : Value) : Option Transform := do
    let fields ← Place.variant ["calculate", "as"] v
    let expression ← Fields.required fields "calculate" Place.nested.string
    let output ← Fields.required fields "as" Place.nested.string
    pure (calculate expression output)

/-- A map from strings to strings. -/
def decodeStringMap : Decoder (SortedMap String String)
  | .map entries => do
    let es ← entries.mapM fun e => do
      let k ← e.1.str?
      let v ← e.2.str?
      pure (k, v)
    pure (SortedMap.ofList es)
  | _ => none

/-- A load format. -/
def DataFormat.decode (place : Place) : Decoder DataFormat := fun v => do
  let fields ← place.record ["type", "parse"] v
  let type ← Fields.optional fields "type" place place.string
  let parse ← Fields.optional fields "parse" place decodeStringMap
  pure { type, parse }

/-- The parameters of a sequence. -/
def SequenceParams.decode (place : Place) : Decoder SequenceParams := fun v => do
  let fields ← place.record ["start", "stop", "step", "as"] v
  let start ← Fields.required fields "start" place.float
  let stop ← Fields.required fields "stop" place.float
  let step ← Fields.optional fields "step" place place.float
  let output ← Fields.optional fields "as" place place.string
  pure { start, stop, step, output }

/-- A data declaration: values, a file, a sequence, or a name. -/
def DataSource.decode : Decoder DataSource := fun v =>
  if v.isPlain then
    (decodeValues v).orElse fun _ => (decodeUrl v).orElse fun _ =>
      (decodeSequence v).orElse fun _ => decodeNamed v
  else none
where
  /-- Rows given in place. -/
  decodeValues (v : Value) : Option DataSource := do
    let fields ← Place.variant ["values", "format"] v
    let rows ← Fields.required fields "values" (Place.nested.list Value.toJson?)
    let format ← Fields.optional fields "format" .nested (DataFormat.decode .nested)
    pure (values rows format)
  /-- A file. -/
  decodeUrl (v : Value) : Option DataSource := do
    let fields ← Place.variant ["url", "format"] v
    let address ← Fields.required fields "url" Place.nested.string
    let format ← Fields.optional fields "format" .nested (DataFormat.decode .nested)
    pure (url address format)
  /-- A sequence of numbers. -/
  decodeSequence (v : Value) : Option DataSource := do
    let fields ← Place.variant ["sequence"] v
    let params ← Fields.required fields "sequence" (SequenceParams.decode .nested)
    pure (sequence params)
  /-- A name. -/
  decodeNamed (v : Value) : Option DataSource := do
    let fields ← Place.variant ["name"] v
    let name ← Fields.required fields "name" Place.nested.string
    pure (named name)

/-- The settings of a chart. -/
def ChartConfig.decode (place : Place) : Decoder ChartConfig := fun v => do
  let fields ← place.record ["number_format", "filter_invalid"] v
  let numberFormat ← Fields.withDefault fields "number_format" "s" place.string
  let filterInvalid ← Fields.optional fields "filter_invalid" place place.bool
  pure { numberFormat, filterInvalid }

/-- How a unit stacks. -/
def StackProperties.decode (place : Place) : Decoder StackProperties := fun v => do
  let fields ← place.record ["field_channel", "groupby_channel", "stack_by", "offset"] v
  let fieldChannel ← Fields.required fields "field_channel" (Channel.decode place)
  let groupbyChannel ← Fields.optional fields "groupby_channel" place (Channel.decode place)
  let stackBy ← Fields.withDefault fields "stack_by" [] (place.list (Channel.decode place))
  let offset ← Fields.withDefault fields "offset" .zero (StackOffset.decode place)
  pure { fieldChannel, groupbyChannel, stackBy, offset }

/-- The channels of a unit. -/
def decodeEncoding : Decoder Encoding
  | .map entries => do
    let es ← entries.mapM fun e => do
      let channel ← Channel.decode .nested e.1
      let definition ← FieldDef.decode .nested e.2
      pure (channel, definition)
    pure (SortedMap.ofList es)
  | _ => none

/-- The dimensions of a facet. -/
def FacetMapping.decode (place : Place) : Decoder FacetMapping := fun v => do
  let fields ← place.record ["row", "column"] v
  let row ← Fields.optional fields "row" place (FieldDef.decode place)
  let column ← Fields.optional fields "column" place (FieldDef.decode place)
  pure { row, column }

namespace Chart

mutual

/-- A chart whose value nests less than `n` deep. -/
def decodeWithin : Nat → Place → Decoder Chart
  | 0, _, _ => none
  | n + 1, place, v => do
    let fields ← place.record ["name", "data", "transform", "config", "requested_data", "kind"] v
    let name ← Fields.withDefault fields "name" "" place.string
    let data ← Fields.optional fields "data" place DataSource.decode
    let transforms ← Fields.withDefault fields "transform" [] (place.list Transform.decode)
    let config ← Fields.withDefault fields "config" {} (ChartConfig.decode place)
    let requested ← Fields.withDefault fields "requested_data" []
      (place.list (DataOutput.decode place))
    let kind ← Fields.get? fields "kind"
    decodeKind n place { name, data, transforms, config, requested } kind

/-- What kind of chart it is, below a header that is already read. -/
def decodeKind : Nat → Place → ChartHeader → Decoder Chart
  | 0, _, _, _ => none
  | n + 1, place, header, v => do
    -- the form of a kind is looked at first, so all below it is nested
    let (kind, rest) ← place.form ["unit", "layer", "facet"] v
    if kind = "unit" then
      let fields ← Place.nested.record ["mark", "encoding", "stack"] rest
      let mark ← Fields.required fields "mark" (Mark.decode .nested)
      let encoding ← Fields.withDefault fields "encoding" ∅ decodeEncoding
      let stack ← Fields.optional fields "stack" .nested (StackProperties.decode .nested)
      pure (unit header mark encoding stack)
    else if kind = "layer" then
      let fields ← Place.nested.record ["children"] rest
      let children ← Fields.withDefault fields "children" []
        (Place.nested.list (decodeWithin n .nested))
      pure (layer header children)
    else
      let fields ← Place.nested.record ["facet", "child"] rest
      let mapping ← Fields.required fields "facet" (FacetMapping.decode .nested)
      let child ← Fields.required fields "child" (decodeWithin n .nested)
      pure (facet header mapping child)

end

/-- A chart. -/
def decode (place : Place) : Decoder Chart := fun v => decodeWithin (v.depth + 2) place v

end Chart

end ChartPipeline
