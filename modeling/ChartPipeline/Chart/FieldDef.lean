import ChartPipeline.Chart.Bin
import ChartPipeline.Chart.TimeUnit

/-!
# Field definitions

A field definition says what one channel reads from the data: the field, how it is measured, and
what is derived from it by aggregation, binning or a time unit.  `FieldDef.outputName?` names the
field that is read in the end.
-/

namespace ChartPipeline

/-- How a field is measured. -/
inductive FieldType where
  | quantitative | ordinal | nominal | temporal
deriving DecidableEq, Repr, Inhabited

/-- The name of a field type. -/
def FieldType.name : FieldType → String
  | quantitative => "quantitative"
  | ordinal => "ordinal"
  | nominal => "nominal"
  | temporal => "temporal"

/-- An aggregation. -/
inductive AggregateOp where
  | count | valid | missing | distinct | sum | mean | average | variance | stdev | median
  | q1 | q3 | min | max
deriving DecidableEq, Repr, Inhabited

/-- The name of an aggregation. -/
def AggregateOp.name : AggregateOp → String
  | count => "count"
  | valid => "valid"
  | missing => "missing"
  | distinct => "distinct"
  | sum => "sum"
  | mean => "mean"
  | average => "average"
  | variance => "variance"
  | stdev => "stdev"
  | median => "median"
  | q1 => "q1"
  | q3 => "q3"
  | min => "min"
  | max => "max"

/-- The type of a channel's scale. -/
inductive ScaleType where
  | linear | log | pow | sqrt | time | utc | sequential | ordinal | band | point
deriving DecidableEq, Repr, Inhabited

/-- The name of a scale type. -/
def ScaleType.name : ScaleType → String
  | linear => "linear"
  | log => "log"
  | pow => "pow"
  | sqrt => "sqrt"
  | time => "time"
  | utc => "utc"
  | sequential => "sequential"
  | ordinal => "ordinal"
  | band => "band"
  | point => "point"

/-- Whether a scale maps single values and not ranges. -/
def ScaleType.isDiscrete : ScaleType → Bool
  | ordinal | band | point => true
  | _ => false

/-- A direction of sorting. -/
inductive SortOrder where
  | ascending | descending
deriving DecidableEq, Repr, Inhabited

/-- The name of a direction. -/
def SortOrder.name : SortOrder → String
  | ascending => "ascending"
  | descending => "descending"

/-- The labels of an axis or a legend. -/
structure Guide where
  format : Option String := none
deriving DecidableEq, Inhabited

/-- The generated fields of a binning. -/
inductive BinField where
  | start | stop | range
deriving DecidableEq, Repr

/-- The ending of a generated field's name. -/
def BinField.ending : BinField → String
  | start => "start"
  | stop => "end"
  | range => "range"

/-- What a channel reads from the data. -/
structure FieldDef where
  /-- The field of the source; a count has none. -/
  field : Option String := none
  type : FieldType
  aggregate : Option AggregateOp := none
  bin : Option BinSpec := none
  timeUnit : Option TimeUnit := none
  scale : Option ScaleType := none
  axis : Option Guide := none
  legend : Option Guide := none
  /-- The direction that the `order` channel sorts by. -/
  sort : Option SortOrder := none
deriving Inhabited

namespace FieldDef

/-- The definition of a named field. -/
def named (field : String) (type : FieldType) : FieldDef := { field := some field, type }

/-- The definition that counts rows. -/
def count : FieldDef := { type := .quantitative, aggregate := some .count }

/-- Aggregates the field. -/
def withAggregate (f : FieldDef) (op : AggregateOp) : FieldDef := { f with aggregate := some op }

/-- Bins the field, or says that it is not binned. -/
def withBin (f : FieldDef) (bin : BinSpec) : FieldDef := { f with bin := some bin }

/-- Cuts the field down to a time unit. -/
def withTimeUnit (f : FieldDef) (unit : TimeUnit) : FieldDef := { f with timeUnit := some unit }

/-- Gives the channel a scale. -/
def withScale (f : FieldDef) (type : ScaleType) : FieldDef := { f with scale := some type }

/-- Gives the labels of the axis a format. -/
def withAxisFormat (f : FieldDef) (format : String) : FieldDef :=
  { f with axis := some ⟨some format⟩ }

/-- Gives the labels of the legend a format. -/
def withLegendFormat (f : FieldDef) (format : String) : FieldDef :=
  { f with legend := some ⟨some format⟩ }

/-- Gives the direction that the `order` channel sorts by. -/
def withSort (f : FieldDef) (order : SortOrder) : FieldDef := { f with sort := some order }

/-- Whether the channel counts rows. -/
def isCount (f : FieldDef) : Bool := f.aggregate = some .count

/-- The parameters to bin with, if the field is binned. -/
def binParams? (f : FieldDef) : Option BinParams := f.bin.bind BinSpec.params?

/-- The key of the channel's binning. -/
def binKey? (f : FieldDef) : Option String :=
  f.binParams?.bind fun p => f.field.map p.fieldKey

/-- The name of a generated field of the channel's binning. -/
def binOutput? (f : FieldDef) (part : BinField) : Option String :=
  f.binKey?.map (· ++ "_" ++ part.ending)

/-- The name of the field that is read after everything derived from it: the aggregate, else the
start of the bin, else the time unit, else the field itself. -/
def outputName? (f : FieldDef) : Option String :=
  if f.isCount then some "count_*"
  else f.field.bind fun field =>
    match f.aggregate with
    | some op => some (op.name ++ "_" ++ field)
    | none =>
      if f.binParams?.isSome then f.binOutput? .start
      else match f.timeUnit with
        | some unit => some (unit.outputName field)
        | none => some field

/-- Whether the channel's scale maps single values. -/
def hasDiscreteScale (f : FieldDef) : Bool := f.scale.any ScaleType.isDiscrete

/-- Whether the channel's scale is logarithmic. -/
def hasLogScale (f : FieldDef) : Bool := f.scale = some .log

/-- The format of the axis, or else of the legend. -/
def guideFormat? (f : FieldDef) : Option String :=
  (f.axis.bind Guide.format).orElse fun _ => f.legend.bind Guide.format

end FieldDef

end ChartPipeline
