import ChartPipeline.Chart.Basic
import ChartPipeline.Dataset.Step

/-!
# Grouping, sorting and stacking

The stages that look at several rows at once: aggregation, sorting and stacking of a unit, and
the partitions of a facet.
-/

namespace ChartPipeline

/-- Adds the names that are not there yet, in order. -/
def addNames (names more : List String) : List String :=
  more.foldl (fun acc n => if acc.contains n then acc else acc ++ [n]) names

/-- An aggregate of a field, of `*` for a count. -/
structure Measure where
  field : String
  op : AggregateOp
deriving DecidableEq, Repr, Inhabited

/-- The field that receives the aggregate. -/
def Measure.output (m : Measure) : String := m.op.name ++ "_" ++ m.field

/-- Groups of rows, with aggregates of each group. -/
structure Aggregation where
  dimensions : List String := []
  measures : List Measure := []
deriving DecidableEq, Inhabited

namespace Aggregation

/-- Groups by more fields. -/
def addDimensions (a : Aggregation) (fields : List String) : Aggregation :=
  { a with dimensions := addNames a.dimensions fields }

/-- Adds an aggregate unless it is there. -/
def addMeasure (a : Aggregation) (m : Measure) : Aggregation :=
  if a.measures.contains m then a else { a with measures := a.measures ++ [m] }

/-- What a channel adds to the aggregation: an aggregate, or the fields to group by. -/
def addChannel (a : Aggregation) (f : FieldDef) : Aggregation :=
  if f.isCount then a.addMeasure ⟨"*", .count⟩
  else match f.aggregate with
    | some op => match f.field with
      | some field => a.addMeasure ⟨field, op⟩
      | none => a
    | none =>
      if f.binParams?.isSome then
        -- groups of bins have their ends, and their label where a scale shows it
        let parts := [BinField.start, .stop] ++ if f.hasDiscreteScale then [.range] else []
        a.addDimensions (parts.filterMap f.binOutput?)
      else a.addDimensions f.outputName?.toList

/-- The aggregation of a chart, if a channel aggregates. -/
def ofChart? (chart : Chart) : Option Aggregation :=
  if chart.fieldDefs.any fun d => d.2.aggregate.isSome then
    some (chart.fieldDefs.foldl (fun a d => a.addChannel d.2) {})
  else none

/-- The groups and aggregates of both. -/
def merge (a b : Aggregation) : Aggregation :=
  b.measures.foldl addMeasure (a.addDimensions b.dimensions)

/-- The aggregation step. -/
def step (a : Aggregation) : Step :=
  .aggregate a.dimensions (a.measures.map Measure.field) (a.measures.map fun m => m.op.name)
    (a.measures.map Measure.output)

end Aggregation

/-- How a unit sorts its rows: by its `order` channel, or by `x` if its mark is a path. -/
def sortSpec? : Chart → Option SortSpec
  | .unit _ mark encoding _ =>
    let sorted : Option (FieldDef × SortOrder) :=
      match encoding.get? .order with
      | some f => some (f, f.sort.getD .ascending)
      | none => if mark.isPath then (encoding.get? .x).map (·, .ascending) else none
    sorted.bind fun (f, order) =>
      f.outputName?.map fun field => { fields := [field], orders := [order.name] }
  | _ => none

/-- A channel that a stack reads but that names no field. -/
structure UnreadableChannel where
  /-- The name of the chart. -/
  chart : String
  channel : Channel
deriving DecidableEq

/-- A stack of values. -/
structure Stacking where
  groupby : List String
  /-- The stacked field. -/
  field : String
  /-- The fields that order the layers. -/
  stackBy : List String
  offset : StackOffset
deriving DecidableEq, Inhabited

namespace Stacking

/-- The field that a channel of a chart reads in the end. -/
def channelOutput (chart : Chart) (channel : Channel) : Except UnreadableChannel String :=
  match (chart.channel? channel).bind FieldDef.outputName? with
  | some output => .ok output
  | none => .error ⟨chart.name, channel⟩

/-- The stack of a unit. -/
def ofChart? (chart : Chart) : Except UnreadableChannel (Option Stacking) :=
  match chart with
  | .unit _ _ _ (some properties) => do
    let field ← channelOutput chart properties.fieldChannel
    let groupby ← properties.groupbyChannel.toList.mapM (channelOutput chart)
    let stackBy ← properties.stackBy.mapM (channelOutput chart)
    pure (some { groupby, field, stackBy, offset := properties.offset })
  | _ => pure none

/-- Stacks within more groups. -/
def addDimensions (s : Stacking) (fields : List String) : Stacking :=
  { s with groupby := addNames s.groupby fields }

/-- The stacking step. -/
def step (s : Stacking) : Step :=
  .stack {
    groupby := s.groupby
    field := s.field
    sort := ⟨s.stackBy, s.stackBy.map fun _ => SortOrder.descending.name⟩
    start := s.field ++ "_start"
    stop := s.field ++ "_end"
    offset := s.offset.name }

end Stacking

/-- The field of a facet's dimension. -/
def facetField? (chart : Chart) (dimension : Channel) : Option String :=
  match chart with
  | .facet _ mapping _ => (mapping.channel? dimension).bind FieldDef.outputName?
  | _ => none

/-- The values of one dimension of a facet, for its headers. -/
structure FacetHeader where
  name : String
  field : String
  dimension : Channel
deriving DecidableEq, Inhabited

/-- The values of a dimension; there are none if the chart has no such dimension. -/
def FacetHeader.ofChart? (chart : Chart) (dimension : Channel) : Option FacetHeader :=
  (facetField? chart dimension).map fun field =>
    { name := chart.nameFor dimension.name, field, dimension }

/-- The step that collects the values. -/
def FacetHeader.step (h : FacetHeader) : Step := .aggregate [h.field] [] [] []

/-- The partitions of a facet. -/
structure Partition where
  name : String
  /-- The fields that tell the partitions apart, columns first. -/
  groupby : List String
deriving DecidableEq, Inhabited

/-- The partitions of a facet chart. -/
def Partition.ofChart? (chart : Chart) : Option Partition :=
  match chart with
  | .facet .. => some {
      name := chart.nameFor "facet"
      groupby := [Channel.column, .row].filterMap (facetField? chart) }
  | _ => none

end ChartPipeline
