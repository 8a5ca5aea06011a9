import ChartPipeline.Chart.DataSource
import ChartPipeline.Chart.FieldDef
import ChartPipeline.Chart.Predicate

/-!
# Charts

A chart is a unit with one mark, a layer of charts on top of each other, or a facet that repeats
a chart for every row and column.  Each has a header: its name, data, transforms and settings.  A
chart without data of its own takes those of the chart around it.
-/

namespace ChartPipeline

/-- The mark that a unit draws. -/
inductive Mark where
  | point | circle | square | tick | bar | rect | rule | text | line | area
deriving DecidableEq, Repr, Inhabited

/-- The name of a mark. -/
def Mark.name : Mark → String
  | point => "point"
  | circle => "circle"
  | square => "square"
  | tick => "tick"
  | bar => "bar"
  | rect => "rect"
  | rule => "rule"
  | text => "text"
  | line => "line"
  | area => "area"

/-- Whether the mark is drawn as one connected path. -/
def Mark.isPath : Mark → Bool
  | line | area => true
  | _ => false

/-- Where a stack starts. -/
inductive StackOffset where
  | zero | center | normalize
deriving DecidableEq, Repr, Inhabited

/-- The name of an offset. -/
def StackOffset.name : StackOffset → String
  | zero => "zero"
  | center => "center"
  | normalize => "normalize"

/-- How a unit stacks. -/
structure StackProperties where
  /-- The channel whose field is stacked. -/
  fieldChannel : Channel
  /-- The channel whose field tells the stacks apart. -/
  groupbyChannel : Option Channel := none
  /-- The channels whose fields order the layers of a stack. -/
  stackBy : List Channel := []
  offset : StackOffset := .zero
deriving Inhabited

/-- The channels that a stack reads. -/
def StackProperties.channels (s : StackProperties) : List Channel :=
  s.fieldChannel :: (s.groupbyChannel.toList ++ s.stackBy)

/-- The channels of a unit, in their order. -/
abbrev Encoding := SortedMap Channel FieldDef

/-- The fields that a facet partitions the data by. -/
structure FacetMapping where
  row : Option FieldDef := none
  column : Option FieldDef := none
deriving Inhabited

namespace FacetMapping

/-- The declared dimensions, columns first. -/
def fieldDefs (facet : FacetMapping) : List (Channel × FieldDef) :=
  facet.column.toList.map (Channel.column, ·) ++ facet.row.toList.map (Channel.row, ·)

/-- The field definition of a dimension. -/
def channel? (facet : FacetMapping) : Channel → Option FieldDef
  | .row => facet.row
  | .column => facet.column
  | _ => none

end FacetMapping

/-- The datasets of a chart that others may read by name. -/
inductive DataOutput where
  /-- The data before aggregation. -/
  | raw
  /-- The data that the marks read. -/
  | main
deriving DecidableEq, Repr, Inhabited

/-- The name of a data output. -/
def DataOutput.name : DataOutput → String
  | raw => "raw"
  | main => "main"

/-- The settings of a chart. -/
structure ChartConfig where
  /-- The format of bin labels without a format of their own. -/
  numberFormat : String := "s"
  /-- Whether invalid values are dropped; if unset, those of quantitative and temporal fields. -/
  filterInvalid : Option Bool := none
deriving DecidableEq, Inhabited

/-- A transform that a chart declares. -/
inductive Transform where
  | filter (predicate : Predicate)
  | calculate (expression output : String)
deriving Inhabited

/-- The field that a transform creates. -/
def Transform.output? : Transform → Option String
  | filter _ => none
  | calculate _ output => some output

/-- What every chart has. -/
structure ChartHeader where
  /-- The beginning of the names made for the chart; empty for none. -/
  name : String := ""
  /-- The data of the chart; without them it takes those around it. -/
  data : Option DataSource := none
  /-- The transforms, in the order in which they apply. -/
  transforms : List Transform := []
  config : ChartConfig := {}
  /-- The outputs that others read. -/
  requested : List DataOutput := []
deriving Inhabited

/-- A chart. -/
inductive Chart where
  | unit (header : ChartHeader) (mark : Mark) (encoding : Encoding)
      (stack : Option StackProperties)
  | layer (header : ChartHeader) (children : List Chart)
  | facet (header : ChartHeader) (facet : FacetMapping) (child : Chart)
deriving Inhabited

/-- The name made from a text for the chart: the chart's own name goes in front. -/
def ChartHeader.nameFor (h : ChartHeader) (text : String) : String :=
  if h.name.isEmpty then text else h.name ++ "_" ++ text

/-- The name of a chart in messages. -/
def ChartHeader.displayName (h : ChartHeader) : String :=
  if h.name.isEmpty then "<root>" else h.name

namespace Chart

/-- The header of a chart. -/
def header : Chart → ChartHeader
  | unit h _ _ _ => h
  | layer h _ => h
  | facet h _ _ => h

/-- Changes the header and nothing else. -/
def mapHeader (f : ChartHeader → ChartHeader) : Chart → Chart
  | unit h mark encoding stack => unit (f h) mark encoding stack
  | layer h children => layer (f h) children
  | facet h mapping child => facet (f h) mapping child

/-- The name of a chart. -/
def name (chart : Chart) : String := chart.header.name

/-- The name made from a text for this chart. -/
def nameFor (chart : Chart) (text : String) : String := chart.header.nameFor text

/-- Whether others read an output of the chart. -/
def requests (chart : Chart) (output : DataOutput) : Bool := chart.header.requested.contains output

/-- Whether the chart is a unit. -/
def isUnit : Chart → Bool
  | unit .. => true
  | _ => false

/-- The charts inside a chart. -/
def children : Chart → List Chart
  | unit .. => []
  | layer _ children => children
  | facet _ _ child => [child]

/-- The field definitions that the stages of the chart itself read: the channels of a unit, the
dimensions of a facet. -/
def fieldDefs : Chart → List (Channel × FieldDef)
  | unit _ _ encoding _ => encoding.entries
  | layer .. => []
  | facet _ mapping _ => mapping.fieldDefs

/-- The field definition of a channel or a dimension. -/
def channel? : Chart → Channel → Option FieldDef
  | unit _ _ encoding _, c => encoding.get? c
  | layer .., _ => none
  | facet _ mapping _, c => mapping.channel? c

/-! ### Building charts -/

/-- A unit that encodes nothing yet. -/
def ofMark (mark : Mark) : Chart := unit {} mark ∅ none

/-- Charts on top of each other. -/
def ofLayers (children : List Chart) : Chart := layer {} children

/-- A chart repeated for every row and column. -/
def ofFacet (mapping : FacetMapping) (child : Chart) : Chart := facet {} mapping child

/-- Gives the chart a name. -/
def withName (chart : Chart) (name : String) : Chart :=
  chart.mapHeader fun h => { h with name }

/-- Gives the chart data of its own. -/
def withData (chart : Chart) (data : DataSource) : Chart :=
  chart.mapHeader fun h => { h with data := some data }

/-- Gives the chart settings. -/
def withConfig (chart : Chart) (config : ChartConfig) : Chart :=
  chart.mapHeader fun h => { h with config }

/-- Adds a transform after the others. -/
def addTransform (chart : Chart) (transform : Transform) : Chart :=
  chart.mapHeader fun h => { h with transforms := h.transforms ++ [transform] }

/-- Requests an output, once. -/
def request (chart : Chart) (output : DataOutput) : Chart :=
  if chart.requests output then chart
  else chart.mapHeader fun h => { h with requested := h.requested ++ [output] }

/-- Sets a channel of a unit; other charts have none to set. -/
def encode (chart : Chart) (channel : Channel) (definition : FieldDef) : Chart :=
  match chart with
  | unit h mark encoding stack => unit h mark (encoding.insert channel definition) stack
  | other => other

/-- Stacks a unit; other charts do not stack. -/
def withStack (chart : Chart) (properties : StackProperties) : Chart :=
  match chart with
  | unit h mark encoding _ => unit h mark encoding (some properties)
  | other => other

end Chart

end ChartPipeline
