import ChartPipeline.Chart.Basic

/-!
# Charts as JSON

The JSON form of the chart model.  Data declarations, formats and bin parameters leave out what
is not given; everything else is written with `null` for it.
-/

namespace ChartPipeline

/-- Two bounds. -/
def encodeBounds (bounds : Float × Float) : Json := .arr [.float bounds.1, .float bounds.2]

/-- The parameters that are given. -/
def BinParams.toJson (p : BinParams) : Json :=
  .obj (Json.optional "extent" encodeBounds p.extent ++
    Json.optional "maxbins" (fun n : Nat => .int n) p.maxbins ++
    Json.optional "step" .float p.step ++
    Json.optional "minstep" .float p.minstep ++
    Json.optional "nice" .bool p.nice ++
    Json.optional "base" .float p.base)

/-- A flag, or parameters. -/
def BinSpec.toJson : BinSpec → Json
  | flag on => .bool on
  | params p => p.toJson

/-- The labels of an axis or a legend. -/
def Guide.toJson (g : Guide) : Json := .obj [("format", Json.orNull .str g.format)]

/-- A field definition. -/
def FieldDef.toJson (f : FieldDef) : Json :=
  .obj [
    ("field", Json.orNull .str f.field),
    ("type", .str f.type.name),
    ("aggregate", Json.orNull (fun op => .str op.name) f.aggregate),
    ("bin", Json.orNull BinSpec.toJson f.bin),
    ("time_unit", Json.orNull (fun unit => .str unit.name) f.timeUnit),
    ("scale", Json.orNull (fun type => .obj [("type", .str type.name)]) f.scale),
    ("axis", Json.orNull Guide.toJson f.axis),
    ("legend", Json.orNull Guide.toJson f.legend),
    ("sort", Json.orNull (fun order => .str order.name) f.sort)]

/-- The text of an expression, or a condition on a field. -/
def Predicate.toJson : Predicate → Json
  | expression text => .str text
  | equal field value => .obj [("field", .str field), ("equal", value)]
  | range field low high => .obj [("field", .str field), ("range", encodeBounds (low, high))]
  | oneOf field values => .obj [("field", .str field), ("one_of", .arr values)]

/-- A filter, or a calculated field. -/
def Transform.toJson : Transform → Json
  | filter predicate => .obj [("filter", predicate.toJson)]
  | calculate expression output => .obj [("calculate", .str expression), ("as", .str output)]

/-- A map from strings to strings. -/
def encodeStringMap (m : SortedMap String String) : Json :=
  .obj (m.entries.map fun e => (e.1, .str e.2))

/-- What is given of a load format. -/
def DataFormat.toJson (f : DataFormat) : Json :=
  .obj (Json.optional "type" .str f.type ++ Json.optional "parse" encodeStringMap f.parse)

/-- What is given of a sequence. -/
def SequenceParams.fields (p : SequenceParams) : List (String × Json) :=
  [("start", .float p.start), ("stop", .float p.stop)] ++
    Json.optional "step" .float p.step ++ Json.optional "as" .str p.output

/-- A data declaration. -/
def DataSource.toJson : DataSource → Json
  | values rows format =>
    .obj (("values", .arr rows) :: Json.optional "format" DataFormat.toJson format)
  | url address format =>
    .obj (("url", .str address) :: Json.optional "format" DataFormat.toJson format)
  | sequence params => .obj [("sequence", .obj params.fields)]
  | named name => .obj [("name", .str name)]

/-- The settings of a chart. -/
def ChartConfig.toJson (c : ChartConfig) : Json :=
  .obj [("number_format", .str c.numberFormat), ("filter_invalid", Json.orNull .bool c.filterInvalid)]

/-- How a unit stacks. -/
def StackProperties.toJson (s : StackProperties) : Json :=
  .obj [
    ("field_channel", .str s.fieldChannel.name),
    ("groupby_channel", Json.orNull (fun c => .str c.name) s.groupbyChannel),
    ("stack_by", .arr (s.stackBy.map fun c => .str c.name)),
    ("offset", .str s.offset.name)]

/-- The channels of a unit. -/
def encodeEncoding (e : Encoding) : Json :=
  .obj (e.entries.map fun entry => (entry.1.name, entry.2.toJson))

/-- The dimensions of a facet. -/
def FacetMapping.toJson (f : FacetMapping) : Json :=
  .obj [("row", Json.orNull FieldDef.toJson f.row), ("column", Json.orNull FieldDef.toJson f.column)]

/-- A chart with the given header and kind. -/
def ChartHeader.toJson (h : ChartHeader) (kind : Json) : Json :=
  .obj [
    ("name", .str h.name),
    ("data", Json.orNull DataSource.toJson h.data),
    ("transform", .arr (h.transforms.map Transform.toJson)),
    ("config", h.config.toJson),
    ("requested_data", .arr (h.requested.map fun o => .str o.name)),
    ("kind", kind)]

namespace Chart

mutual

/-- A chart. -/
def toJson : Chart → Json
  | unit header mark encoding stack =>
    header.toJson (.obj [
      ("type", .str "unit"),
      ("mark", .str mark.name),
      ("encoding", encodeEncoding encoding),
      ("stack", Json.orNull StackProperties.toJson stack)])
  | layer header children =>
    header.toJson (.obj [("type", .str "layer"), ("children", .arr (listToJson children))])
  | facet header mapping child =>
    header.toJson (.obj [
      ("type", .str "facet"), ("facet", mapping.toJson), ("child", toJson child)])

/-- Several charts. -/
def listToJson : List Chart → List Json
  | [] => []
  | chart :: rest => toJson chart :: listToJson rest

end

end Chart

end ChartPipeline
