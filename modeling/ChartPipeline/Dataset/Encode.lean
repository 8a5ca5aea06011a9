import ChartPipeline.Chart.Encode
import ChartPipeline.Dataset.Basic

/-!
# Datasets as JSON

The JSON form of the outcome, its fields in a fixed order and without those that are empty.
-/

namespace ChartPipeline

/-- The bounds of a binning step. -/
def BinExtent.toJson : BinExtent → Json
  | signal name => .obj [("signal", .str name)]
  | bounds low high => encodeBounds (low, high)

/-- Fields to sort by. -/
def SortSpec.toJson (s : SortSpec) : Json :=
  .obj [("field", Json.strings s.fields), ("order", Json.strings s.orders)]

/-- A step; its kind comes first. -/
def Step.toJson (step : Step) : Json :=
  .obj (("type", .str step.kind) :: fields step)
where
  /-- The fields of a step after its kind. -/
  fields : Step → List (String × Json)
    | .filter expression => [("expr", .str expression)]
    | .formula expression output => [("expr", .str expression), ("as", .str output)]
    | .extent field signal => [("field", .str field), ("signal", .str signal)]
    | .bin b =>
      [("field", .str b.field), ("as", Json.strings [b.start, b.stop]), ("signal", .str b.signal),
        ("extent", b.extent.toJson)] ++
      Json.optional "maxbins" (fun n : Nat => .int n) b.maxbins ++
      Json.optional "step" .float b.step ++
      Json.optional "minstep" .float b.minstep ++
      Json.optional "nice" .bool b.nice ++
      Json.optional "base" .float b.base
    | .aggregate groupby fields ops outputs =>
      Json.nonempty "groupby" .str groupby ++ Json.nonempty "fields" .str fields ++
      Json.nonempty "ops" .str ops ++ Json.nonempty "as" .str outputs
    | .stack s =>
      Json.nonempty "groupby" .str s.groupby ++ [("field", .str s.field)] ++
      (if s.sort.fields.isEmpty then [] else [("sort", s.sort.toJson)]) ++
      [("as", Json.strings [s.start, s.stop]), ("offset", .str s.offset)]
    | .collect sort => [("sort", sort.toJson)]
    | .sequence params => params.fields

/-- A dataset record. -/
def DatasetRecord.toJson (r : DatasetRecord) : Json :=
  .obj (("name", .str r.name) ::
    (Json.optional "source" .str r.source ++
      Json.optional "values" .arr r.values ++
      Json.optional "url" .str r.url ++
      Json.optional "format" DataFormat.toJson r.format ++
      Json.nonempty "transform" Step.toJson r.steps))

/-- The datasets of a facet. -/
def FacetData.toJson (f : FacetData) : Json :=
  .obj [
    ("name", .str f.name),
    ("source", .str f.source),
    ("groupby", Json.strings f.groupby),
    ("datasets", .arr (f.datasets.map DatasetRecord.toJson))]

/-- All datasets of a chart. -/
def CompiledData.toJson (d : CompiledData) : Json :=
  .obj (("datasets", .arr (d.datasets.map DatasetRecord.toJson)) ::
    Json.nonempty "facets" FacetData.toJson d.facets)

end ChartPipeline
