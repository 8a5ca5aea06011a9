import ChartPipeline.Chart.Basic
import ChartPipeline.Dataset.Step

/-!
# Conversion and cleaning

What a chart's field definitions ask for before anything is derived: the types that fields are
converted to when they are loaded, and the fields whose invalid values are dropped.  After
aggregation, values that a logarithmic scale cannot place are dropped as well.
-/

namespace ChartPipeline

/-- Fields with the types that they are converted to. -/
abbrev ParseTypes := SortedMap String String

/-- Fields, each with whether rows are dropped for it. -/
abbrev FieldFlags := SortedMap String Bool

namespace FieldFlags

/-- Adds a field; a field that is once dropped for stays so. -/
def add (flags : FieldFlags) (field : String) (drops : Bool) : FieldFlags :=
  flags.upsert field fun old => old.getD false || drops

/-- The fields of both; dropped for if one of them says so. -/
def merge (flags other : FieldFlags) : FieldFlags := SortedMap.mergeWith (· || ·) flags other

/-- The fields that rows are dropped for. -/
def dropped (flags : FieldFlags) : List String :=
  (flags.entries.filter Prod.snd).map Prod.fst

/-- Whether no row is dropped. -/
def isVacuous (flags : FieldFlags) : Bool := flags.entries.all fun e => !e.2

end FieldFlags

/-- The type that a field of a measurement type is converted to. -/
def FieldType.parseType? : FieldType → Option String
  | quantitative => some "number"
  | temporal => some "date"
  | ordinal | nominal => none

/-- The conversions that a chart needs.  Fields that the chart calculates exist only after
loading; the first channel of a field decides. -/
def parseTypes? (chart : Chart) : Option ParseTypes :=
  let calculated := chart.header.transforms.filterMap Transform.output?
  let types := chart.fieldDefs.foldl (fun (types : ParseTypes) (_, f) =>
    if f.isCount then types
    else match f.field, f.type.parseType? with
      | some field, some type =>
        -- this field is not there yet when the data are loaded
        if calculated.contains field then types else types.insertIfNew field type
      | _, _ => types) ∅
  if types.isEmpty then none else some types

/-- The fields whose invalid values a chart drops: as its settings say, or else those of
quantitative and temporal fields. -/
def nullFilter? (chart : Chart) : Option FieldFlags :=
  let flags := chart.fieldDefs.foldl (fun (flags : FieldFlags) (_, f) =>
    if f.isCount then flags
    else match f.field with
      | some field =>
        flags.add field (chart.header.config.filterInvalid.getD f.type.parseType?.isSome)
      | none => flags) ∅
  if flags.isEmpty then none else some flags

/-- The step that drops rows with invalid values. -/
def nullFilterStep? (flags : FieldFlags) : Option Step :=
  match flags.dropped with
  | [] => none
  | fields =>
    some (.filter (" && ".intercalate (fields.map fun field =>
      let d := Expression.datum field
      d ++ " !== null && !isNaN(" ++ d ++ ")")))

/-- The fields of channels with a scale, each with whether a scale of it is logarithmic. -/
def positiveFilter? (chart : Chart) : Option FieldFlags :=
  let flags := chart.fieldDefs.foldl (fun (flags : FieldFlags) (_, f) =>
    match f.scale, f.outputName? with
    | some _, some output => flags.add output f.hasLogScale
    | _, _ => flags) ∅
  if flags.isEmpty then none else some flags

/-- The steps that drop values that are not positive, one for each field. -/
def positiveFilterSteps (flags : FieldFlags) : List Step :=
  flags.dropped.map fun field => .filter (Expression.datum field ++ " > 0")

end ChartPipeline
