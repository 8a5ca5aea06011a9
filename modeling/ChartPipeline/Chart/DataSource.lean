import ChartPipeline.Json.Basic

/-!
# Data declarations
-/

namespace ChartPipeline

/-- How data are loaded. -/
structure DataFormat where
  /-- The name of the file format. -/
  type : Option String := none
  /-- The types that fields are converted to. -/
  parse : Option (SortedMap String String) := none
deriving Inhabited

/-- A generated sequence of numbers. -/
structure SequenceParams where
  start : Float
  stop : Float
  step : Option Float := none
  /-- The field that receives the numbers. -/
  output : Option String := none
deriving Inhabited

/-- Where data come from. -/
inductive DataSource where
  /-- Rows given in place. -/
  | values (values : List Json) (format : Option DataFormat)
  /-- A file. -/
  | url (url : String) (format : Option DataFormat)
  | sequence (params : SequenceParams)
  /-- A dataset that is bound by its name later. -/
  | named (name : String)
deriving Inhabited

/-- The declared format, for those declarations that have one. -/
def DataSource.format? : DataSource → Option DataFormat
  | values _ format | url _ format => format
  | sequence _ | named _ => none

end ChartPipeline
