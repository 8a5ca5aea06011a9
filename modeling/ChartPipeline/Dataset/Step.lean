import ChartPipeline.Chart.DataSource

/-!
# Transform steps

A step is one transformation of a dataset, in the form in which the renderer runs it.
-/

namespace ChartPipeline

/-- The bounds of a binning step: fixed, or a signal that an extent step sets. -/
inductive BinExtent where
  | signal (name : String)
  | bounds (low high : Float)
deriving Inhabited

/-- Fields to sort by, with a direction for each. -/
structure SortSpec where
  fields : List String := []
  orders : List String := []
deriving DecidableEq, Inhabited

/-- A binning step. -/
structure BinStep where
  field : String
  /-- The fields that receive the start and the end of a row's bin. -/
  start : String
  stop : String
  signal : String
  extent : BinExtent
  maxbins : Option Nat := none
  step : Option Float := none
  minstep : Option Float := none
  nice : Option Bool := none
  base : Option Float := none
deriving Inhabited

/-- A stacking step. -/
structure StackStep where
  groupby : List String := []
  field : String
  sort : SortSpec := {}
  /-- The fields that receive the start and the end of a row's part of the stack. -/
  start : String
  stop : String
  offset : String
deriving DecidableEq, Inhabited

/-- A step of a dataset. -/
inductive Step where
  | filter (expression : String)
  | formula (expression output : String)
  /-- Sets a signal to the least and the greatest value of a field. -/
  | extent (field signal : String)
  | bin (step : BinStep)
  | aggregate (groupby fields ops outputs : List String)
  | stack (step : StackStep)
  | collect (sort : SortSpec)
  | sequence (params : SequenceParams)
deriving Inhabited

/-- The kind of a step. -/
def Step.kind : Step → String
  | filter _ => "filter"
  | formula .. => "formula"
  | extent .. => "extent"
  | bin _ => "bin"
  | aggregate .. => "aggregate"
  | stack _ => "stack"
  | collect _ => "collect"
  | sequence _ => "sequence"

end ChartPipeline
