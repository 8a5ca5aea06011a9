import ChartPipeline.Text.FloatText
import ChartPipeline.Chart.Channel

/-!
# What can be wrong with a field, a binning or a predicate
-/

namespace ChartPipeline

/-- Why a channel needs a field. -/
inductive FieldNeed where
  | binning
  | timeUnit
  | aggregate
  | facet
deriving DecidableEq, Repr

/-- The words for a need. -/
def FieldNeed.message : FieldNeed → String
  | binning => "binning needs a field"
  | timeUnit => "a time unit needs a field"
  | aggregate => "only count aggregates without a field"
  | facet => "facet fields partition the data"

/-- A definition that no step can honour. -/
inductive DefinitionFault where
  /-- A channel has no field although it needs one. -/
  | missingField (channel : Channel) (need : FieldNeed)
  /-- The bounds of a binning do not increase. -/
  | emptyExtent (low high : Float)
  /-- A binning asks for no bins. -/
  | noBins
  /-- The step of a binning is not positive. -/
  | stepNotPositive (step : Float)
  /-- The text of a predicate is blank. -/
  | blankExpression
  /-- The bounds of a range predicate do not increase. -/
  | emptyRange (low high : Float) (field : String)
  /-- A membership predicate lists nothing. -/
  | noMembers (field : String)

/-- The words for a fault. -/
def DefinitionFault.message : DefinitionFault → String
  | missingField channel need =>
    "Field definition on channel '" ++ channel.name ++ "' has no field: " ++ need.message
  | emptyExtent low high =>
    "Invalid bin parameters: extent [" ++ FloatText.plain low ++ ", " ++ FloatText.plain high ++
      "] is empty"
  | noBins => "Invalid bin parameters: maxbins must be positive"
  | stepNotPositive step =>
    "Invalid bin parameters: step " ++ FloatText.plain step ++ " must be positive"
  | blankExpression => "Invalid predicate: empty expression"
  | emptyRange low high field =>
    "Invalid predicate: range [" ++ FloatText.plain low ++ ", " ++ FloatText.plain high ++
      "] on '" ++ field ++ "' is empty"
  | noMembers field => "Invalid predicate: one_of on '" ++ field ++ "' has no values"

end ChartPipeline
