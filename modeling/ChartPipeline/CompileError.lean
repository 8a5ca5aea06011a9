import ChartPipeline.Flow.Basic

/-!
# Why a compilation fails
-/

namespace ChartPipeline

/-- A chart that makes no sense. -/
inductive SemanticFault where
  | duplicateName (name : String)
  | unencodedStack (chart : String) (channel : Channel)
  | emptyLayer (chart : String)
  | noFacetDimension (chart : String)
  | blankCalculate (chart : String)
  /-- A stack reads a channel without a field. -/
  | unreadableStack (read : UnreadableChannel)
deriving DecidableEq

/-- The words for a fault. -/
def SemanticFault.message : SemanticFault → String
  | duplicateName name => "Duplicate model name '" ++ name ++ "'"
  | unencodedStack chart channel =>
    "Model '" ++ chart ++ "' stacks on unencoded channel '" ++ channel.name ++ "'"
  | emptyLayer chart => "Layer '" ++ chart ++ "' has no children"
  | noFacetDimension chart => "Facet '" ++ chart ++ "' needs a row or column"
  | blankCalculate chart =>
    "Model '" ++ chart ++ "' has a calculate transform without expression or output field"
  | unreadableStack read =>
    "stack of model '" ++ read.chart ++ "' reads unencoded channel '" ++ read.channel.name ++ "'"

/-- Why a compilation fails. -/
inductive CompileError where
  /-- A facet has no field in a dimension that it declares. -/
  | missingFacetDimension (chart : String) (dimension : Channel)
  /-- A conversion does not directly follow a source. -/
  | parseNotUnderSource (fields : List String)
  /-- Something follows the values of a facet's dimension. -/
  | facetHeaderHasChildren (name : String) (children : Nat)
  /-- A chart neither has data nor takes any over. -/
  | missingDataSource (chart : String)
  | flow (fault : FlowFault)
  | semantic (fault : SemanticFault)
  /-- A pass still changed something in its last round. -/
  | didNotConverge (pass : String) (iterations : Nat)
  | definition (fault : DefinitionFault)

/-- The words for an error. -/
def CompileError.message : CompileError → String
  | missingFacetDimension chart dimension =>
    "Model '" ++ chart ++ "' has no " ++ dimension.name ++ " facet"
  | parseNotUnderSource fields =>
    "Parse of [" ++ ", ".intercalate fields ++ "] can only be assembled directly under a source"
  | facetHeaderHasChildren name children =>
    "Facet aggregate '" ++ name ++ "' cannot have children (found " ++ toString children ++ ")"
  | missingDataSource chart => "Model '" ++ chart ++ "' has no data source"
  | flow fault => "Invalid graph operation: " ++ fault.message
  | semantic fault => "Semantic error: " ++ fault.message
  | didNotConverge pass iterations =>
    "Optimizer pass '" ++ pass ++ "' did not converge after " ++ toString iterations ++
      " iterations"
  | definition fault => fault.message

end ChartPipeline
