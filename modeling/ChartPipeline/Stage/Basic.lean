import ChartPipeline.Stage.Cleaning
import ChartPipeline.Stage.Derivation
import ChartPipeline.Stage.Grouping
import ChartPipeline.Stage.Source

/-!
# Stages

The stages that data run through, from their source to the marks.  The kinds of stages are closed:
`merge?`, `steps`, `isVacuous` and `changesRows` say for each kind whether two stages join, which
steps a stage contributes, and when it does nothing.
-/

namespace ChartPipeline

/-- The kind of a stage. -/
inductive Tag where
  | source | parse | filter | calculate | nullFilter | bin | timeUnit | output | aggregate | order
  | stack | positiveFilter | facetHeader | facet
deriving DecidableEq, Repr, Inhabited

/-- The name of a kind. -/
def Tag.name : Tag → String
  | source => "source"
  | parse => "parse"
  | filter => "filter"
  | calculate => "calculate"
  | nullFilter => "nullfilter"
  | bin => "bin"
  | timeUnit => "timeunit"
  | output => "output"
  | aggregate => "aggregate"
  | order => "order"
  | stack => "stack"
  | positiveFilter => "nonpositivefilter"
  | facetHeader => "facetaggregate"
  | facet => "facet"

/-- A stage with what it holds. -/
inductive Stage where
  | source (source : Source)
  /-- Converts fields when the data are loaded. -/
  | parse (types : ParseTypes)
  | filter (predicates : List Predicate)
  | calculate (expression output : String)
  /-- Drops rows with invalid values. -/
  | nullFilter (flags : FieldFlags)
  | bin (bins : Binning)
  | timeUnit (formulas : TimeFormulas)
  /-- A dataset that others read by name; one that nobody reads is not required. -/
  | output (name : String) (required : Bool)
  | aggregate (aggregation : Aggregation)
  | order (sort : SortSpec)
  | stack (stacking : Stacking)
  /-- Drops values that a logarithmic scale cannot place. -/
  | positiveFilter (flags : FieldFlags)
  /-- The values of a facet's dimension; nothing follows. -/
  | facetHeader (header : FacetHeader)
  /-- What follows runs in each partition. -/
  | facet (partition : Partition)
deriving Inhabited

namespace Stage

/-- The kind of a stage. -/
def tag : Stage → Tag
  | source _ => .source
  | parse _ => .parse
  | filter _ => .filter
  | calculate .. => .calculate
  | nullFilter _ => .nullFilter
  | bin _ => .bin
  | timeUnit _ => .timeUnit
  | output .. => .output
  | aggregate _ => .aggregate
  | order _ => .order
  | stack _ => .stack
  | positiveFilter _ => .positiveFilter
  | facetHeader _ => .facetHeader
  | facet _ => .facet

/-- The stage that does what two stages of one kind do, the second after the first. -/
def merge? : Stage → Stage → Option Stage
  | parse a, parse b => some (parse (a.union b))
  | filter a, filter b => some (filter (a ++ b))
  | nullFilter a, nullFilter b => some (nullFilter (a.merge b))
  | bin a, bin b => some (bin (Binning.merge a b))
  | timeUnit a, timeUnit b => some (timeUnit (a.union b))
  | aggregate a, aggregate b => some (aggregate (a.merge b))
  | positiveFilter a, positiveFilter b => some (positiveFilter (a.merge b))
  | _, _ => none

/-- The steps that a stage contributes to the dataset it is part of.  Sources and conversions
belong to the record that loads the data; outputs and facets begin new records. -/
def steps : Stage → List Step
  | filter predicates => [.filter (Predicate.conjunction predicates)]
  | calculate expression target => [.formula expression target]
  | nullFilter flags => (nullFilterStep? flags).toList
  | bin bins => Binning.steps bins
  | timeUnit formulas => TimeFormulas.steps formulas
  | aggregate a => [a.step]
  | order sort => [.collect sort]
  | stack s => [s.step]
  | positiveFilter flags => positiveFilterSteps flags
  | source _ | parse _ | output .. | facetHeader _ | facet _ => []

/-- Whether the stage does nothing, so that it can be left out. -/
def isVacuous : Stage → Bool
  | nullFilter flags | positiveFilter flags => flags.isVacuous
  | output _ required => !required
  | _ => false

/-- Whether a stage of this kind drops, groups or stacks rows. -/
def changesRows (s : Stage) : Bool :=
  match s.tag with
  | .filter | .nullFilter | .aggregate | .stack | .positiveFilter | .facetHeader => true
  | _ => false

/-- Groups within the partitions of a facet as well; only aggregations and stacks group. -/
def addDimensions (fields : List String) : Stage → Stage
  | aggregate a => aggregate (a.addDimensions fields)
  | stack s => stack (s.addDimensions fields)
  | other => other

/-- A short description. -/
def label : Stage → String
  | source s => "Source(" ++ s.shortHash ++ ")"
  | parse types => "Parse" ++ Quoted.shownList types.keys
  | filter predicates => "Filter(" ++ toString predicates.length ++ ")"
  | calculate _ target => "Calculate(" ++ target ++ ")"
  | nullFilter flags => "NullFilter" ++ Quoted.shownList flags.keys
  | bin bins => "Bin" ++ Quoted.shownList bins.keys
  | timeUnit formulas => "TimeUnit" ++ Quoted.shownList formulas.keys
  | output name required => "Output(" ++ name ++ (if required then ", required" else "") ++ ")"
  | aggregate a => "Aggregate" ++ Quoted.shownList a.dimensions
  | order _ => "Order"
  | stack s => "Stack(" ++ s.field ++ ")"
  | positiveFilter flags => "NonPositiveFilter" ++ Quoted.shownList flags.keys
  | facetHeader h => "FacetAggregate(" ++ h.name ++ ")"
  | facet p => "Facet(" ++ p.name ++ ")"

end Stage

end ChartPipeline
