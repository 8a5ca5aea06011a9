import ChartPipeline.CompileError

/-!
# Moving stages toward their source

A pass moves the stages of its kinds upward.  Going from every leaf to the root, it joins a stage
into a parent of the same kind, exchanges it with a parent that it may pass, or leaves it.  A pass
repeats until a sweep over all leaves changes nothing.
-/

namespace ChartPipeline

/-- What becomes of an aggregation or a stack directly below a facet. -/
inductive FacetPolicy where
  /-- It moves above the facet and groups by the facet's fields too. -/
  | foldGroupby
  /-- It stays and runs in each partition. -/
  | keepPartitioned
deriving DecidableEq, Repr, Inhabited

/-- The name of a policy. -/
def FacetPolicy.name : FacetPolicy → String
  | foldGroupby => "fold_groupby"
  | keepPartitioned => "keep_partitioned"

/-- A pass. -/
inductive Pass where
  | stack | aggregate | bin | timeUnit | nullFilter
  /-- Filters and calculated fields. -/
  | transforms
  | parse
deriving DecidableEq, Repr, Inhabited

namespace Pass

/-- Every pass, in the order in which they run: later passes move what comes earlier in a chart,
which lets them join what earlier passes could not bring together. -/
def all : List Pass := [stack, aggregate, bin, timeUnit, nullFilter, transforms, parse]

/-- The name of a pass. -/
def name : Pass → String
  | stack => "stack"
  | aggregate => "aggregate"
  | bin => "bin"
  | timeUnit => "timeunit"
  | nullFilter => "nullfilter"
  | transforms => "transforms"
  | parse => "parse"

/-- Whether the pass moves stages of a kind. -/
def handles : Pass → Tag → Bool
  | stack, .stack => true
  | aggregate, .aggregate => true
  | bin, .bin => true
  | timeUnit, .timeUnit => true
  | nullFilter, .nullFilter => true
  | transforms, .filter | transforms, .calculate => true
  | parse, .parse => true
  | _, _ => false

end Pass

/-- Whether neighbours of this kind are joined. -/
def Tag.joins : Tag → Bool
  | parse | filter | nullFilter | bin | timeUnit | aggregate => true
  | _ => false

/-- What a pass does with a stage. -/
inductive Move where
  | stay
  /-- Join the stage into its parent. -/
  | join
  /-- Exchange the stage with its parent, after grouping it by more fields. -/
  | rise (dimensions : List String)
  /-- Put the stage directly under its source. -/
  | relocate
deriving DecidableEq, Repr

namespace Move

/-- Whether a stage may move above its parent without a change of the result, and which fields it
then has to group by as well.  Conversions run when the data are loaded, wherever they stand.  A
calculated field may be read by anything below it. -/
def passage? (policy : FacetPolicy) (stage parent : Stage) : Option (List String) :=
  let groups := stage.tag = .aggregate || stage.tag = .stack
  if stage.tag = .parse then
    match parent with
    | .source _ => none
    | _ => some []
  else match parent with
    | .source _ | .calculate .. | .aggregate _ | .order _ | .stack _ | .positiveFilter _
    | .facetHeader _ => none
    -- what others read has to keep its rows
    | .output _ required => if required && stage.changesRows then none else some []
    | .facet partition =>
      if !groups then some []
      else match policy with
        | .foldGroupby => some partition.groupby
        | .keepPartitioned => none
    | .filter _ => if stage.tag = .calculate || groups then none else some []
    | .nullFilter flags => if groups && !flags.isVacuous then none else some []
    | .bin _ | .timeUnit _ => if groups then none else some []
    | .parse _ => some []

/-- What becomes of a stage under its parent. -/
def choose (policy : FacetPolicy) (stage parent : Stage) (onlyChild : Bool) : Move :=
  if parent.tag = .source then stay
  else if stage.tag = parent.tag && stage.tag.joins then join
  else match passage? policy stage parent with
    | none => stay
    | some dimensions =>
      -- with siblings an exchange would concern them too; a conversion goes around
      if onlyChild then rise dimensions
      else if stage.tag = .parse then relocate
      else stay

end Move

namespace Flow

/-- What a pass does with a stage under its parent. -/
def moveOf (pass : Pass) (policy : FacetPolicy) (id parent : Nat) (flow : Flow) : Move :=
  match flow.stage? id, flow.stage? parent with
  | some stage, some above =>
    if pass.handles stage.tag then
      Move.choose policy stage above ((flow.stages.children parent).length = 1)
    else .stay
  | _, _ => .stay

/-- Puts a conversion directly under its source, or joins it into one that is there. -/
def relocate (id : Nat) : Edit FlowFault Unit := do
  let flow ← get
  let root := flow.stages.rootOf id
  if flow.tag? root ≠ some .source then throw (.notRootedAtSource id)
  let present := (flow.stages.children root).find? fun child =>
    child ≠ id && flow.tag? child = some .parse
  match present with
  | some other => merge other id
  | none =>
    remove id
    setParent id root

/-- Goes up from a stage through its ancestors and moves what the pass handles.  A stage that
rises goes on among the ancestors of the parent it passed. -/
def climb (pass : Pass) (policy : FacetPolicy) : Nat → List Nat → Edit FlowFault Unit
  | _, [] => pure ()
  | id, parent :: rest => do
    match moveOf pass policy id parent (← get) with
    | .stay => climb pass policy parent rest
    | .join =>
      merge parent id
      climb pass policy parent rest
    | .rise dimensions =>
      addDimensions id dimensions
      swapWithParent id
      -- it stands where its parent was, and the same ancestors are above it
      climb pass policy id rest
    | .relocate =>
      relocate id
      climb pass policy parent rest

/-- Climbs from every leaf that is still there. -/
def sweep (pass : Pass) (policy : FacetPolicy) : List Nat → Edit FlowFault Unit
  | [] => pure ()
  | leaf :: rest => do
    let flow ← get
    if flow.isAttached leaf then climb pass policy leaf (flow.stages.ancestors leaf)
    sweep pass policy rest

/-- Repeats the sweeps of a pass, at most `n` more times after `done`, until one changes
nothing. -/
def settle (pass : Pass) (policy : FacetPolicy) : Nat → Nat → Edit CompileError Nat
  | 0, done => throw (.didNotConverge pass.name done)
  | n + 1, done => do
    let before ← get
    (sweep pass policy before.stages.leaves).mapFault CompileError.flow
    let after ← get
    if after.revision = before.revision then pure (done + 1)
    else settle pass policy n (done + 1)

/-- Runs a pass and counts its sweeps, the last of which changes nothing. -/
def runPass (pass : Pass) (policy : FacetPolicy) (maxIterations : Nat) : Edit CompileError Nat :=
  settle pass policy maxIterations 0

/-- Runs all passes in their order. -/
def hoist (policy : FacetPolicy) (maxIterations : Nat) : Edit CompileError Unit :=
  Pass.all.forM fun pass => do
    let _ ← runPass pass policy maxIterations

end Flow

end ChartPipeline
