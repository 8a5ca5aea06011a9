import ChartPipeline.CompileError

/-!
# The flow that a chart declares

Every chart is a chain of stages:

    source → parse → transforms → null filter → bins → time units → raw output
      → aggregation → sorting → stack → positive filter → main output
      → facet headers and facet

of which only those are there that have something to do.  A chart without data goes on from the
facet or the main output of the chart around it, and equal declarations of data share a source.
-/

namespace ChartPipeline

/-- Where the chain of a chart can be read from or gone on with. -/
structure Component where
  /-- The name of the chart. -/
  chart : String
  raw : Option Nat := none
  main : Option Nat := none
  /-- The facet that the chart inside goes on from. -/
  facetRoot : Option Nat := none
  row : Option Nat := none
  column : Option Nat := none
deriving DecidableEq, Inhabited

/-- The stage that a chart without data goes on from. -/
def Component.inheritedHead (c : Component) : Option Nat := c.facetRoot.orElse fun _ => c.main

namespace Chart

/-- The stages of a transform list. -/
def transformStages (chart : Chart) : List Stage :=
  chart.header.transforms.map fun
    | .filter predicate => .filter [predicate]
    | .calculate expression output => .calculate expression output

/-- The stages before the raw output. -/
def stagesBeforeRaw (chart : Chart) : Except CompileError (List Stage) := do
  let bins ← (Binning.ofChart? chart).mapError CompileError.definition
  pure ((parseTypes? chart).toList.map .parse ++ chart.transformStages ++
    (nullFilter? chart).toList.map .nullFilter ++ bins.toList.map .bin ++
    (TimeFormulas.ofChart? chart).toList.map .timeUnit)

/-- The stages of a unit between the raw and the main output. -/
def stagesAfterRaw (chart : Chart) : Except CompileError (List Stage) := do
  if chart.isUnit then
    let stacking ← (Stacking.ofChart? chart).mapError (CompileError.semantic ∘ .unreadableStack)
    pure ((Aggregation.ofChart? chart).toList.map .aggregate ++
      (sortSpec? chart).toList.map .order ++ stacking.toList.map .stack ++
      (positiveFilter? chart).toList.map .positiveFilter)
  else pure []

/-- The raw output. -/
def rawOutput (chart : Chart) : Stage := .output (chart.nameFor "raw") (chart.requests .raw)

/-- The main output, which the marks of a unit read. -/
def mainOutput (chart : Chart) : Stage :=
  .output (chart.nameFor "main") (chart.isUnit || chart.requests .main)

/-- The header of a declared dimension. -/
def headerStage (chart : Chart) (dimension : Channel) : Except CompileError Stage :=
  match FacetHeader.ofChart? chart dimension with
  | some header => .ok (.facetHeader header)
  | none => .error (.missingFacetDimension chart.name dimension)

end Chart

/-- The state of building a flow. -/
structure Building where
  flow : Flow := {}
  /-- The sources, by hash. -/
  sources : List (String × Nat) := []
  /-- The components of the charts built, inner charts before outer ones. -/
  components : List Component := []
deriving Inhabited

/-- A step of building a flow. -/
abbrev Build (α : Type) := ExceptT CompileError (StateM Building) α

namespace Building

/-- Runs an edit on the flow being built. -/
def edit (e : Edit FlowFault α) : Build α := fun st =>
  match e st.flow with
  | (.ok a, flow) => (.ok a, { st with flow })
  | (.error fault, flow) => (.error (.flow fault), { st with flow })

/-- The stage that a chart begins at: its source, or where the chart around it goes on. -/
def start (chart : Chart) (inherited : Option Nat) : Build Nat := do
  match chart.header.data with
  | none =>
    match inherited with
    | some id => pure id
    | none => throw (.missingDataSource chart.header.displayName)
  | some data =>
    let source := Source.ofData data
    -- equal declarations share the source
    match (← get).sources.find? (·.1 = source.hash) with
    | some (_, id) => pure id
    | none =>
      let id ← edit (Flow.add (.source source))
      modify fun st => { st with sources := (source.hash, id) :: st.sources }
      pure id

/-- Adds stages one after the other and returns the last one. -/
def chain : Nat → List Stage → Build Nat
  | head, [] => pure head
  | head, stage :: rest => do
    let id ← edit (Flow.addChild head stage)
    chain id rest

/-- Adds the facet headers and the facet below the main output of a facet. -/
def addFacet (chart : Chart) (main : Nat) (component : Component) : Build Component := do
  match chart with
  | .facet _ mapping _ =>
    let addHeader (declared : Option FieldDef) (dimension : Channel) : Build (Option Nat) := do
      match declared with
      | none => pure none
      | some _ => some <$> (do edit (Flow.addChild main (← chart.headerStage dimension)))
    -- headers stand in the order of the dimensions, the facet after them
    let column ← addHeader mapping.column .column
    let row ← addHeader mapping.row .row
    let facetRoot ← (Partition.ofChart? chart).mapM fun p => edit (Flow.addChild main (.facet p))
    pure { component with column, row, facetRoot }
  | _ => pure component

/-- Adds the chain of a chart. -/
def addChain (chart : Chart) (inherited : Option Nat) : Build Component := do
  let head ← start chart inherited
  let head ← chain head (← chart.stagesBeforeRaw)
  let raw ← edit (Flow.addChild head chart.rawOutput)
  let head ← chain raw (← chart.stagesAfterRaw)
  let main ← edit (Flow.addChild head chart.mainOutput)
  addFacet chart main { chart := chart.name, raw := some raw, main := some main }

/-- Adds the chain of a chart; a layer without any data only groups charts with data of their
own. -/
def addChart (chart : Chart) (inherited : Option Nat) : Build Component :=
  match chart, chart.header.data, inherited with
  | .layer .., none, none => pure { chart := chart.name }
  | _, _, _ => addChain chart inherited

/-- Notes a component. -/
def note (component : Component) : Build Unit :=
  modify fun st => { st with components := st.components ++ [component] }

mutual

/-- Builds a chart and the charts inside. -/
def build : Chart → Option Nat → Build Unit
  | .unit h mark encoding stack, inherited => do
    let component ← addChart (.unit h mark encoding stack) inherited
    note component
  | .layer h children, inherited => do
    let component ← addChart (.layer h children) inherited
    buildAll children component.inheritedHead
    note component
  | .facet h mapping child, inherited => do
    let component ← addChart (.facet h mapping child) inherited
    build child component.inheritedHead
    note component

/-- Builds several charts that go on from one stage. -/
def buildAll : List Chart → Option Nat → Build Unit
  | [], _ => pure ()
  | chart :: rest, inherited => do
    build chart inherited
    buildAll rest inherited

end

/-- Builds the flow of a chart. -/
def ofChart (chart : Chart) : Except CompileError Building :=
  match (build chart none).run.run {} with
  | (.ok (), st) => .ok st
  | (.error e, _) => .error e

/-- The first component of a name. -/
def component? (st : Building) (chart : String) : Option Component :=
  st.components.find? (·.chart = chart)

end Building

end ChartPipeline
