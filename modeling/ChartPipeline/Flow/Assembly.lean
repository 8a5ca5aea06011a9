import ChartPipeline.CompileError

/-!
# Datasets of a flow

A flow becomes dataset records.  Going down from a source, the steps of stages are collected; they
become a record where the flow forks or ends, and where an output or a facet needs a name.
Conversions go into the record that loads the data, which is therefore made first.  What is below
a facet is put off, and becomes the list of that facet's records once the trees are done.
-/

namespace ChartPipeline

/-- The dataset that a point of the flow goes on from, and the steps since. -/
structure Pending where
  source : String
  steps : List Step := []

/-- A facet whose partitions are still to be assembled. -/
structure Deferred where
  partition : Partition
  source : String
  stages : Forest Stage

/-- The state of assembling. -/
structure Assembly where
  /-- The number of the next dataset without a name of its own. -/
  nextData : Nat := 0
  /-- The number of the next source without a name of its own. -/
  nextSource : Nat := 0
  /-- The records of the list being made. -/
  records : List DatasetRecord := []
  /-- The facets put off, in order. -/
  deferred : List Deferred := []
  /-- The datasets that stages came out as, the latest first. -/
  resolved : List (Nat × String) := []
deriving Inhabited

/-- A step of assembling; what was found until a failure stays. -/
abbrev Assemble (α : Type) := ExceptT CompileError (StateM Assembly) α

namespace Assembly

/-- Appends a record. -/
def emit (record : DatasetRecord) : Assemble Unit :=
  modify fun st => { st with records := st.records ++ [record] }

/-- Notes the dataset that a stage came out as. -/
def resolve (id : Nat) (name : String) : Assemble Unit :=
  modify fun st => { st with resolved := (id, name) :: st.resolved }

/-- Makes a record of the pending steps, if there are any, and returns the dataset that the flow
goes on from. -/
def materialize (p : Pending) : Assemble String := do
  if p.steps.isEmpty then pure p.source
  else
    let st ← get
    let name := "data_" ++ toString st.nextData
    set { st with nextData := st.nextData + 1 }
    emit (.derived name p.source p.steps)
    pure name

/-- Where the flow goes on below a stage: on with the pending steps to an only child, and else
from a record of them. -/
def fork (children : Forest Stage) (p : Pending) : Assemble Pending :=
  match children.single? with
  | some _ => pure p
  | none => do
    let name ← materialize p
    pure { source := name }

/-- Enters a stage: its steps join the pending ones, or it makes records of its own.  `none` if
nothing goes on below.  Only under a source does a conversion stand right. -/
def enter (underSource : Bool) (id : Nat) (stage : Stage) (children : Forest Stage)
    (p : Pending) : Assemble (Option Pending) :=
  match stage with
  | .source _ => throw (.flow (.nestedSource id))
  | .parse types =>
    -- the record that loads the data has taken it in already
    if underSource then pure (some p) else throw (.parseNotUnderSource types.keys)
  | .facet partition => do
    let source ← materialize p
    resolve id source
    -- what is below becomes records once the trees are done
    modify fun st => { st with deferred := st.deferred ++ [⟨partition, source, children⟩] }
    pure none
  | .facetHeader header =>
    if children.isEmpty then do
      emit (.derived header.name p.source (p.steps ++ [header.step]))
      resolve id header.name
      pure none
    else throw (.facetHeaderHasChildren header.name children.roots.length)
  | .output name _ => do
    let source ← materialize p
    -- the steps so far have just got a record, so this one has none
    emit (.derived name source [])
    resolve id source
    pure (some { source })
  | other => pure (some { p with steps := p.steps ++ other.steps })

/-- Makes the records of trees that all go on from one point. -/
def descend (underSource : Bool) : Forest Stage → Pending → Assemble Unit
  | .nil, _ => pure ()
  | .node id stage children rest, p => do
    match ← enter underSource id stage children p with
    | some q => descend false children (← fork children q)
    | none => pure ()
    descend underSource rest p

/-- The conversions directly under a source; what is declared or comes first stays. -/
def parseTypesUnder (declared : ParseTypes) : Forest Stage → ParseTypes
  | .nil => declared
  | .node _ (.parse types) _ rest => parseTypesUnder (declared.union types) rest
  | .node _ _ _ rest => parseTypesUnder declared rest

/-- Whether a conversion stands directly under a source. -/
def hasParse : Forest Stage → Bool
  | .nil => false
  | .node _ stage _ rest => stage.tag = .parse || hasParse rest

/-- The record that loads the data of a source, with the conversions directly under it. -/
def sourceRecord (source : Source) (name : String) (children : Forest Stage) : DatasetRecord :=
  let record := source.record name
  if hasParse children then
    let format := record.format.getD {}
    { record with
      format := some { format with
        parse := some (parseTypesUnder (format.parse.getD ∅) children) } }
  else record

/-- The name of a source's record: its own, or the next number. -/
def sourceName (source : Source) : Assemble String :=
  match source.datasetName? with
  | some name => pure name
  | none => do
    let st ← get
    set { st with nextSource := st.nextSource + 1 }
    pure ("source_" ++ toString st.nextSource)

/-- Makes the records of all trees. -/
def trees : Forest Stage → Assemble Unit
  | .nil => pure ()
  | .node _ (.source source) children rest => do
    let name ← sourceName source
    emit (sourceRecord source name children)
    descend true children (← fork children { source := name })
    trees rest
  | .node id stage _ _ => throw (.flow (.rootNotSource id stage.tag))

/-- Makes the records of the facets that were put off, in order, at most `n` of them. -/
def facets : Nat → Assemble (List FacetData)
  | 0 => pure []
  | n + 1 => do
    let st ← get
    match st.deferred with
    | [] => pure []
    | d :: rest =>
      -- each facet starts a list of its own; facets inside it come last
      set { st with deferred := rest, records := [] }
      descend false d.stages (← fork d.stages { source := d.partition.name })
      let datasets := (← get).records
      let others ← facets n
      pure ({ name := d.partition.name, source := d.source, groupby := d.partition.groupby,
              datasets } :: others)

/-- Makes all records of a forest; it has no more facets than stages. -/
def all (stages : Forest Stage) : Assemble CompiledData := do
  trees stages
  let datasets := (← get).records
  let facets ← facets stages.size
  pure { datasets, facets }

/-- The state to start a new flow with: its numbers begin again and nothing is put off. -/
def reset (st : Assembly) (flow : Flow) : Assembly :=
  { st with nextData := 0, nextSource := 0, records := [], deferred := [],
            resolved := flow.resolved }

end Assembly

/-- Assembles the datasets of a flow, starting over from an earlier state of assembling, and notes
in the flow what its stages came out as. -/
def Flow.assembleAfter (earlier : Assembly) (flow : Flow) :
    Except CompileError CompiledData × Assembly × Flow :=
  let (result, st) := (Assembly.all flow.stages).run.run (earlier.reset flow)
  (result, st, { flow with resolved := st.resolved })

/-- Assembles the datasets of a flow. -/
def Flow.assemble : Edit CompileError CompiledData := fun flow =>
  let (result, _, flow) := flow.assembleAfter {}
  (result, flow)

end ChartPipeline
