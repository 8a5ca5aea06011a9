import ChartPipeline.CompileError

/-!
# Charts that make sense

Before a flow is built, a chart and the charts inside it are checked, outer charts first; the
first problem is reported.  The names of charts have to differ from each other.
-/

namespace ChartPipeline.Analysis

/-- A check; the names seen so far are its state. -/
abbrev Check (α : Type) := ExceptT CompileError (StateM (List String)) α

/-- Refuses a name that was seen before. -/
def checkName (name : String) : Check Unit := do
  if (← get).contains name then throw (.semantic (.duplicateName name))
  modify (name :: ·)

/-- Refuses a chart that has no data. -/
def checkData (header : ChartHeader) (hasData : Bool) : Except CompileError Unit :=
  if hasData then .ok () else .error (.missingDataSource header.displayName)

/-- Why a definition without a field needs one. -/
def fieldNeed? (f : FieldDef) : Option FieldNeed :=
  if f.bin.isSome then some .binning
  else if f.timeUnit.isSome then some .timeUnit
  else if f.aggregate.isSome && !f.isCount then some .aggregate
  else none

/-- Refuses a definition that needs a field and has none, and bad bin parameters. -/
def checkFieldDef (channel : Channel) (f : FieldDef) : Except CompileError Unit := do
  if f.field.isNone then
    match fieldNeed? f with
    | some need => throw (.definition (.missingField channel need))
    | none => pure ()
  match f.binParams? with
  | some params => params.validate.mapError .definition
  | none => pure ()

/-- Refuses a stack on a channel that is not encoded. -/
def checkStack (header : ChartHeader) (encoding : Encoding) (stack : StackProperties) :
    Except CompileError Unit :=
  stack.channels.forM fun channel =>
    if encoding.contains channel then .ok ()
    else .error (.semantic (.unencodedStack header.name channel))

/-- Refuses a facet without dimensions, and dimensions without fields. -/
def checkFacet (header : ChartHeader) (mapping : FacetMapping) : Except CompileError Unit :=
  if mapping.fieldDefs.isEmpty then .error (.semantic (.noFacetDimension header.name))
  else mapping.fieldDefs.forM fun (channel, f) =>
    if f.field.isNone then .error (.definition (.missingField channel .facet)) else .ok ()

/-- Refuses predicates that cannot be evaluated, and calculated fields without text or name. -/
def checkTransform (header : ChartHeader) : Transform → Except CompileError Unit
  | .filter predicate => predicate.validate.mapError .definition
  | .calculate expression output =>
    if isBlankText expression || isBlankText output then
      .error (.semantic (.blankCalculate header.name))
    else .ok ()

/-- What is checked of a chart by itself, once its name is. -/
def checkOwn (chart : Chart) (hasData : Bool) : Except CompileError Unit := do
  match chart with
  | .unit header _ encoding stack =>
    checkData header hasData
    encoding.entries.forM fun (channel, f) => checkFieldDef channel f
    match stack with
    | some stack => checkStack header encoding stack
    | none => pure ()
  | .layer header children =>
    -- no data is looked for here, as the charts in a layer may have data of their own
    if children.isEmpty then throw (.semantic (.emptyLayer header.name))
  | .facet header mapping _ =>
    checkData header hasData
    checkFacet header mapping
  chart.header.transforms.forM (checkTransform chart.header)

/-- Whether a chart has data, of its own or from around it. -/
def hasData (header : ChartHeader) (inherits : Bool) : Bool := inherits || header.data.isSome

mutual

/-- Checks a chart and the charts inside. -/
def check : Chart → Bool → Check Unit
  | .unit h mark encoding stack, inherits => do
    checkName h.name
    checkOwn (.unit h mark encoding stack) (hasData h inherits)
  | .layer h children, inherits => do
    checkName h.name
    checkOwn (.layer h children) (hasData h inherits)
    checkAll children (hasData h inherits)
  | .facet h mapping child, inherits => do
    checkName h.name
    checkOwn (.facet h mapping child) (hasData h inherits)
    check child (hasData h inherits)

/-- Checks several charts. -/
def checkAll : List Chart → Bool → Check Unit
  | [], _ => pure ()
  | chart :: rest, inherits => do
    check chart inherits
    checkAll rest inherits

end

/-- Forgets the names seen. -/
def startOver : Check Unit := set ([] : List String)

/-- Checks a chart after others, starting over with the names, and returns the names seen. -/
def analyzeAfter (seen : List String) (chart : Chart) : Except CompileError Unit × List String :=
  (do startOver; check chart false : Check Unit).run.run seen

/-- Checks a chart. -/
def analyze (chart : Chart) : Except CompileError Unit := (analyzeAfter [] chart).1

end ChartPipeline.Analysis
