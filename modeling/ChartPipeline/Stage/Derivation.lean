import ChartPipeline.Chart.Basic
import ChartPipeline.Dataset.Step

/-!
# Derived fields

The bins and the time units of a chart.  Channels that bin a field alike share one binning, and
channels that cut a field down to one unit share one formula.
-/

namespace ChartPipeline

/-- A binning of a field, with a label for its bins where a scale needs one. -/
structure BinEntry where
  step : BinStep
  /-- The expression of the label and the field that receives it. -/
  label : Option (String × String) := none
deriving Inhabited

namespace BinEntry

/-- The steps of a binning: the extent, unless it is fixed, the bins and the label. -/
def steps (e : BinEntry) : List Step :=
  (match e.step.extent with
    | .signal name => [.extent e.step.field name]
    | .bounds .. => []) ++
  .bin e.step :: (e.label.toList.map fun l => .formula l.1 l.2)

/-- Takes over a label if there is none yet. -/
def withLabel (e : BinEntry) (label : Option (String × String)) : BinEntry :=
  { e with label := e.label.orElse fun _ => label }

end BinEntry

/-- The binnings of a chart, by key. -/
abbrev Binning := SortedMap String BinEntry

namespace Binning

/-- The label of the bins of a channel with a discrete scale. -/
def label? (chart : Chart) (f : FieldDef) (key : String) : Option (String × String) :=
  if f.hasDiscreteScale then
    let format := f.guideFormat?.getD chart.header.config.numberFormat
    let text (ending : BinField) :=
      "format(" ++ Expression.datum (key ++ "_" ++ ending.ending) ++ ", '" ++ format ++ "')"
    some (text .start ++ " + ' - ' + " ++ text .stop, key ++ "_" ++ BinField.range.ending)
  else none

/-- The binning step of a field. -/
def step (chart : Chart) (params : BinParams) (field key : String) : BinStep where
  field := field
  start := key ++ "_" ++ BinField.start.ending
  stop := key ++ "_" ++ BinField.stop.ending
  signal := Expression.varName (chart.nameFor (key ++ "_bins"))
  extent := match params.extent with
    | some (low, high) => .bounds low high
    | none => .signal (chart.nameFor (key ++ "_extent"))
  maxbins := params.maxbins
  step := params.step
  minstep := params.minstep
  nice := params.nice
  base := params.base

/-- Adds the binning of a channel, if it has one; the parameters must be such that a step can
honour them. -/
def addChannel (chart : Chart) (bins : Binning) (f : FieldDef) :
    Except DefinitionFault Binning :=
  match f.binParams?, f.field with
  | some params, some field => do
    params.validate
    let key := params.fieldKey field
    let label := label? chart f key
    pure (bins.upsert key fun
      -- the first channel with the key decides about the bins
      | some entry => entry.withLabel label
      | none => { step := step chart params field key, label })
  | _, _ => pure bins

/-- The binnings of a chart. -/
def ofChart? (chart : Chart) : Except DefinitionFault (Option Binning) := do
  let bins ← chart.fieldDefs.foldlM (fun bins d => addChannel chart bins d.2) (∅ : Binning)
  pure (if bins.isEmpty then none else some bins)

/-- The binnings of both; a shared one keeps its steps and takes over a missing label. -/
def merge (bins other : Binning) : Binning :=
  SortedMap.mergeWith (fun entry e => entry.withLabel e.label) bins other

/-- The steps of all binnings, in the order of their keys. -/
def steps (bins : Binning) : List Step := bins.values.flatMap BinEntry.steps

end Binning

/-- The formulas of time units, by the field that receives them. -/
abbrev TimeFormulas := SortedMap String String

namespace TimeFormulas

/-- The time units of a chart. -/
def ofChart? (chart : Chart) : Option TimeFormulas :=
  let formulas := chart.fieldDefs.foldl (fun (formulas : TimeFormulas) (_, f) =>
    match f.timeUnit, f.field with
    | some unit, some field =>
      formulas.insertIfNew (unit.outputName field) (unit.expression field)
    | _, _ => formulas) ∅
  if formulas.isEmpty then none else some formulas

/-- The steps of all time units, in the order of their fields. -/
def steps (formulas : TimeFormulas) : List Step :=
  formulas.entries.map fun e => .formula e.2 e.1

end TimeFormulas

end ChartPipeline
