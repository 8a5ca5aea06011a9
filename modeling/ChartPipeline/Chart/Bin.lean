import ChartPipeline.Chart.Fault

/-!
# Binning

A field is binned with its parameters or with the default ones.  Channels that bin one field with
the same parameters share one binning, which the key of the parameters and the field identifies.
-/

namespace ChartPipeline

/-- The parameters of a binning. -/
structure BinParams where
  /-- The bounds of the bins; without them they are taken from the data. -/
  extent : Option (Float × Float) := none
  maxbins : Option Nat := none
  step : Option Float := none
  minstep : Option Float := none
  nice : Option Bool := none
  base : Option Float := none
deriving Inhabited

/-- What a field definition says about binning: a flag, or parameters. -/
inductive BinSpec where
  | flag (on : Bool)
  | params (params : BinParams)
deriving Inhabited

namespace BinParams

/-- Limits the number of bins. -/
def withMaxbins (p : BinParams) (maxbins : Nat) : BinParams := { p with maxbins := some maxbins }

/-- Fixes the bounds of the bins. -/
def withExtent (p : BinParams) (low high : Float) : BinParams := { p with extent := some (low, high) }

/-- Fixes the width of the bins. -/
def withStep (p : BinParams) (step : Float) : BinParams := { p with step := some step }

/-- How many bins there are at most when nothing else decides it. -/
def defaultMaxbins : Nat := 10

/-- Asks for the default number of bins if neither a number nor a step is given. -/
def normalized (p : BinParams) : BinParams :=
  if p.maxbins.isNone && p.step.isNone then { p with maxbins := some defaultMaxbins } else p

/-- Refuses bounds that do not increase, no bins, and a step that is not positive. -/
def validate (p : BinParams) : Except DefinitionFault Unit :=
  match p.extent with
  | some (low, high) => if low ≤ high then rest else .error (.emptyExtent low high)
  | none => rest
where
  /-- What is left to check once the bounds are right. -/
  rest : Except DefinitionFault Unit :=
    if p.maxbins = some 0 then .error .noBins
    else match p.step with
      | some step => if step ≤ 0 then .error (.stepNotPositive step) else .ok ()
      | none => .ok ()

/-- The parameters as a text, each given one under its name. -/
def key (p : BinParams) : String :=
  let part (name : String) (text : Option String) : String :=
    match text with
    | some t => "_" ++ name ++ "_" ++ t
    | none => ""
  "bin" ++
    part "extent" (p.extent.map fun e => FloatText.plain e.1 ++ "_" ++ FloatText.plain e.2) ++
    part "maxbins" (p.maxbins.map toString) ++
    part "step" (p.step.map FloatText.plain) ++
    part "minstep" (p.minstep.map FloatText.plain) ++
    part "nice" (p.nice.map fun b => if b then "true" else "false") ++
    part "base" (p.base.map FloatText.plain)

/-- The key of a binning of a field. -/
def fieldKey (p : BinParams) (field : String) : String := p.key ++ "_" ++ field

end BinParams

/-- The parameters to bin with, if the field is binned at all. -/
def BinSpec.params? : BinSpec → Option BinParams
  | flag false => none
  | flag true => some (BinParams.normalized {})
  | params p => some p.normalized

end ChartPipeline
