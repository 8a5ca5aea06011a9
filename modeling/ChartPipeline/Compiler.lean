import ChartPipeline.Analysis
import ChartPipeline.Flow.Assembly
import ChartPipeline.Flow.Construction
import ChartPipeline.Flow.Hoisting

/-!
# Compiling charts

A chart is analyzed, its flow is built and optimized, and the datasets of the flow are assembled.
A compiler may compile one chart after the other; each one starts over.
-/

namespace ChartPipeline

/-- The options of a compiler. -/
structure CompilerOptions where
  /-- Whether charts are analyzed first. -/
  analyze : Bool := true
  /-- Whether stages are moved toward their source. -/
  optimize : Bool := true
  facetPolicy : FacetPolicy := .foldGroupby
  /-- How many sweeps a pass may take, of which there is at least one. -/
  maxIterations : Nat := 32
deriving DecidableEq, Inhabited

/-- A compiler with what it keeps from one chart to the next. -/
structure Compiler where
  options : CompilerOptions := {}
  /-- The names seen by the last analysis. -/
  seen : List String := []
  /-- The state that the last assembly ended in. -/
  assembly : Assembly := {}
deriving Inhabited

namespace CompilerOptions

/-- The sweeps that a pass may take. -/
def iterations (options : CompilerOptions) : Nat := max options.maxIterations 1

/-- Runs every pass, then leaves out the stages that do nothing. -/
def optimizeFully (options : CompilerOptions) : Edit CompileError Unit := do
  Flow.hoist options.facetPolicy options.iterations
  let _ ← Flow.eliminate

/-- Optimizes a flow.  Without optimization, conversions are still moved to their source and
stages that do nothing are still left out: a flow is assembled only in this form. -/
def optimizeFlow (options : CompilerOptions) : Edit CompileError Unit := do
  if options.optimize then options.optimizeFully
  else
    let _ ← Flow.runPass .parse options.facetPolicy options.iterations
    let _ ← Flow.eliminate

end CompilerOptions

namespace Compiler

/-- Analyzes a chart and builds its flow. -/
def buildFlow (compiler : Compiler) (chart : Chart) : Except CompileError Flow × Compiler :=
  let build : Except CompileError Flow := (Building.ofChart chart).map Building.flow
  if compiler.options.analyze then
    let (result, seen) := Analysis.analyzeAfter compiler.seen chart
    (result.bind fun _ => build, { compiler with seen })
  else (build, compiler)

/-- Compiles a chart. -/
def compile (compiler : Compiler) (chart : Chart) : Except CompileError CompiledData × Compiler :=
  match compiler.buildFlow chart with
  | (.error e, compiler) => (.error e, compiler)
  | (.ok flow, compiler) =>
    match compiler.options.optimizeFlow flow with
    | (.error e, _) => (.error e, compiler)
    | (.ok (), flow) =>
      let (result, assembly, _) := flow.assembleAfter compiler.assembly
      (result, { compiler with assembly })

/-- Compiles charts one after the other. -/
def compileAll : Compiler → List Chart → List (Except CompileError CompiledData)
  | _, [] => []
  | compiler, chart :: rest =>
    let (result, compiler) := compiler.compile chart
    result :: compileAll compiler rest

end Compiler

/-- Compiles a chart. -/
def compileChart (options : CompilerOptions) (chart : Chart) : Except CompileError CompiledData :=
  (Compiler.compile { options } chart).1

end ChartPipeline
