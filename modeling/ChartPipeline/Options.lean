import ChartPipeline.Compiler
import ChartPipeline.Json.Basic
import ChartPipeline.Value.Decode

/-!
# Compiler options as documents
-/

namespace ChartPipeline

/-- A policy by its name. -/
def FacetPolicy.decode (place : Place) : Decoder FacetPolicy :=
  place.choice FacetPolicy.name [.foldGroupby, .keepPartitioned]

namespace CompilerOptions

/-- The names of the options. -/
def fieldNames : List String :=
  ["enable_semantic_analysis", "enable_optimization", "facet_hoist_policy", "max_pass_iterations"]

/-- Options; those that are left out have their defaults. -/
def decode (place : Place) : Decoder CompilerOptions := fun v => do
  let fields ← place.record fieldNames v
  let analyze ← Fields.withDefault fields "enable_semantic_analysis" true place.bool
  let optimize ← Fields.withDefault fields "enable_optimization" true place.bool
  let facetPolicy ←
    Fields.withDefault fields "facet_hoist_policy" .foldGroupby (FacetPolicy.decode place)
  let maxIterations ← Fields.withDefault fields "max_pass_iterations" 32 (place.nat (2 ^ 64))
  pure { analyze, optimize, facetPolicy, maxIterations }

/-- All options. -/
def toJson (options : CompilerOptions) : Json :=
  .obj [
    ("enable_semantic_analysis", .bool options.analyze),
    ("enable_optimization", .bool options.optimize),
    ("facet_hoist_policy", .str options.facetPolicy.name),
    ("max_pass_iterations", .int options.maxIterations)]

end CompilerOptions

end ChartPipeline
