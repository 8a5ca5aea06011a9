import ChartPipeline.Dataset.Step

/-!
# Datasets

The outcome of a compilation: dataset records in an order in which each one follows the record
it is made from, and for every facet the records made inside one of its partitions.
-/

namespace ChartPipeline

/-- A dataset with a name. -/
structure DatasetRecord where
  name : String
  /-- The dataset that this one is made from. -/
  source : Option String := none
  values : Option (List Json) := none
  url : Option String := none
  format : Option DataFormat := none
  steps : List Step := []
deriving Inhabited

namespace DatasetRecord

/-- The record made from another one by steps. -/
def derived (name source : String) (steps : List Step) : DatasetRecord :=
  { name, source := some source, steps }

/-- Whether the record only gives its source another name. -/
def isReference (r : DatasetRecord) : Bool := r.source.isSome && r.steps.isEmpty

end DatasetRecord

/-- The datasets inside one partition of a facet. -/
structure FacetData where
  name : String
  /-- The dataset that is partitioned. -/
  source : String
  /-- The fields that it is partitioned by. -/
  groupby : List String
  datasets : List DatasetRecord := []
deriving Inhabited

/-- The datasets of a chart. -/
structure CompiledData where
  datasets : List DatasetRecord := []
  facets : List FacetData := []
deriving Inhabited

namespace CompiledData

/-- The record of a name outside facets. -/
def dataset? (d : CompiledData) (name : String) : Option DatasetRecord :=
  d.datasets.find? (·.name = name)

/-- The names of the records outside facets. -/
def datasetNames (d : CompiledData) : List String := d.datasets.map DatasetRecord.name

/-- The facet of a name. -/
def facet? (d : CompiledData) (name : String) : Option FacetData := d.facets.find? (·.name = name)

end CompiledData

end ChartPipeline
