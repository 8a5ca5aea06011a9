import ChartPipeline.Dataset.Decode
import ChartPipeline.Main
import ChartPipeline.Proofs.UnitCharts
import ChartPipeline.Proofs.Agreement
import ChartPipeline.Proofs.Enclosing
import ChartPipeline.Proofs.Unfailing
import ChartPipeline.Proofs.Linearizing
import ChartPipeline.Proofs.Reading
import ChartPipeline.Proofs.Extents
import ChartPipeline.Proofs.Converging
import ChartPipeline.Proofs.Lineage
import ChartPipeline.Proofs.Folding
import ChartPipeline.Proofs.Siblings
import ChartPipeline.Proofs.Emitting
import ChartPipeline.Proofs.Inventory
import ChartPipeline.Proofs.Catalog
import ChartPipeline.Proofs.Editing
import ChartPipeline.Proofs.Pipelines
import ChartPipeline.Proofs.Buildable
import ChartPipeline.Proofs.SideBySide
import ChartPipeline.Proofs.References
import ChartPipeline.Proofs.Afresh
import ChartPipeline.Proofs.Sharing
import ChartPipeline.Proofs.Rearranging
import ChartPipeline.Proofs.Resting
import ChartPipeline.Proofs.Conversions
import ChartPipeline.Proofs.CompiledForms
import ChartPipeline.Proofs.Eliminating
import ChartPipeline.Proofs.Admitting
import ChartPipeline.Proofs.Contributing
import ChartPipeline.Proofs.Yielding
import ChartPipeline.Proofs.Shifting
import ChartPipeline.Proofs.Rehoisting
import ChartPipeline.Proofs.EditOrder
import ChartPipeline.Proofs.FailedEdits
import ChartPipeline.Proofs.BinKeys
import ChartPipeline.Proofs.Binned
import ChartPipeline.Proofs.LoadTypes
import ChartPipeline.Proofs.Validity
import ChartPipeline.Proofs.Wrapping
import ChartPipeline.Proofs.Signals
import ChartPipeline.Proofs.Traversing
import ChartPipeline.Proofs.Aggregates
import ChartPipeline.Proofs.TimeUnits
import ChartPipeline.Proofs.Expressions
