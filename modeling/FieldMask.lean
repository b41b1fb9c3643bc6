import FieldMask.Binary64.Text
import FieldMask.Datum.Mask
import FieldMask.Datum.Projection
import FieldMask.Document.Builder
import FieldMask.Document.Walker
import FieldMask.Flat
import FieldMask.Json.Lines
import FieldMask.Main
import FieldMask.Proofs.Document.Projection
import FieldMask.Proofs.Stream.Copy
import FieldMask.Proofs.Stream.Projection
import FieldMask.Proofs.Document.Pruning
import FieldMask.Proofs.Mask.Path
import FieldMask.Proofs.Mask.Survival
import FieldMask.Proofs.Expression.Completeness
import FieldMask.Proofs.Expression.RoundTrip
import FieldMask.Proofs.Datum.Document
import FieldMask.Proofs.Mask.Layers
import FieldMask.Proofs.Json.Noninterference
import FieldMask.Proofs.Json.Composition
import FieldMask.Proofs.Document.Draft
import FieldMask.Proofs.Document.Sinks
import FieldMask.Proofs.Mask.Erasure
import FieldMask.Proofs.Datum.Structural
import FieldMask.Proofs.Expression.Depth
import FieldMask.Proofs.Expression.Layers
import FieldMask.Proofs.Binary64.Numeral
import FieldMask.Proofs.CommandLine.FileTree
import FieldMask.Proofs.CommandLine.Merge
import FieldMask.Proofs.Datum.Typed
import FieldMask.Proofs.Datum.Shape
import FieldMask.Proofs.Mask.Trimming
import FieldMask.Proofs.Json.Calls
import FieldMask.Proofs.Flat.Survival
import FieldMask.Proofs.Datum.HandedOver
import FieldMask.Proofs.Datum.Routes
import FieldMask.Proofs.Datum.Weight
import FieldMask.Proofs.Document.Refusal
import FieldMask.Proofs.Json.Validity
import FieldMask.Proofs.Expression.Location
import FieldMask.Proofs.Expression.Completion
import FieldMask.Proofs.Expression.Limit
import FieldMask.Proofs.Expression.Safety
import FieldMask.Proofs.Mask.Absorption
import FieldMask.Proofs.Mask.Overridden
import FieldMask.Proofs.Flat.Forms
import FieldMask.Proofs.Flat.Collision
import FieldMask.Proofs.CommandLine.Lines
import FieldMask.Proofs.Json.Location
import FieldMask.Proofs.Json.Truncation
import FieldMask.Proofs.Json.Capacity
import FieldMask.Proofs.Stream.Peeking
import FieldMask.Proofs.Json.Peeking
import FieldMask.Proofs.Stream.Bounded
