import Scholia.Batch.Json
import Scholia.Batch.Run
import Scholia.Doc.Json
import Scholia.Harvest
import Scholia.Layout
import Scholia.Service.Router
import Scholia.Storage.Memory
import Scholia.Proofs.Source.Placement
import Scholia.Proofs.Source.Walk
import Scholia.Proofs.Batch.Gaps
import Scholia.Proofs.Source.Braced.Extent
import Scholia.Proofs.Source.Braced.Order
import Scholia.Proofs.Source.Braced.Replace
import Scholia.Proofs.Source.Covered
import Scholia.Proofs.Source.Procedural.Extent
import Scholia.Proofs.Source.Procedural.Replace
import Scholia.Proofs.Batch.Structure
import Scholia.Batch.Sharing
import Scholia.Proofs.Batch.Attempts
import Scholia.Proofs.Batch.Course
import Scholia.Proofs.Batch.Failure
import Scholia.Proofs.Batch.Documents
import Scholia.Proofs.Batch.Sharing
import Scholia.Proofs.Comment.Worn
import Scholia.Proofs.Layout.Loss
import Scholia.Proofs.Source.Braced.Loss
import Scholia.Proofs.Source.Indented.LineLoss
import Scholia.Proofs.Layout.Tidy
import Scholia.Proofs.Layout.RoundTrip
import Scholia.Proofs.Layout.Dedent
import Scholia.Proofs.Model.Delivery
import Scholia.Proofs.Model.Endpoint
import Scholia.Proofs.Text.Lines
import Scholia.Proofs.Path.Components
import Scholia.Proofs.Batch.Places
import Scholia.Proofs.Service.Inside
import Scholia.Proofs.Service.Configuration
import Scholia.Proofs.Source.Braced.Grammar
import Scholia.Proofs.Source.Braced.Balance
import Scholia.Proofs.Source.Indented.Definitions
import Scholia.Proofs.Source.Procedural.Headers
import Scholia.Proofs.Source.Procedural.Lambdas
import Scholia.Proofs.Source.Brackets
import Scholia.Proofs.Source.Remarks
import Scholia.Proofs.Source.Braced.Classes
import Scholia.Proofs.Comment.Harvest
import Scholia.Proofs.Comment.Marker
import Scholia.Proofs.Comment.BlockTags
import Scholia.Proofs.Comment.Canonical
import Scholia.Proofs.Comment.Column
import Scholia.Proofs.Comment.Elements
import Scholia.Proofs.Comment.Docstring
import Scholia.Proofs.Comment.Sections
import Scholia.Proofs.Comment.Paragraphs
import Scholia.Proofs.Doc.Word
import Scholia.Proofs.Reply.CodeBlock
import Scholia.Proofs.Comment.Labels
import Scholia.Proofs.Prompt.Filled
import Scholia.Proofs.Layout.Splice
import Scholia.Proofs.Layout.Normal
import Scholia.Proofs.Layout.Reindent
import Scholia.Proofs.Scan.Eligible
import Scholia.Proofs.Batch.Report
import Scholia.Proofs.Model.Conversation
import Scholia.Proofs.Source.Braced.Runs
import Scholia.Proofs.Source.Indented.Partition
import Scholia.Proofs.Service.Retries
