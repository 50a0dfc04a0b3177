import Recalc.Command
import Recalc.Expr.Basic
import Recalc.Expr.Error
import Recalc.Expr.Exact
import Recalc.Expr.Flat
import Recalc.Expr.Meaning
import Recalc.Expr.Text
import Recalc.Fields
import Recalc.Graph.Basic
import Recalc.Graph.Evaluation
import Recalc.Graph.Sweep
import Recalc.Instance.Basic
import Recalc.Json.Basic
import Recalc.Json.Indented
import Recalc.Json.Reader
import Recalc.Library
import Recalc.Main
import Recalc.Model.Basic
import Recalc.Model.Reader
import Recalc.Number.Decimal
import Recalc.Number.Double
import Recalc.Number.Shortest
import Recalc.Number.Word
import Recalc.Pass.Basic
import Recalc.Pass.Plain
import Recalc.Path.Basic
import Recalc.Path.Write
import Recalc.Program.Basic
import Recalc.Program.Combine
import Recalc.Program.Compile
import Recalc.Program.Lowering
import Recalc.Proofs.Expr.Around
import Recalc.Proofs.Expr.Assembly
import Recalc.Proofs.Expr.Folded
import Recalc.Proofs.Expr.Parts
import Recalc.Proofs.Expr.Renaming
import Recalc.Proofs.Expr.RoundTrip
import Recalc.Proofs.Expr.Scope
import Recalc.Proofs.Fields
import Recalc.Proofs.Graph.Arena
import Recalc.Proofs.Graph.Descent
import Recalc.Proofs.Graph.FromScratch
import Recalc.Proofs.Graph.Grounding
import Recalc.Proofs.Graph.Index
import Recalc.Proofs.Graph.Invariant
import Recalc.Proofs.Graph.Later
import Recalc.Proofs.Graph.Layout
import Recalc.Proofs.Graph.Mapping
import Recalc.Proofs.Graph.Opening.Run
import Recalc.Proofs.Graph.Parallel
import Recalc.Proofs.Graph.Reclaim
import Recalc.Proofs.Graph.Refresh
import Recalc.Proofs.Graph.Renaming.Cells
import Recalc.Proofs.Graph.Renaming.Run
import Recalc.Proofs.Graph.Renewal
import Recalc.Proofs.Graph.Simulation
import Recalc.Proofs.Graph.Sweep
import Recalc.Proofs.Graph.Unread
import Recalc.Proofs.Graph.Upkeep
import Recalc.Proofs.Graph.Verify
import Recalc.Proofs.Instance.Backends
import Recalc.Proofs.Instance.Batches
import Recalc.Proofs.Instance.Committed
import Recalc.Proofs.Instance.Errors
import Recalc.Proofs.Instance.Renaming
import Recalc.Proofs.Instance.Safety
import Recalc.Proofs.Instance.Steps
import Recalc.Proofs.Instance.Tasks
import Recalc.Proofs.Model.Closed
import Recalc.Proofs.Model.Contexts
import Recalc.Proofs.Model.Depth
import Recalc.Proofs.Model.Grammar
import Recalc.Proofs.Model.Reading
import Recalc.Proofs.Number.Rounding
import Recalc.Proofs.Origin.Basic
import Recalc.Proofs.Origin.Meaning
import Recalc.Proofs.Origin.Reading
import Recalc.Proofs.Origin.Scope
import Recalc.Proofs.Pass.Evaluation
import Recalc.Proofs.Pass.Judged
import Recalc.Proofs.Pass.Memory
import Recalc.Proofs.Pass.Plain
import Recalc.Proofs.Pass.Recall
import Recalc.Proofs.Pass.Renaming
import Recalc.Proofs.Pass.Run
import Recalc.Proofs.Pass.Safety
import Recalc.Proofs.Pass.Simulation
import Recalc.Proofs.Path
import Recalc.Proofs.Path.Lens
import Recalc.Proofs.Path.Sites
import Recalc.Proofs.Path.Splicing
import Recalc.Proofs.Program.Acceptance
import Recalc.Proofs.Program.Combine
import Recalc.Proofs.Program.Contract
import Recalc.Proofs.Program.Domain
import Recalc.Proofs.Program.Independence
import Recalc.Proofs.Program.Links
import Recalc.Proofs.Program.Lowering
import Recalc.Proofs.Program.Meaning
import Recalc.Proofs.Program.Ordered
import Recalc.Proofs.Program.Pool
import Recalc.Proofs.Program.Renaming
import Recalc.Proofs.Program.Represents
import Recalc.Proofs.Program.Sharing
import Recalc.Proofs.Program.Table
import Recalc.Proofs.Value.Canonical
import Recalc.Proofs.Value.Documents
import Recalc.Proofs.Value.Hashing
import Recalc.Proofs.Value.Keys
import Recalc.Proofs.Value.Leaves
import Recalc.Proofs.Value.Tame
import Recalc.Proofs.Verb.Congruence
import Recalc.Proofs.Verb.Grouping
import Recalc.Proofs.Verb.Integers
import Recalc.Proofs.Verb.Merging
import Recalc.Proofs.Verb.Order
import Recalc.Proofs.Verb.Slots
import Recalc.Table
import Recalc.Text.Combining
import Recalc.Text.Invisible
import Recalc.Text.Quoted
import Recalc.Value.Basic
import Recalc.Value.Code
import Recalc.Value.Equality
import Recalc.Value.Exact
import Recalc.Value.Json
import Recalc.Verb.Access
import Recalc.Verb.Basic
import Recalc.Verb.Binary
import Recalc.Verb.Collection
import Recalc.Verb.Error
import Recalc.Verb.Range
import Recalc.Verb.Token
import Recalc.Verb.Unary
import Recalc.Verdict
