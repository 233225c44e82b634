import Durability.Collection.InsertionOrder
import Durability.Collection.SortedMap
import Durability.Collection.SortedSet
import Durability.Command.Arguments
import Durability.Command.Directory
import Durability.Command.Run
import Durability.Context.PmFacts
import Durability.Context.Table
import Durability.Fault
import Durability.Fix.Apply
import Durability.Fix.Basic
import Durability.Fix.Map
import Durability.Fix.Order
import Durability.Fix.Report
import Durability.Json.Basic
import Durability.Json.Parser
import Durability.Json.Printer
import Durability.LocationIndex
import Durability.Main
import Durability.PointsTo.Cache
import Durability.PointsTo.Constraint
import Durability.PointsTo.Solve
import Durability.PointsTo.Storage
import Durability.Program.Basic
import Durability.Program.Builder
import Durability.Program.Display
import Durability.Program.Edit
import Durability.Program.Json
import Durability.Program.Listing
import Durability.Program.Names
import Durability.Program.Query
import Durability.Program.Validate
import Durability.Proofs.Attempt
import Durability.Proofs.Context.PmFacts
import Durability.Proofs.Context.Table
import Durability.Proofs.Execution
import Durability.Proofs.Fix.Apply
import Durability.Proofs.Json.Lexer
import Durability.Proofs.Json.Parser
import Durability.Proofs.LocationIndex
import Durability.Proofs.Program.Edit
import Durability.Proofs.Program.Json
import Durability.Proofs.Program.Linked
import Durability.Proofs.Program.Position
import Durability.Proofs.Program.Valid
import Durability.Proofs.Redundancy.Always
import Durability.Proofs.Redundancy.Execution
import Durability.Proofs.Redundancy.Unflushed
import Durability.Proofs.Repair.AssertPersisted
import Durability.Proofs.Repair.Fixes
import Durability.Proofs.Repair.RequiredFlush
import Durability.Proofs.Trace.Durable
import Durability.Proofs.Traversal
import Durability.Proofs.Window
import Durability.Proofs.Window.Event
import Durability.Proofs.WindowGraph.Construct
import Durability.Proofs.WindowGraph.Search
import Durability.Proofs.WindowGraph.Successors
import Durability.Proofs.WindowGraph.Walk
import Durability.Redundancy.Basic
import Durability.Redundancy.Dot
import Durability.Repair.Fixer
import Durability.Repair.Localize
import Durability.RepairError
import Durability.Rounds
import Durability.Sample.Programs
import Durability.Sample.Traces
import Durability.Settings
import Durability.Text
import Durability.Trace.ByteRange
import Durability.Trace.Document
import Durability.Trace.Event
import Durability.Trace.Location
import Durability.Traversal
import Durability.Window
import Durability.WindowGraph
import Durability.Yaml.Node
import Durability.Yaml.Parser
import Durability.Yaml.Token
import Durability.Proofs.PointsTo.Solve
import Durability.Proofs.PointsTo.Constraint
import Durability.Proofs.Program.Total
import Durability.Proofs.WindowGraph.Exact
import Durability.Proofs.Redundancy.Sweep
import Durability.Proofs.Redundancy.Interpret
import Durability.Proofs.Redundancy.Flags
import Durability.Proofs.Context.Placed
import Durability.Proofs.Window.Total
import Durability.Proofs.WindowGraph.Total
import Durability.Proofs.WindowGraph.Terminates
import Durability.Proofs.WindowGraph.Discovery
import Durability.Proofs.Redundancy.Boundary
import Durability.Proofs.Redundancy.Covered
import Durability.Proofs.Context.Agreement
import Durability.Proofs.WindowGraph.Agreement
import Durability.Proofs.WindowGraph.Facts
import Durability.Proofs.Redundancy.Spoils
import Durability.Proofs.Repair.Failure
import Durability.Proofs.Context.Run
import Durability.Proofs.WindowGraph.Leaves
import Durability.Proofs.Fix.Merge
import Durability.Proofs.Repair.Compose
import Durability.Proofs.Fix.Report
import Durability.Proofs.Repair.Report
import Durability.Proofs.Program.Fault
import Durability.Proofs.Fix.Change
import Durability.Proofs.Repair.Outcome
import Durability.Proofs.Trace.Bugs
import Durability.Proofs.Trace.ByteRange
import Durability.Proofs.Trace.Document
import Durability.Proofs.Repair.Unrelated
import Durability.Proofs.Redundancy.Dot
import Durability.Proofs.Repair.Chain
import Durability.Proofs.Repair.Conditional
import Durability.Proofs.Fix.Dependents
import Durability.Proofs.Repair.Confluence
import Durability.Proofs.Repair.Unpersisted
import Durability.Proofs.Repair.RedundantPair
import Durability.Proofs.Trace.Latest
import Durability.Proofs.LocationIndex.Scan
import Durability.Proofs.Program.Coherent
import Durability.Proofs.Program.Builder
import Durability.Proofs.Program.Finished
import Durability.Proofs.Window.Partition
import Durability.Proofs.WindowGraph.Partition
import Durability.Proofs.Repair.Expects
import Durability.Proofs.Repair.Addressed
