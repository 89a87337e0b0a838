import PointsTo.Ref
import PointsTo.Outcome
import PointsTo.Search
import PointsTo.Scene.Type
import PointsTo.Scene.Value
import PointsTo.Scene.NameMap
import PointsTo.Scene.Decl
import PointsTo.Scene.Files
import PointsTo.Scene.Hierarchy
import PointsTo.Scene.Scope
import PointsTo.Scene.Content
import PointsTo.Scene.Text
import PointsTo.Json.Basic
import PointsTo.Json.Reader
import PointsTo.Json.Printer
import PointsTo.Json.Decoder
import PointsTo.Scene.Encode
import PointsTo.Scene.Decode
import PointsTo.Scene.Draft
import PointsTo.Order
import PointsTo.Intern
import PointsTo.Platform.ApiName
import PointsTo.Context.Basic
import PointsTo.Context.Policy
import PointsTo.Call.Site
import PointsTo.Call.Graph
import PointsTo.Call.Hierarchy
import PointsTo.Scene.Place
import PointsTo.Flow.EdgeKind
import PointsTo.Summary.Basic
import PointsTo.Summary.Survey
import PointsTo.Queue
import PointsTo.Flow.Location
import PointsTo.Flow.Node
import PointsTo.Flow.Graph
import PointsTo.Points.BitSet
import PointsTo.Points.ObjectSet
import PointsTo.Points.DiffTable
import PointsTo.Solver
import PointsTo.Settings
import PointsTo.Analysis.State
import PointsTo.Analysis.Edges
import PointsTo.Analysis.Schedule
import PointsTo.Analysis.Binding
import PointsTo.Analysis.Synthetic
import PointsTo.Model.Storage
import PointsTo.Model.Reflection
import PointsTo.Model.TaskPool
import PointsTo.Model.Worker
import PointsTo.Model.Sdk
import PointsTo.Model.Containers
import PointsTo.Model.Basic
import PointsTo.Analysis.Call
import PointsTo.Analysis.Dispatch
import PointsTo.Analysis.Instantiate
import PointsTo.Analysis.Rounds
import PointsTo.Decimal.Quotient
import PointsTo.Report.NodeText
import PointsTo.Report.Dot
import PointsTo.Report.Statistics
import PointsTo.Report.Dump
import PointsTo.Text.Lines
import PointsTo.Command.Arguments
import PointsTo.Command.Duration
import PointsTo.Command.Help
import PointsTo.Command.Run
import PointsTo.Command.Refusal
import PointsTo.Main
import PointsTo.Proofs.Analysis.Agreement
import PointsTo.Proofs.Analysis.Arguments
import PointsTo.Proofs.Analysis.Callbacks
import PointsTo.Proofs.Analysis.Contexts
import PointsTo.Proofs.Analysis.BoundCalls
import PointsTo.Proofs.Analysis.Elements
import PointsTo.Proofs.Analysis.Links
import PointsTo.Proofs.Analysis.Queries
import PointsTo.Proofs.Analysis.ReflectiveCalls
import PointsTo.Proofs.Analysis.Rebinding
import PointsTo.Proofs.Analysis.References
import PointsTo.Proofs.Analysis.Singletons
import PointsTo.Proofs.Analysis.StoredCalls
import PointsTo.Proofs.Analysis.Stores
import PointsTo.Proofs.Call.Devirtualized
import PointsTo.Proofs.Flow.Represented
import PointsTo.Proofs.Points.Changes
import PointsTo.Proofs.Points.Families
import PointsTo.Proofs.Solver.Termination
import PointsTo.Proofs.Scene.Stored
import PointsTo.Proofs.Summary.Faithful
import PointsTo.Proofs.Analysis.Repetition
import PointsTo.Proofs.Analysis.Agenda
import PointsTo.Proofs.Call.Changes
import PointsTo.Proofs.Call.Registry
import PointsTo.Proofs.Report.Counts
import PointsTo.Proofs.Scene.FileNames
import PointsTo.Proofs.Analysis.Drafted
