import PointsTo.Id
import PointsTo.Table
import PointsTo.Queue
import PointsTo.Walk
import PointsTo.Ascending
import PointsTo.ObjSet
import PointsTo.Context
import PointsTo.Program.Basic
import PointsTo.Error
import PointsTo.Program.Validity
import PointsTo.Json.Value
import PointsTo.Json.Printer
import PointsTo.Json.Token
import PointsTo.Json.Reader
import PointsTo.Json.Double
import PointsTo.Json.Shape
import PointsTo.Program.Format
import PointsTo.Hierarchy
import PointsTo.Heap
import PointsTo.World
import PointsTo.Program.Builder
import PointsTo.CallGraph.Basic
import PointsTo.CallGraph.Diagram
import PointsTo.CallGraph.ByHierarchy
import PointsTo.Text.Blank
import PointsTo.Config.Sensitivity
import PointsTo.Config.Basic
import PointsTo.Yaml.Spot
import PointsTo.Yaml.Scalar
import PointsTo.Yaml.Token
import PointsTo.Yaml.Node
import PointsTo.Config.Format
import PointsTo.Selector
import PointsTo.Entities.Basic
import PointsTo.FlowGraph
import PointsTo.Worklist
import PointsTo.AccessIndex
import PointsTo.Iterate
import PointsTo.Solver.State
import PointsTo.Solver.Rules
import PointsTo.Solver.Run
import PointsTo.Entities.Format
import PointsTo.Outcome
import PointsTo.Analysis
import PointsTo.Report
import PointsTo.Place
import PointsTo.Command
import PointsTo.Main
import PointsTo.Proofs.Tables
import PointsTo.Proofs.Actions
import PointsTo.Proofs.Contents
import PointsTo.Proofs.Derivation
import PointsTo.Proofs.Validity
import PointsTo.Proofs.Accesses
import PointsTo.Proofs.Grounding
import PointsTo.Proofs.Facts
import PointsTo.Proofs.Moves
import PointsTo.Proofs.Rules
import PointsTo.Proofs.Repetition
import PointsTo.Proofs.Invariants
import PointsTo.Proofs.Runs
import PointsTo.Proofs.Settling
import PointsTo.Proofs.Fixpoint
import PointsTo.Proofs.Selectors
import PointsTo.Proofs.Bounds
import PointsTo.Proofs.Measure
import PointsTo.Proofs.Success
import PointsTo.Proofs.Soundness
import PointsTo.Proofs.Precision
import PointsTo.Proofs.BetweenSteps
import PointsTo.Proofs.Termination
import PointsTo.Proofs.Renumbering
import PointsTo.Proofs.Confluence
import PointsTo.Proofs.Walks
import PointsTo.Proofs.FirstHits
import PointsTo.Proofs.Subtypes
import PointsTo.Proofs.Cycles
import PointsTo.Proofs.Dispatch
import PointsTo.Proofs.Acceptance
import PointsTo.Proofs.Building
import PointsTo.Proofs.CallGraphs
import PointsTo.Proofs.Coverage
import PointsTo.Proofs.HierarchyCalls
import PointsTo.Proofs.Transport
import PointsTo.Proofs.Refinement
import PointsTo.Proofs.Monotonicity
import PointsTo.Proofs.Connectivity
import PointsTo.Proofs.Safety
import PointsTo.Proofs.SensitivityText
import PointsTo.Proofs.JsonText
import PointsTo.Proofs.RoundTrip
import PointsTo.Proofs.Reporting
import PointsTo.Proofs.Histories
import PointsTo.Proofs.Simulation
import PointsTo.Proofs.Lockstep
import PointsTo.Proofs.Unreached
import PointsTo.Proofs.Extension
import PointsTo.Proofs.CallKinds
import PointsTo.Proofs.ContextShapes
import PointsTo.Proofs.Blanking
import PointsTo.Proofs.UnresolvedCalls
import PointsTo.Proofs.FieldLookup
import PointsTo.Proofs.Views
import PointsTo.Proofs.Aliases
import PointsTo.Proofs.CallCounts
import PointsTo.Proofs.FiniteSets
import PointsTo.Proofs.Handles
import PointsTo.Proofs.AccessLists
import PointsTo.Proofs.GraphViews
