import LazyGraph.Code
import LazyGraph.Code.Globals
import LazyGraph.Decimal.Binary
import LazyGraph.Decimal.Layout
import LazyGraph.Decimal.Shortest
import LazyGraph.Document
import LazyGraph.Fault
import LazyGraph.Handle
import LazyGraph.Heap.Arena
import LazyGraph.Heap.Basic
import LazyGraph.Heap.Census
import LazyGraph.Heap.Collect
import LazyGraph.Heap.Follow
import LazyGraph.Heap.Marks
import LazyGraph.Heap.Slot
import LazyGraph.Heap.Telemetry
import LazyGraph.Heap.Wait
import LazyGraph.Machine.Demand
import LazyGraph.Machine.Frame
import LazyGraph.Machine.Reduce
import LazyGraph.Machine.Return
import LazyGraph.Machine.Run
import LazyGraph.Machine.State
import LazyGraph.Machine.World
import LazyGraph.Node
import LazyGraph.Primitive.Basic
import LazyGraph.Primitive.Execute
import LazyGraph.Proofs.Code.Names
import LazyGraph.Proofs.Heap.Collection
import LazyGraph.Proofs.Heap.Contention
import LazyGraph.Proofs.Heap.Drift
import LazyGraph.Proofs.Heap.Lookup
import LazyGraph.Proofs.Heap.Reachability
import LazyGraph.Proofs.Heap.Throughout
import LazyGraph.Proofs.Heap.Waiting
import LazyGraph.Proofs.Machine.Correspondence
import LazyGraph.Proofs.Machine.Iterations
import LazyGraph.Proofs.Machine.Markers
import LazyGraph.Proofs.Machine.Transition
import LazyGraph.Proofs.Machine.Unwinding
import LazyGraph.Proofs.Machine.Work
import LazyGraph.Proofs.Moves
import LazyGraph.Proofs.Recursion.Evaluator
import LazyGraph.Proofs.Recursion.Refinement
import LazyGraph.Proofs.Recursion.Runs
import LazyGraph.Proofs.Recursion.Simulation
import LazyGraph.Script.Basic
import LazyGraph.Script.Host
import LazyGraph.Settings
import LazyGraph.Settings.Reader
import LazyGraph.Settings.Scan
import LazyGraph.Stack
import LazyGraph.Tag
import LazyGraph.Text.Column
import LazyGraph.Text.Quoted
import LazyGraph.Text.Unprintable
import LazyGraph.View.Graph
import LazyGraph.View.Render
import LazyGraph.View.Visit
import LazyGraph.Proofs.Heap.Growth
import LazyGraph.Proofs.Heap.Resolution
import LazyGraph.Proofs.Heap.Assignment
import LazyGraph.Proofs.Machine.Assignment
import LazyGraph.Proofs.Session
import LazyGraph.Proofs.Code.Scope
import LazyGraph.Proofs.Heap.WellFormed
import LazyGraph.Proofs.Machine.Contract
import LazyGraph.Proofs.Machine.Safety
import LazyGraph.Proofs.Ledger.Steps
import LazyGraph.Proofs.Ledger.Partition
import LazyGraph.Proofs.Ledger.Accounts
import LazyGraph.Proofs.Ledger.Issue
import LazyGraph.Proofs.Code.Parts
import LazyGraph.Proofs.Machine.Confinement
import LazyGraph.Proofs.Machine.Footprint
import LazyGraph.Proofs.Heap.Grants
import LazyGraph.Proofs.Sharing.Reading
import LazyGraph.Proofs.Sharing.Agreement
import LazyGraph.Proofs.Sharing.Suspension
import LazyGraph.Proofs.Sharing.Reduction
import LazyGraph.Proofs.Sharing.Chains
import LazyGraph.Proofs.Sharing.Mirror
import LazyGraph.Proofs.Sharing.ByNeed
import LazyGraph.Proofs.Sharing.ByName
import LazyGraph.Proofs.Sharing.Runs
import LazyGraph.Proofs.Sharing.Transparency
import LazyGraph.Proofs.Machine.Upkeep
import LazyGraph.Proofs.Ledger.Journal
import LazyGraph.Proofs.Renaming.Abreast
import LazyGraph.Proofs.Heap.Views
import LazyGraph.Proofs.Heap.Preorder
import LazyGraph.Proofs.Renaming.Alike
import LazyGraph.Proofs.Renaming.Collection
import LazyGraph.Proofs.Renaming.Lockstep
import LazyGraph.Proofs.Renaming.CallSequences
import LazyGraph.Proofs.Renaming.Twins
import LazyGraph.Proofs.Heap.Routes
import LazyGraph.Proofs.Retry.Budgets
import LazyGraph.Proofs.Retry.Floors
import LazyGraph.Proofs.Retry.Retracing
import LazyGraph.Proofs.Retry.Trails
import LazyGraph.Proofs.Ledger.NodeLimit
import LazyGraph.Proofs.Ledger.Rollback
import LazyGraph.Proofs.Machine.LimitedSteps
import LazyGraph.Proofs.Machine.Currying
import LazyGraph.Proofs.Machine.Limits
import LazyGraph.Proofs.Machine.NonTermination
import LazyGraph.Proofs.Machine.Recall
import LazyGraph.Proofs.Retry.Excursions
import LazyGraph.Proofs.Retry.Meeting
import LazyGraph.Proofs.Retry.Residue
import LazyGraph.Proofs.Retry.Attempts
import LazyGraph.Proofs.Heap.Drawing
import LazyGraph.Proofs.Heap.Format
import LazyGraph.Proofs.Lapses.Alone
import LazyGraph.Proofs.Lapses.Calls
import LazyGraph.Proofs.Lapses.Never
import LazyGraph.Proofs.Machine.Resolution
import LazyGraph.Proofs.Code.Occurrences
import LazyGraph.Proofs.Ledger.Threshold
import LazyGraph.Proofs.Primitive.Division
import LazyGraph.Proofs.Primitive.Outcomes
import LazyGraph.Proofs.Parallel.Agreement
import LazyGraph.Proofs.Parallel.Schedules
import LazyGraph.Proofs.Heap.Endings
import LazyGraph.Proofs.Heap.Wakeups
import LazyGraph.Proofs.Settings.Configurations
