import TracingHeap.Cell
import TracingHeap.Cluster.Basic
import TracingHeap.Cluster.Check
import TracingHeap.Cluster.Dissolution
import TracingHeap.Cluster.Edges
import TracingHeap.Cluster.Formation
import TracingHeap.CollectionLock
import TracingHeap.Collector.Basic
import TracingHeap.Collector.Collection
import TracingHeap.Collector.Mutator
import TracingHeap.Collector.Operation
import TracingHeap.Collector.Statistics
import TracingHeap.Collector.TimeLimit
import TracingHeap.Command.Arguments
import TracingHeap.Command.Help
import TracingHeap.Command.Options
import TracingHeap.Command.Run
import TracingHeap.Document.Basic
import TracingHeap.Document.Number
import TracingHeap.Document.Reader
import TracingHeap.Document.Text
import TracingHeap.Duration
import TracingHeap.Error
import TracingHeap.Flags
import TracingHeap.Handle
import TracingHeap.HandleSet
import TracingHeap.Journal
import TracingHeap.Main
import TracingHeap.Marking.Analysis
import TracingHeap.Marking.Batch
import TracingHeap.Marking.Edge
import TracingHeap.Marking.Wave
import TracingHeap.Number.Dyadic
import TracingHeap.Number.Read
import TracingHeap.Number.Shortest
import TracingHeap.Number.Text
import TracingHeap.Object
import TracingHeap.Proofs.Cluster.Coverage
import TracingHeap.Proofs.Cluster.Dissolution
import TracingHeap.Proofs.Cluster.Enrollment
import TracingHeap.Proofs.Cluster.Formation
import TracingHeap.Proofs.Cluster.ListOrder
import TracingHeap.Proofs.Cluster.OutgoingReferences
import TracingHeap.Proofs.Collection.Agreement
import TracingHeap.Proofs.Collection.ClusterFate
import TracingHeap.Proofs.Collection.KilledObjects
import TracingHeap.Proofs.Collection.Reachability
import TracingHeap.Proofs.Collection.Repetition
import TracingHeap.Proofs.Collection.Returns
import TracingHeap.Proofs.Collection.Roots
import TracingHeap.Proofs.Collection.Scheduled
import TracingHeap.Proofs.Collection.SearchAgain
import TracingHeap.Proofs.Collection.Statistics
import TracingHeap.Proofs.Collection.Step
import TracingHeap.Proofs.Collection.WeakClearing
import TracingHeap.Proofs.Collection.WeakCount
import TracingHeap.Proofs.Heap.Changes
import TracingHeap.Proofs.Heap.Writes
import TracingHeap.Proofs.Mark.Dissolution
import TracingHeap.Proofs.Mark.EdgeWork
import TracingHeap.Proofs.Mark.FaultSources
import TracingHeap.Proofs.Mark.NoFault
import TracingHeap.Proofs.Mark.OutlivedCluster
import TracingHeap.Proofs.Mark.Replay
import TracingHeap.Proofs.Mark.Rounds
import TracingHeap.Proofs.Mark.Run
import TracingHeap.Proofs.Mark.Seeds
import TracingHeap.Proofs.Mark.Verdict
import TracingHeap.Proofs.Mark.WaveWork
import TracingHeap.Proofs.Mark.Work
import TracingHeap.Proofs.Mark.WorkLeft
import TracingHeap.Proofs.Mark.WorkOnce
import TracingHeap.Proofs.Object.Layout
import TracingHeap.Proofs.Object.Slots
import TracingHeap.Proofs.Outcome
import TracingHeap.Proofs.Program.History
import TracingHeap.Proofs.Program.Integrity
import TracingHeap.Proofs.Program.MutatorCalls
import TracingHeap.Proofs.Program.PermanentPool
import TracingHeap.Proofs.Program.StoredReference
import TracingHeap.Proofs.Purge.Account
import TracingHeap.Proofs.Purge.Call
import TracingHeap.Proofs.Purge.FirstPhase
import TracingHeap.Proofs.Purge.Journal
import TracingHeap.Proofs.Purge.ParkedList
import TracingHeap.Proofs.Purge.Pending
import TracingHeap.Proofs.Purge.Pieces
import TracingHeap.Proofs.Purge.Polling
import TracingHeap.Proofs.Purge.Protocol
import TracingHeap.Proofs.Purge.Resumption
import TracingHeap.Proofs.Purge.SecondPhase
import TracingHeap.Proofs.Purge.Spared
import TracingHeap.Proofs.Purge.Starvation
import TracingHeap.Proofs.Purge.StepCount
import TracingHeap.Proofs.Schema.Classes
import TracingHeap.Proofs.Schema.FieldPlaces
import TracingHeap.Proofs.Schema.Lineage
import TracingHeap.Proofs.Schema.Outline
import TracingHeap.Proofs.Schema.Registration
import TracingHeap.Proofs.Schema.Reports
import TracingHeap.Proofs.Schema.SteadyCollectors
import TracingHeap.Proofs.Scratch.WarmUp
import TracingHeap.Proofs.Settings.Runnable
import TracingHeap.Proofs.Table.Allocation
import TracingHeap.Proofs.Table.Basic
import TracingHeap.Proofs.Table.Evolution
import TracingHeap.Proofs.Token.Landing
import TracingHeap.Proofs.Token.Origins
import TracingHeap.Proofs.Token.Reading
import TracingHeap.Proofs.Trace.Batches
import TracingHeap.Proofs.Trace.ClusterExpansion
import TracingHeap.Proofs.Trace.Invariant
import TracingHeap.Proofs.Trace.Reach
import TracingHeap.Proofs.Trace.References
import TracingHeap.Proofs.Trace.Termination
import TracingHeap.Proofs.Trace.WaveRuns
import TracingHeap.Proofs.Trace.Waves
import TracingHeap.Proofs.Workload.LiveNodes
import TracingHeap.Proofs.Workload.Population
import TracingHeap.Proofs.Workload.StressRun
import TracingHeap.Purge.Basic
import TracingHeap.Purge.Routing
import TracingHeap.Purge.Run
import TracingHeap.Report
import TracingHeap.Schema.Basic
import TracingHeap.Schema.Collector
import TracingHeap.Schema.Kind
import TracingHeap.Schema.Lifecycle
import TracingHeap.ScratchPool
import TracingHeap.Settings.Basic
import TracingHeap.Settings.Document
import TracingHeap.Settings.Environment
import TracingHeap.Table
import TracingHeap.Text.Quoted
import TracingHeap.Text.Visible
import TracingHeap.Timing.Benchmark
import TracingHeap.Timing.Profile
import TracingHeap.Timing.Stopwatch
import TracingHeap.Token.Basic
import TracingHeap.Token.Emission
import TracingHeap.Token.Text
import TracingHeap.Token.Walk
import TracingHeap.WeakSlots
import TracingHeap.Workload.Bench
import TracingHeap.Workload.Graph
import TracingHeap.Workload.Random
import TracingHeap.Workload.Stress
