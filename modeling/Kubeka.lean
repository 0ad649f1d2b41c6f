import Kubeka.Library.FiniteGraph
import Kubeka.Library.Template
import Kubeka.Library.Text
import Kubeka.Library.Fuel
import Kubeka.Library.Table
import Kubeka.Library.Interaction
import Kubeka.Library.Transition
import Kubeka.Library.Lists
import Kubeka.Library.Piped
import Kubeka.Library.PipedRuns
import Kubeka.Library.Scan
import Kubeka.Library.Store
import Kubeka.Library.Buffer
import Kubeka.Model.Symtab
import Kubeka.Model.Assign
import Kubeka.Model.Slots
import Kubeka.Model.Node
import Kubeka.Model.Instantiate
import Kubeka.Model.Eval
import Kubeka.Model.Run
import Kubeka.Model.Check
import Kubeka.Model.Lint
import Kubeka.Model.Options
import Kubeka.Model.Periodic
import Kubeka.Model.Read
import Kubeka.Model.Exec
import Kubeka.Model.Pipe
import Kubeka.Model.Processes
import Kubeka.Model.Threads
import Kubeka.Model.Heap
import Kubeka.Model.Daemon
import Kubeka.Model.Paths
import Kubeka.Eval.TemplateText
import Kubeka.Eval.Substitution
import Kubeka.Eval.Clean
import Kubeka.Eval.Shape
import Kubeka.Eval.Kept
import Kubeka.Eval.TemplateTree
import Kubeka.Eval.Expansion
import Kubeka.Eval.Termination
import Kubeka.Eval.Environment
import Kubeka.Run.Node
import Kubeka.Run.Trace
import Kubeka.Run.Plan
import Kubeka.Run.Jobs
import Kubeka.Run.Status
import Kubeka.Run.Rollback
import Kubeka.Run.FailedRollback
import Kubeka.Run.Schedule
import Kubeka.Run.Counter
import Kubeka.Run.WriteBack
import Kubeka.Run.Evaluated
import Kubeka.Run.Reach
import Kubeka.Run.Periods
import Kubeka.Exec.Cleanup
import Kubeka.Exec.Processes
import Kubeka.Exec.Result
import Kubeka.Exec.RunAs
import Kubeka.Exec.Threads
import Kubeka.Assign.Keys
import Kubeka.Assign.Values
import Kubeka.Assign.Calls
import Kubeka.Assign.Arrays
import Kubeka.Assign.Atomic
import Kubeka.Assign.Kept
import Kubeka.Assign.SetSingle
import Kubeka.Read.ReadOnly
import Kubeka.Read.Delivered
import Kubeka.Read.Lines
import Kubeka.Read.AssignmentLine
import Kubeka.Read.LastLine
import Kubeka.Read.Concat
import Kubeka.Assign.Format
import Kubeka.Read.Written
import Kubeka.Config.Depth
import Kubeka.Config.References
import Kubeka.Config.DependentJobs
import Kubeka.Config.Instances
import Kubeka.Config.Lint
import Kubeka.Config.Actions
import Kubeka.Config.Signals
import Kubeka.Config.Gate
import Kubeka.Config.Failures
import Kubeka.Config.Threads
import Kubeka.Config.Coalesce
import Kubeka.Config.Ways
import Kubeka.Config.Sound
import Kubeka.Config.Meaning
import Kubeka.Options.Long
import Kubeka.Options.Loops
import Kubeka.Options.Paths
import Kubeka.Options.Dialogue
import Kubeka.Options.Entry
import Kubeka.Options.Groups
import Kubeka.Options.Spellings
import Kubeka.Heap.Layout
import Kubeka.Heap.Delete
import Kubeka.Heap.Build
import Kubeka.Heap.Simulation
import Kubeka.Heap.Unfolding
import Kubeka.Heap.FailedChild
import Kubeka.Heap.Cycles
import Kubeka.Heap.Release
import Kubeka.Daemon.Steps
import Kubeka.Daemon.Alone
import Kubeka.Daemon.Shutdown
import Kubeka.Daemon.Release
import Kubeka.Daemon.Linted
import Kubeka.Daemon.Meaning
import Kubeka.Paths.Walk
import Kubeka.Paths.Twice
