import SsdScheduler.Framework.Machine
import SsdScheduler.Framework.RoundRobin
import SsdScheduler.Framework.PointerHeap
import SsdScheduler.BlockLayer
import SsdScheduler.Sfq.Data
import SsdScheduler.Sfq.CoreQueues
import SsdScheduler.Sfq.CoreStep
import SsdScheduler.Sfq.Cursor
import SsdScheduler.Beta.Iosched12
import SsdScheduler.Beta.Dispatch
import SsdScheduler.Beta.Runs
import SsdScheduler.Beta.Conservation
import SsdScheduler.Beta.Fairness
import SsdScheduler.Beta.Progress
import SsdScheduler.Sfq.PlainPath
import SsdScheduler.Write.LockStep
import SsdScheduler.Theta.Cursor
import SsdScheduler.Theta.Runs
import SsdScheduler.Theta.Visits
import SsdScheduler.Alpha.HeapArray
import SsdScheduler.Alpha.HeapRuns
import SsdScheduler.Alpha.Sched9
import SsdScheduler.Alpha.SfqNoop
import SsdScheduler.Alpha.Homing
import SsdScheduler.Alpha.Displaced
import SsdScheduler.Beta.Lifetimes
import SsdScheduler.Beta.Tags
import SsdScheduler.Beta.Overflow
import SsdScheduler.Beta.Wakeup
import SsdScheduler.Beta.DepthLimit
import SsdScheduler.Beta.Starvation
import SsdScheduler.Theta.Sfq3
import SsdScheduler.Theta.Wakeups
import SsdScheduler.Alpha.Gated
import SsdScheduler.Alpha.Sched15
import SsdScheduler.Alpha.Shed16
import SsdScheduler.Alpha.Standstill
import SsdScheduler.Alpha.Links
import SsdScheduler.Alpha.ArrivalOrder
import SsdScheduler.Alpha.TagBounds
import SsdScheduler.Beta.FailedAllocations
import SsdScheduler.Deadline.DeadlineExample
import SsdScheduler.Deadline.Pending
import SsdScheduler.Deadline.Starvation
import SsdScheduler.Deadline.Draining
import SsdScheduler.ArrayHeap.Maximum
import SsdScheduler.ArrayHeap.BulkBuild
import SsdScheduler.LinkedHeap.MinHeap
import SsdScheduler.LinkedHeap.Passes
import SsdScheduler.LinkedHeap.Shape
import SsdScheduler.LinkedHeap.CompleteTree
import SsdScheduler.LinkedHeap.ZeroHeap
import SsdScheduler.LinkedHeap.Sorting
import SsdScheduler.SearchTree.BinaryTree
import SsdScheduler.SearchTree.Spine
import SsdScheduler.SearchTree.Insertions
import SsdScheduler.Framework.TailInsert
import SsdScheduler.Elevator.RequestQueue
import SsdScheduler.Elevator.MergeHash
import SsdScheduler.Elevator.Stack
import SsdScheduler.Elevator.Protocol
import SsdScheduler.Elevator.Placement
import SsdScheduler.Elevator.Moves
import SsdScheduler.Elevator.Merging
import SsdScheduler.Elevator.Steps
import SsdScheduler.Elevator.Noop
import SsdScheduler.Elevator.Accounting
import SsdScheduler.Framework.Ledger
import SsdScheduler.Elevator.Sectors
import SsdScheduler.Elevator.DispatchOrder
import SsdScheduler.Elevator.Draining
import SsdScheduler.Elevator.Barriers
import SsdScheduler.Elevator.FairQueueing
import SsdScheduler.Elevator.Registry
import SsdScheduler.Elevator.QueueSteps
import SsdScheduler.Elevator.References
import SsdScheduler.Elevator.Switching
import SsdScheduler.Framework.Rotations
import SsdScheduler.Elevator.RequestTree
import SsdScheduler.Deadline.Trees
import SsdScheduler.Congestion.DepthGate
import SsdScheduler.Congestion.CachePool
import SsdScheduler.Congestion.Wakeups
