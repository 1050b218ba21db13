import TracingHeap.Heap.Shared
import TracingHeap.Heap.Shutdown
import TracingHeap.Library.Sequence
import TracingHeap.Library.Text
import TracingHeap.Proofs.Copying.Damage
import TracingHeap.Proofs.Copying.Layout
import TracingHeap.Proofs.Heap.Checked
import TracingHeap.Proofs.Heap.Dangling
import TracingHeap.Proofs.Heap.NewObjects
import TracingHeap.Proofs.Heap.Poison
import TracingHeap.Proofs.Heap.Registries
import TracingHeap.Proofs.MarkSweep.Room
import TracingHeap.Proofs.Program.Exhaustion
import TracingHeap.Reference
import TracingHeap.Statistics.Text
import TracingHeap.Proofs.Heap.Charts
import TracingHeap.Proofs.Heap.Tending
import TracingHeap.Proofs.Heap.Views
import TracingHeap.Proofs.Heap.Failure
import TracingHeap.Proofs.Heap.Modes
import TracingHeap.Proofs.Statistics.Engines
import TracingHeap.Proofs.Statistics.Chronicle
import TracingHeap.Proofs.Statistics.Conservation
import TracingHeap.Proofs.Heap.Unused
import TracingHeap.Proofs.RootDiscipline
import TracingHeap.Proofs.Space.Canonical
import TracingHeap.Proofs.Space.FirstFit
import TracingHeap.Proofs.Layout.Tracing
import TracingHeap.Proofs.Heap.Ending
import TracingHeap.Proofs.Heap.Arrays
import TracingHeap.Proofs.Library.Runs
import TracingHeap.Proofs.Collector.Policy
import TracingHeap.Proofs.Heap.Triggering
import TracingHeap.Proofs.Statistics.Stress
import TracingHeap.Proofs.Copying.Accounts
import TracingHeap.Proofs.Copying.Forwarding
import TracingHeap.Proofs.Layout.Acceptance
import TracingHeap.Proofs.RootFrames
import TracingHeap.Proofs.Heap.TypeHistory
import TracingHeap.Proofs.Heap.Scopes
import TracingHeap.Proofs.Config.Environment
import TracingHeap.Proofs.Layout.HeaderUpdates
import TracingHeap.Proofs.Loops
import TracingHeap.Proofs.Heap.Termination
