import TracingHeap.Heap.Collection

/-! The end of a heap: a last collection and a count of what can still be reached. -/

set_option autoImplicit false

namespace TracingHeap

structure ShutdownReport where
  collector : Strategy
  /-- What the global slots still reach. -/
  surviving : Census
  /-- Objects that the last collection gave back. -/
  reclaimed : Nat
  counters : Option Counters
  deriving DecidableEq, Repr

/-- Nothing could be reached any more. -/
def ShutdownReport.isClean (r : ShutdownReport) : Bool := r.surviving.objects = 0

namespace Heap

/-- The last collection and the leak check. All frames have to be popped before. -/
def finish : HeapM ShutdownReport := do
  checkPoisoned
  let depth := (← get).heap.roots.depth
  if depth ≠ 0 then throw (.violation (.rootDiscipline (.unbalanced depth)))
  let collection ← runCollection
  let surviving ← census
  let heap := (← get).heap
  let report : ShutdownReport := {
    collector := heap.strategy
    surviving
    reclaimed := collection.objectsReclaimed
    counters := heap.counters? }
  if !report.isClean && !heap.config.leakTolerant then
    throw (.violation (.leakDetected surviving.objects surviving.bytes))
  return report

/-- End a heap. Its arenas are given back whatever the outcome. -/
def shutdown (h : Heap) (m : Memory) : Except Failure ShutdownReport × Memory :=
  match finish ⟨h, m⟩ with
  | .ok report w => (.ok report, w.heap.release w.memory)
  | .error e w => (.error e, w.heap.release w.memory)

end Heap

end TracingHeap
