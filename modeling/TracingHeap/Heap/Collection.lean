import TracingHeap.Heap.Basic

/-! Collecting, checking and counting. -/

set_option autoImplicit false

namespace TracingHeap.Heap

/-- Check every held object and every root slot. -/
def verify : HeapM ConsistencyReport := look fun h m => do
  let objects ← h.collector.engine.objects m
  h.types.verify h.roots.slots objects m

/-- Count the objects that can be reached. -/
def census : HeapM Census := look fun h m => h.types.census h.roots.slots m

/-- Run the collector. -/
def runCollector : HeapM CollectionReport := fun ⟨heap, memory⟩ =>
  match Collector.collect heap.types heap.roots.slots (heap.collector, memory) with
  | .ok report (collector, memory) => .ok report ⟨{ heap with collector }, memory⟩
  | .error e (collector, memory) => .error e ⟨{ heap with collector }, memory⟩

/-- A collection, and the check after it if the configuration asks for one. -/
def runCollection : HeapM CollectionReport := do
  let report ← poisoning runCollector
  if (← get).heap.config.verifyHeap then
    let _ ← poisoning verify
  return report

def collect : HeapM CollectionReport := do
  checkPoisoned
  runCollection

end TracingHeap.Heap
