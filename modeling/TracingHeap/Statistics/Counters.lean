import TracingHeap.Collector.Report
import TracingHeap.Word

/-! Counts of allocations and collections, modulo 2^64. -/

set_option autoImplicit false

namespace TracingHeap

structure Counters where
  allocations : Nat := 0
  bytesAllocated : Nat := 0
  liveObjects : Nat := 0
  /-- The most objects that were live at any time. -/
  liveHighWater : Nat := 0
  collections : Nat := 0
  objectsReclaimed : Nat := 0
  bytesReclaimed : Nat := 0
  objectsRelocated : Nat := 0
  deriving DecidableEq, Repr

namespace Counters

def recordAllocation (c : Counters) (size : Nat) : Counters :=
  let live := Word.wrap (c.liveObjects + 1)
  { c with
    allocations := Word.wrap (c.allocations + 1)
    bytesAllocated := Word.wrap (c.bytesAllocated + size)
    liveObjects := live
    liveHighWater := max c.liveHighWater live }

def recordCollection (c : Counters) (r : CollectionReport) : Counters :=
  { c with
    collections := Word.wrap (c.collections + 1)
    objectsReclaimed := Word.wrap (c.objectsReclaimed + r.objectsReclaimed)
    bytesReclaimed := Word.wrap (c.bytesReclaimed + r.bytesReclaimed)
    objectsRelocated := Word.wrap (c.objectsRelocated + r.objectsRelocated)
    liveObjects := r.objectsLive }

end Counters

/-- Counters with the time that collections took, in nanoseconds. -/
structure Statistics where
  counters : Counters := {}
  totalPause : Nat := 0
  longestPause : Nat := 0
  deriving DecidableEq, Repr

namespace Statistics

def recordAllocation (s : Statistics) (size : Nat) : Statistics :=
  { s with counters := s.counters.recordAllocation size }

/-- Pauses are kept modulo 2^64 nanoseconds. -/
def recordCollection (s : Statistics) (r : CollectionReport) (pause : Nat) : Statistics where
  counters := s.counters.recordCollection r
  totalPause := Word.wrap (s.totalPause + Word.wrap pause)
  longestPause := max s.longestPause (Word.wrap pause)

def averagePause (s : Statistics) : Nat :=
  if s.counters.collections = 0 then 0 else s.totalPause / s.counters.collections

end Statistics

end TracingHeap
