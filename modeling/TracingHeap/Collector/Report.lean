/-! What one collection has done. -/

set_option autoImplicit false

namespace TracingHeap

structure CollectionReport where
  objectsReclaimed : Nat := 0
  bytesReclaimed : Nat := 0
  objectsRelocated : Nat := 0
  bytesRelocated : Nat := 0
  forwardingHeaders : Nat := 0
  objectsLive : Nat := 0
  bytesLive : Nat := 0
  deriving DecidableEq, Repr

end TracingHeap
