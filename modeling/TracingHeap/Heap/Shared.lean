import TracingHeap.Heap.Basic

/-! The one heap that a whole process shares. -/

set_option autoImplicit false

namespace TracingHeap

/-- The place of the shared heap. -/
structure SharedHeap where
  heap : Option Heap := none

namespace SharedHeap

def isInstalled (s : SharedHeap) : Bool := s.heap.isSome

/-- Make a heap the shared one. If there is one already, the new heap is dropped. -/
def install (s : SharedHeap) (h : Heap) (m : Memory) : Except HeapError SharedHeap × Memory :=
  if s.isInstalled then (.error (.config .alreadyInstalled), h.release m)
  else (.ok ⟨some h⟩, m)

/-- Take the shared heap out of its place. -/
def uninstall (s : SharedHeap) : Option Heap × SharedHeap := (s.heap, ⟨none⟩)

end SharedHeap

end TracingHeap
