import TracingHeap.Library.Types

/-! Byte strings on the heap. -/

set_option autoImplicit false

namespace TracingHeap.Library

/-- A string object with the UTF-8 bytes of a text. -/
def allocStr (lib : Library) (text : String) : HeapM Nat := do
  let bytes := text.toUTF8
  let obj ← Heap.allocateArray lib.str bytes.size
  Heap.access (Access.store (slotAt obj wordSize) bytes)
  return obj

/-- The bytes of a string object, as many as its length says. -/
def strBytes (obj : Nat) : Access ByteArray := do
  let length ← Access.loadWord obj
  Access.load (slotAt obj wordSize) length

end TracingHeap.Library
