import TracingHeap.Heap.Allocation

/-! The types that every program starts from: byte strings, slabs of references, and lists.

A string is its length and its bytes. A slab is its size and its references. A list is its length and
a slab, of which the first elements are in use. -/

set_option autoImplicit false

namespace TracingHeap

/-- The numbers under which the library types are registered. -/
structure Library where
  str : TypeId
  slab : TypeId
  list : TypeId
  deriving DecidableEq, Repr

namespace Library

def strType : Descriptor where
  name := "Str"
  fixedSize := wordSize
  fields := [⟨0, .scalar⟩]
  region := some (Region.scalars 0 1)

def slabType : Descriptor where
  name := "Slab"
  fixedSize := wordSize
  fields := [⟨0, .scalar⟩]
  region := some (Region.references 0)

/-- The length, and the slab behind it. -/
def listType : Descriptor where
  name := "List"
  fixedSize := 2 * wordSize
  fields := [⟨0, .scalar⟩, ⟨wordSize, .traced⟩]
  region := none

/-- Register the three types in a fixed order. The ones before a refused one stay registered. -/
def register : HeapM Library := do
  let str ← Heap.register strType
  let slab ← Heap.register slabType
  let list ← Heap.register listType
  return { str, slab, list }

theorem strType_check : strType.check = .ok () := rfl

theorem slabType_check : slabType.check = .ok () := rfl

theorem listType_check : listType.check = .ok () := rfl

end Library

end TracingHeap
