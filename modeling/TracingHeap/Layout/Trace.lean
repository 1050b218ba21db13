import TracingHeap.Layout.Header
import TracingHeap.Layout.TypeTable

/-! The traced slots of an object: its traced fields in the order of declaration, then the elements
of a region of references in order. -/

set_option autoImplicit false

namespace TracingHeap

/-- The address of a word inside an object. -/
def slotAt (obj offset : Nat) : Nat := Word.wrap (obj + offset)

namespace Descriptor

def fieldSlots (d : Descriptor) (obj : Nat) : List Nat := d.tracedOffsets.map (slotAt obj)

/-- The slot of one element of a region of references. -/
def elementSlot (d : Descriptor) (obj index : Nat) : Nat := slotAt obj (d.fixedSize + index * wordSize)

def elementSlots (d : Descriptor) (obj count : Nat) : List Nat := (List.range count).map (d.elementSlot obj)

/-- The elements that fit into a payload. -/
def capacity (d : Descriptor) (region : Region) (size : Nat) : Nat := (size - d.fixedSize) / region.elementSize

/-- The number of traced elements of an object with `size` payload bytes. The count word may not
exceed the capacity, whatever the elements are. -/
def tracedCount (d : Descriptor) (m : Memory) (obj size : Nat) : Reading Nat :=
  match d.region with
  | none => .ok 0
  | some region => do
    let count ← m.readWord (slotAt obj region.countOffset)
    let capacity := d.capacity region size
    if count > capacity then throw (.corrupted obj (.regionOverflow count capacity))
    match region.kind with
    | .traced => return count
    | .scalar => return 0

end Descriptor

namespace TypeTable

/-- The header and the type of an object that may be traced: one that is intact, has not moved and
has a registered type. -/
def shape (types : TypeTable) (m : Memory) (obj : Nat) : Reading (Header × Descriptor) := do
  let (header, state) ← m.readObject obj
  if state = .forwarded then throw (.corrupted obj (.badState header.state))
  match types.get header.typeId with
  | .ok d => return (header, d)
  | .error e => throw (.violation e)

/-- All traced slots of an object. -/
def tracedSlots (types : TypeTable) (m : Memory) (obj : Nat) : Reading (List Nat) := do
  let (header, d) ← types.shape m obj
  let count ← d.tracedCount m obj header.size
  return d.fieldSlots obj ++ d.elementSlots obj count

/-- The words in the traced slots of an object. -/
def tracedWords (types : TypeTable) (m : Memory) (obj : Nat) : Reading (List Nat) := do
  let slots ← types.tracedSlots m obj
  slots.mapM m.readWord

end TypeTable

end TracingHeap
