import TracingHeap.Heap.Collection

/-! Allocation.

A request is served after at most one collection. The first request for a registered type closes the
type table. -/

set_option autoImplicit false

namespace TracingHeap.Heap

/-- Ask the collector for a block. -/
def takeBlock (size : Nat) : HeapM (Option Nat) := fun ⟨heap, memory⟩ =>
  match heap.collector.allocate size with
  | some (block, collector) => .ok (some block) ⟨{ heap with collector }, memory⟩
  | none => .ok none ⟨heap, memory⟩

/-- There is no room for a request. -/
def refuse {α : Type} (requested : Nat) : HeapM α := do
  let heap := (← get).heap
  violate (.outOfMemory heap.strategy requested heap.availableBytes)

/-- A block for a request. If the collector did not ask for a collection beforehand, there is one
when no block is found. -/
def obtainBlock (size : Nat) : HeapM Nat := do
  let early := (← get).heap.collector.shouldCollect size
  if early then
    let _ ← runCollection
  match ← takeBlock size with
  | some block => return block
  | none =>
    if !early then
      let _ ← runCollection
    match ← takeBlock size with
    | some block => return block
    | none => refuse size

/-- The type of a request; an unknown one poisons the heap. -/
def requireType (id : TypeId) : HeapM Descriptor := do
  match (← get).heap.types.get id with
  | .ok d => return d
  | .error e => violate e

def closeTypes : HeapM Unit := modify fun w => { w with heap := { w.heap with types := w.heap.types.close } }

/-- A zeroed object of a type with `extra` bytes behind its fixed part. The size is computed with
saturation, so a request that is too large for a word is refused like any other. -/
def allocate (id : TypeId) (extra : Nat) : HeapM Nat := do
  checkPoisoned
  let d ← requireType id
  closeTypes
  let size := Word.saturate (d.fixedSize + extra)
  if size > largestPayload then refuse size
  let block ← obtainBlock (footprint size)
  access do
    Access.clear block (footprint size)
    Access.storeHeader block (Header.fresh id size)
  return payloadOf block

/-- An object with a region of `count` elements, and the count stored in it. -/
def allocateArray (id : TypeId) (count : Nat) : HeapM Nat := do
  let d ← requireType id
  match d.region with
  | none => throw (.violation (.invalidDescriptor d.name .noRegion))
  | some region =>
    let obj ← allocate id (Word.saturate (count * region.elementSize))
    access (Access.storeWord (slotAt obj region.countOffset) count)
    return obj

end TracingHeap.Heap
