import TracingHeap.Library.Types

/-! Growing lists of references.

An allocation may move every object. So a list and the value to be added are named by root slots, and
are read again after each allocation. -/

set_option autoImplicit false

namespace TracingHeap

/-- Run an action with a variable of its own outside the arenas. -/
def Heap.withVariable {α : Type} (word : Nat) (body : Slot → HeapM α) : HeapM α := do
  let index := (← get).memory.cells.size
  modify fun w => { w with memory := { w.memory with cells := w.memory.cells.push word } }
  let outcome ← attempt (body (.cell index))
  modify fun w => { w with memory := { w.memory with cells := w.memory.cells.pop } }
  match outcome with
  | .ok a => return a
  | .error e => throw e

namespace Library

def allocSlab (lib : Library) (count : Nat) : HeapM Nat := Heap.allocateArray lib.slab count

/-- A word that has to be a reference. -/
def live (word : Nat) : Access Nat := do
  if word = 0 then throw (.corrupted 0 .danglingReference)
  return word

/-- The object that a slot refers to. -/
def liveAt (s : Slot) : Access Nat := do live (← Access.loadSlot s)

/-- An empty list with room for `capacity` references. -/
def allocList (lib : Library) (capacity : Nat) : HeapM Nat :=
  Heap.inScope fun frame => do
    let list ← Heap.allocate lib.list 0
    Heap.withVariable list fun own => do
      Heap.addRoot frame own
      let slab ← lib.allocSlab capacity
      Heap.access do
        let list ← liveAt own
        Access.storeWord (slotAt list wordSize) slab
        return list

def listLength (list : Nat) : Access Nat := Access.loadWord list

/-- The address of an element of a slab. -/
def elementAt (slab index : Nat) : Nat := slotAt slab (wordSize + index * wordSize)

/-- An element of a list. Outside the list, and where nothing is stored, there is none. -/
def listGet (list index : Nat) : Access (Option Nat) := do
  if (← listLength list) ≤ index then return none
  let slab ← Access.loadWord (slotAt list wordSize)
  if slab = 0 then return none
  let word ← Access.loadWord (elementAt slab index)
  return if word = 0 then none else some word

/-- Copy the first `count` elements of a slab, from `index` on. -/
def copyElements (source target : Nat) : (index count : Nat) → Access Unit
  | _, 0 => return
  | index, count + 1 => do
    Access.storeWord (elementAt target index) (← Access.loadWord (elementAt source index))
    copyElements source target (index + 1) count

/-- The size of the slab of a list; zero if it has none. -/
def listCapacity (list : Nat) : Access Nat := do
  let slab ← Access.loadWord (slotAt list wordSize)
  if slab = 0 then return 0 else Access.loadWord slab

/-- Give a list a larger slab with the same `length` elements. -/
def growList (lib : Library) (list : Slot) (length capacity : Nat) : HeapM Unit := do
  let grown ← lib.allocSlab (max (Word.wrap (2 * capacity)) 4)
  Heap.access do
    let current ← liveAt list
    let old ← Access.loadWord (slotAt current wordSize)
    if old ≠ 0 then copyElements old grown 0 length
    Access.storeWord (slotAt current wordSize) grown

/-- Add the reference in `value` to the end of the list in `list`. -/
def listPush (lib : Library) (list value : Slot) : HeapM Unit := do
  let (length, capacity) ← Heap.access do
    let current ← liveAt list
    return (← listLength current, ← listCapacity current)
  if length = capacity then lib.growList list length capacity
  Heap.access do
    let current ← liveAt list
    let slab ← live (← Access.loadWord (slotAt current wordSize))
    Access.storeWord (elementAt slab length) (← Access.loadSlot value)
    Access.storeWord current (Word.wrap (length + 1))

end Library

end TracingHeap
