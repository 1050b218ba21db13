import Std.Data.TreeSet
import TracingHeap.Collector.Report
import TracingHeap.Layout.Trace
import TracingHeap.RootStack
import TracingHeap.Space.Walk

/-! Collection by moving.

Every object that can be reached is copied to the reserve space, the roots first and then, object by
object, what the copies refer to. The old header names the new place, so a second reference finds
the copy that the first one made. When all copies have been looked through, the spaces change places.

A reference is followed only if it is the payload address of a resident object. -/

set_option autoImplicit false

namespace TracingHeap

/-- The state of a running collection. -/
structure Evacuation where
  memory : Memory
  /-- Where the copies go. -/
  reserve : Space
  /-- Payload addresses of the copies. -/
  copies : Std.TreeSet Nat := ∅
  /-- Old payload addresses of what has been copied. -/
  forwarded : Std.TreeSet Nat := ∅
  objectsMoved : Nat := 0
  bytesMoved : Nat := 0

abbrev Evacuate (α : Type) := EStateM Failure Evacuation α

namespace Evacuate

variable {α : Type}

@[inline] def look (f : Memory → Reading α) : Evacuate α := fun e =>
  match f e.memory with
  | .ok a => .ok a e
  | .error x => .error x e

/-- Run an access on the memory of the collection. -/
@[inline] def access (act : Access α) : Evacuate α := fun ⟨memory, reserve, copies, forwarded, objects, bytes⟩ =>
  match act memory with
  | .ok a memory => .ok a ⟨memory, reserve, copies, forwarded, objects, bytes⟩
  | .error x memory => .error x ⟨memory, reserve, copies, forwarded, objects, bytes⟩

/-- Room for a copy in the reserve. -/
def allot (size : Nat) : Evacuate Nat := fun e =>
  match e.reserve.bump size with
  | some (block, reserve) => .ok block { e with reserve }
  | none => .error (.violation (.outOfMemory .copying size 0)) e

/-- Note that an object is about to be copied. It may not have been copied before. -/
def noteDeparture (payload : Nat) : Evacuate Unit := fun e =>
  if e.forwarded.contains payload then .error (.corrupted payload .doubleForward) e
  else .ok () { e with forwarded := e.forwarded.insert payload }

def noteCopy (payload size : Nat) : Evacuate Unit := modify fun e =>
  { e with
    copies := e.copies.insert payload
    objectsMoved := e.objectsMoved + 1
    bytesMoved := e.bytesMoved + size }

/-- Copy an object to the reserve and leave a forwarding header behind. -/
def evacuate (payload : Nat) (header : Header) : Evacuate Nat := do
  noteDeparture payload
  let size := header.footprint
  let block ← allot size
  access do
    let source ← Access.load (blockOf payload) size
    Access.store block source
    Access.forwardTo (blockOf payload) (payloadOf block)
  noteCopy (payloadOf block) size
  return payloadOf block

/-- The new place of an object, which is copied if it has none yet. A forwarding target counts only
if it is one of the copies. -/
def destination (resident : Std.TreeSet Nat) (payload : Nat) : Evacuate Nat := do
  if !resident.contains payload then throw (.corrupted payload .danglingReference)
  let (header, state) ← look fun m => m.readObject payload
  match state with
  | .unmarked => evacuate payload header
  | .forwarded =>
    let e ← get
    if e.reserve.contains header.forward && e.copies.contains header.forward then return header.forward
    throw (.corrupted payload (.danglingForward header.forward))
  | .marked => throw (.corrupted payload (.badState header.state))

/-- Let a slot refer to the new place of its object. -/
def forwardSlot (resident : Std.TreeSet Nat) (slot : Slot) : Evacuate Unit := do
  let word ← look fun m => m.readSlot slot
  if word ≠ 0 then
    let target ← destination resident word
    access (Access.storeSlot slot target)

def forwardSlots (resident : Std.TreeSet Nat) : List Slot → Evacuate Unit
  | [] => return
  | slot :: rest => do
    forwardSlot resident slot
    forwardSlots resident rest

/-- Forward the elements of a region: `count` of them, from `index` on. -/
def forwardElements (resident : Std.TreeSet Nat) (d : Descriptor) (payload : Nat) : (index count : Nat) → Evacuate Unit
  | _, 0 => return
  | index, count + 1 => do
    forwardSlot resident (.field (d.elementSlot payload index))
    forwardElements resident d payload (index + 1) count

/-- Forward the slots of a copy. Where sizes are damaged, what a field refers to may be copied over the
object itself, so the size and the count of a region are read after the fields have been forwarded. A
wrong count is reported before anything that was wrong with a field. -/
def scanObject (types : TypeTable) (resident : Std.TreeSet Nat) (payload : Nat) : Evacuate Unit := do
  let (_, d) ← look fun m => types.shape m payload
  let fields ← attempt (forwardSlots resident ((d.fieldSlots payload).map .field))
  let count ← look fun m => do d.tracedCount m payload (← m.readHeader (blockOf payload)).size
  match fields with
  | .error e => throw e
  | .ok () => forwardElements resident d payload 0 count

/-- Look through the copies until there are no more. A copy takes at least one byte of the reserve,
so its size bounds the rounds. -/
def scan (types : TypeTable) (resident : Std.TreeSet Nat) : (rounds block : Nat) → Evacuate Unit
  | rounds, block => do
    if (← get).reserve.top ≤ block then return
    match rounds with
    | 0 => throw (.fault .endless)
    | rounds + 1 =>
      let header ← look fun m => m.readHeader block
      scanObject types resident (payloadOf block)
      scan types resident rounds (block + header.footprint)

end Evacuate

structure Copying where
  spaces : SpacePair
  /-- Payload addresses of the objects in the active space. -/
  resident : Std.TreeSet Nat := ∅
  /-- Objects copied, or about to be, by the last collection. -/
  evacuated : Nat := 0

namespace Copying

/-- Each space is half of the heap. -/
def create (m : Memory) (heapSize : Nat) : Except HeapError (Copying × Memory) :=
  match SpacePair.grant m (Word.floor (heapSize / 2)) with
  | some (spaces, m) => .ok ({ spaces }, m)
  | none => .error (.outOfMemory .copying heapSize 0)

def owns (c : Copying) (payload : Nat) : Bool :=
  c.spaces.active.contains payload && c.resident.contains payload

def allocate (c : Copying) (size : Nat) : Option (Nat × Copying) :=
  (c.spaces.active.bump size).map fun (block, active) =>
    (block, { c with
      spaces := { c.spaces with active }
      resident := c.resident.insert (payloadOf block) })

/-- Copy all that can be reached. A slot that is registered more than once is visited once. -/
def evacuateAll (types : TypeTable) (roots : List Slot) (resident : Std.TreeSet Nat) : Evacuate Unit := do
  Evacuate.forwardSlots resident (distinctSlots roots)
  let reserve := (← get).reserve
  Evacuate.scan types resident reserve.size reserve.start

/-- What a collection that failed leaves behind: copies stay in the reserve and the old objects stay
forwarded. -/
def afterFailure (c : Copying) (e : Evacuation) : Copying :=
  { c with spaces := { c.spaces with reserve := e.reserve }, evacuated := e.forwarded.size }

/-- The copies become the residents of the active space. -/
def afterSuccess (c : Copying) (e : Evacuation) : Copying × Memory :=
  let (spaces, memory) := { c.spaces with reserve := e.reserve }.flip e.memory
  ({ spaces, resident := e.copies, evacuated := e.forwarded.size }, memory)

def collect (types : TypeTable) (roots : List Slot) (c : Copying) (memory : Memory) :
    EStateM.Result Failure (Copying × Memory) CollectionReport :=
  match evacuateAll types roots c.resident { memory, reserve := c.spaces.reserve } with
  | .error x e => .error x (c.afterFailure e, e.memory)
  | .ok () e =>
    let objects := e.objectsMoved
    let bytes := e.bytesMoved
    let (after, memory) := c.afterSuccess e
    let objectsLive := after.resident.size
    let bytesLive := after.spaces.active.cursor
    .ok {
      objectsReclaimed := c.resident.size - objectsLive
      bytesReclaimed := c.spaces.active.cursor - bytesLive
      objectsRelocated := objects
      bytesRelocated := bytes
      forwardingHeaders := objects
      objectsLive
      bytesLive } (after, memory)

def liveBytes (c : Copying) : Nat := c.spaces.active.cursor

def availableBytes (c : Copying) : Nat := c.spaces.active.free

/-- The payloads in the active space, found by walking over it. -/
def objects (c : Copying) (m : Memory) : Reading (List Nat) := m.walk c.spaces.active

end Copying

end TracingHeap
