import Std.Data.TreeMap
import TracingHeap.Collector.Report
import TracingHeap.Layout.Trace
import TracingHeap.RootStack
import TracingHeap.Space.FreeList

/-! Collection without moving.

The collector keeps a record of every block it has handed out. A collection marks the headers of the
objects that can be reached, then gives back the blocks whose header is not marked and takes the
marks off the others. A reference is followed only if a record stands behind it. -/

set_option autoImplicit false

namespace TracingHeap

structure MarkSweep where
  start : Nat
  size : Nat
  free : FreeList
  /-- The size handed out for each block, by its address. -/
  records : Std.TreeMap Nat Nat := ∅

namespace MarkSweep

def create (m : Memory) (heapSize : Nat) : Except HeapError (MarkSweep × Memory) :=
  match m.grant heapSize with
  | some (start, m) => .ok ({ start, size := heapSize, free := FreeList.insert {} start heapSize }, m)
  | none => .error (.outOfMemory .markSweep heapSize 0)

/-- A block has been handed out for this payload address. -/
def owns (c : MarkSweep) (payload : Nat) : Bool := headerSize ≤ payload && c.records.contains (blockOf payload)

def allocate (c : MarkSweep) (size : Nat) : Option (Nat × MarkSweep) :=
  (c.free.take size).map fun (block, free) =>
    (block.start, { c with free, records := c.records.insert block.start block.size })

/-- The object has a record and is marked: nothing is left to do for it. -/
def isSettled (c : MarkSweep) (m : Memory) (payload : Nat) : Bool :=
  c.owns payload && (m.header (blockOf payload)).isIntact .marked

/-- Mark an object and list the references in it. An object that is marked already adds none. -/
def markObject (types : TypeTable) (c : MarkSweep) (payload : Nat) : Access (List Nat) := do
  if !c.owns payload then throw (.corrupted payload .danglingReference)
  let (header, state) ← Access.look fun m => m.readObject payload
  match state with
  | .marked => return []
  | .forwarded => throw (.corrupted payload (.badState header.state))
  | .unmarked =>
    Access.setState (blockOf payload) .marked
    let words ← Access.look fun m => types.tracedWords m payload
    return words.filter (· ≠ 0)

/-- Mark everything reachable from the references in `work`, last found first. Each round marks one
more of the recorded objects or fails, so one round more than there are records is enough. -/
def mark (types : TypeTable) (c : MarkSweep) : (rounds : Nat) → (work : List Nat) → Access Unit
  | 0, work => do
    if !work.all (c.isSettled (← get)) then throw (.fault .endless)
  | rounds + 1, work => do
    match work.dropWhile (c.isSettled (← get)) with
    | [] => return
    | payload :: rest =>
      let found ← c.markObject types payload
      mark types c rounds (found.reverse ++ rest)

/-- The outcome of looking at every record. -/
structure Survey where
  objectsLive : Nat := 0
  bytesLive : Nat := 0
  /-- Blocks to give back, the highest one first. -/
  dead : List Block := []

/-- Take the mark off one block, or note that it is dead. -/
def surveyBlock (s : Survey) (b : Block) : Access Survey := do
  let (header, state) ← Access.look fun m => m.readObject (payloadOf b.start)
  match state with
  | .marked =>
    Access.setState b.start .unmarked
    return { s with objectsLive := s.objectsLive + 1, bytesLive := s.bytesLive + b.size }
  | .unmarked => return { s with dead := b :: s.dead }
  | .forwarded => throw (.corrupted (payloadOf b.start) (.badState header.state))

def surveyBlocks (s : Survey) : List Block → Access Survey
  | [] => return s
  | b :: rest => do surveyBlocks (← surveyBlock s b) rest

/-- The recorded blocks in the order of their addresses. -/
def blocks (c : MarkSweep) : List Block := c.records.toList.map fun (start, size) => ⟨start, size⟩

/-- Zero a block and give it back. -/
def reclaim (c : MarkSweep) (b : Block) : Access MarkSweep := do
  Access.clear b.start b.size
  return { c with records := c.records.erase b.start, free := c.free.insert b.start b.size }

/-- The free list does not depend on the order in which blocks are given back. -/
def reclaimAll (c : MarkSweep) : List Block → Access MarkSweep
  | [] => return c
  | b :: rest => do reclaimAll (← c.reclaim b) rest

/-- No block is given back before all headers have been found in order. -/
def sweep (c : MarkSweep) : Access (MarkSweep × CollectionReport) := do
  let survey ← surveyBlocks {} c.blocks
  let dead := survey.dead
  let c ← c.reclaimAll dead
  return (c, {
    objectsReclaimed := dead.length
    bytesReclaimed := totalSize dead
    objectsLive := survey.objectsLive
    bytesLive := survey.bytesLive })

def collect (types : TypeTable) (roots : List Slot) (c : MarkSweep) : Access (MarkSweep × CollectionReport) := do
  let words ← Access.look fun m => roots.mapM m.readSlot
  c.mark types (c.records.size + 1) (words.filter (· ≠ 0)).reverse
  c.sweep

def liveBytes (c : MarkSweep) : Nat := c.size - c.free.freeBytes

def availableBytes (c : MarkSweep) : Nat := c.free.freeBytes

/-- The payloads of all recorded blocks in the order of their addresses. -/
def objects (c : MarkSweep) : List Nat := c.records.keys.map payloadOf

end MarkSweep

end TracingHeap
