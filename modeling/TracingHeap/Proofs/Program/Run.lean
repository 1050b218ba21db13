import TracingHeap.Heap.Allocation
import TracingHeap.Proofs.Program.Store

/-! Programs on a heap.

A command works on the cells outside the arenas, and on the words of the objects that they refer to. -/

set_option autoImplicit false

namespace TracingHeap

open Heap

namespace Command

/-- What a command observes on a heap. -/
def run : Command → HeapM Observation
  | register d _ => do
    match ← attempt (Heap.register d) with
    | .ok id => return .registered (some id)
    | .error _ => return .registered none
  | pushRoot => return .handle (← Heap.pushRoot)
  | popRoot handle => do
    Heap.popRoot handle
    return .done
  | addRoot handle x => do
    Heap.addRoot handle (.cell x)
    return .done
  | addGlobal x => do
    Heap.addGlobal (.cell x)
    return .done
  | allocate id extra x => do
    let obj ← Heap.allocate id extra
    access (Access.storeSlot (.cell x) obj)
    return .done
  | allocateArray id count x => do
    let obj ← Heap.allocateArray id count
    access (Access.storeSlot (.cell x) obj)
    return .done
  | collect => do
    let _ ← Heap.collect
    return .done
  | copy x y => do
    let word ← access (Access.loadSlot (.cell x))
    access (Access.storeSlot (.cell y) word)
    return .done
  | clear x => do
    access (Access.storeSlot (.cell x) 0)
    return .done
  | load x offset y => do
    let obj ← access (Access.loadSlot (.cell x))
    let word ← access (Access.loadWord (slotAt obj offset))
    access (Access.storeSlot (.cell y) word)
    return .done
  | store x offset y => do
    let obj ← access (Access.loadSlot (.cell x))
    let word ← access (Access.loadSlot (.cell y))
    access (Access.storeWord (slotAt obj offset) word)
    return .done
  | read x offset => do
    let obj ← access (Access.loadSlot (.cell x))
    return .number (← access (Access.loadWord (slotAt obj offset)))
  | write x offset n => do
    let obj ← access (Access.loadSlot (.cell x))
    access (Access.storeWord (slotAt obj offset) n)
    return .done
  | isNull x => return .answer ((← access (Access.loadSlot (.cell x))) = 0)
  | same x y => do
    let first ← access (Access.loadSlot (.cell x))
    let second ← access (Access.loadSlot (.cell y))
    return .answer (first = second)
  | typeOf x => return .type (← Heap.typeOf (← access (Access.loadSlot (.cell x))))
  | payloadSize x => return .number (← Heap.payloadSize (← access (Access.loadSlot (.cell x))))

end Command

/-- What a program observes on a heap, and the failure that ends it if there is one. -/
def Program.observe : Program → World → List Observation × Option Failure
  | done, _ => ([], none)
  | step c next, w =>
    match c.run w with
    | .ok seen w' => ((next seen).observe w').map (seen :: ·) id
    | .error e _ => ([], some e)

-- The refused command itself is not observed, hence a prefix.
/-- A program observes on a heap what it is meant to, until it runs out of memory. -/
def Agrees (meant : List Observation) (run : List Observation × Option Failure) : Prop :=
  run = (meant, none) ∨ ∃ seen strategy requested free, seen <+: meant ∧
    run = (seen, some (.violation (.outOfMemory strategy requested free)))

end TracingHeap
