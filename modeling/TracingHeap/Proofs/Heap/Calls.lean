import TracingHeap.Heap.Allocation
import TracingHeap.Proofs.Computation

/-! What a program gets to see of its heap.

A program calls the heap and is told an answer or a failure each time. In between it looks at memory and writes to it as it
likes, so what it does next may depend on all that it has seen. -/

set_option autoImplicit false

namespace TracingHeap

-- A scope is a frame that is pushed, the calls of its body, and the frame popped. The counts of the collector are no
-- answer: they are what a program may not depend on.
/-- The calls of a program, each with the type of its answer. -/
inductive Call : Type → Type where
  | register (d : Descriptor) : Call TypeId
  | allocate (id : TypeId) (extra : Nat) : Call Nat
  | allocateArray (id : TypeId) (count : Nat) : Call Nat
  | collect : Call CollectionReport
  | verify : Call ConsistencyReport
  | census : Call Census
  | pushRoot : Call RootHandle
  | popRoot (handle : RootHandle) : Call Unit
  | addRoot (handle : RootHandle) (s : Slot) : Call Unit
  | addGlobal (s : Slot) : Call Unit
  | typeOf (obj : Nat) : Call TypeId
  | payloadSize (obj : Nat) : Call Nat
  | descriptor (obj : Nat) : Call Descriptor
  | contains (obj : Nat) : Call Bool
  | objectCount : Call Nat
  | liveBytes : Call Nat
  | availableBytes : Call Nat
  | poisoned : Call (Option HeapError)
  /-- Look at memory. -/
  | memory : Call Memory
  /-- Write whatever there is to write. -/
  | write (m : Memory) : Call Unit

namespace Call

def run : {α : Type} → Call α → HeapM α
  | _, register d => Heap.register d
  | _, allocate id extra => Heap.allocate id extra
  | _, allocateArray id count => Heap.allocateArray id count
  | _, collect => Heap.collect
  | _, verify => Heap.verify
  | _, census => Heap.census
  | _, pushRoot => Heap.pushRoot
  | _, popRoot handle => Heap.popRoot handle
  | _, addRoot handle s => Heap.addRoot handle s
  | _, addGlobal s => Heap.addGlobal s
  | _, typeOf obj => Heap.typeOf obj
  | _, payloadSize obj => Heap.payloadSize obj
  | _, descriptor obj => Heap.descriptor obj
  | _, contains obj => Heap.look fun h _ => .ok (h.contains obj)
  | _, objectCount => Heap.look fun h _ => .ok h.objectCount
  | _, liveBytes => Heap.look fun h _ => .ok h.liveBytes
  | _, availableBytes => Heap.look fun h _ => .ok h.availableBytes
  | _, poisoned => Heap.look fun h _ => .ok h.poisoned
  | _, memory => Heap.look fun _ m => .ok m
  | _, write m => modify fun w => { w with memory := m }

end Call

namespace World

/-- The outcomes of some calls, one after the other, each with the world that it leaves. -/
def trace : World → List (Σ α, Call α) → List ((Σ α, Except Failure α) × World)
  | _, [] => []
  | w, ⟨α, c⟩ :: rest => (⟨α, answer (c.run w)⟩, after (c.run w)) :: trace (after (c.run w)) rest

/-- The world that some calls lead to. -/
def following : World → List (Σ α, Call α) → World
  | w, [] => w
  | w, ⟨_, c⟩ :: rest => following (after (c.run w)) rest

end World

end TracingHeap
