import Std.Data.TreeSet
import TracingHeap.Collector.Report
import TracingHeap.Space.Walk

/-! Allocation without collection: the space fills up and nothing is given back. -/

set_option autoImplicit false

namespace TracingHeap

structure Leaky where
  space : Space
  /-- Payload addresses of all objects. -/
  held : Std.TreeSet Nat := ∅

namespace Leaky

def create (m : Memory) (heapSize : Nat) : Except HeapError (Leaky × Memory) :=
  match m.grant heapSize with
  | some (start, m) => .ok ({ space := ⟨start, heapSize, 0⟩ }, m)
  | none => .error (.outOfMemory .leaky heapSize 0)

def allocate (c : Leaky) (size : Nat) : Option (Nat × Leaky) :=
  (c.space.bump size).map fun (block, space) => (block, { space, held := c.held.insert (payloadOf block) })

/-- Everything counts as live. -/
def report (c : Leaky) : CollectionReport := { objectsLive := c.held.size, bytesLive := c.space.cursor }

def objects (c : Leaky) (m : Memory) : Reading (List Nat) := m.walk c.space

end Leaky

end TracingHeap
