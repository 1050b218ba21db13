import TracingHeap.Layout.Header
import TracingHeap.Space.Bump

/-! The objects of a space that is filled without gaps: each header says where the next one is. -/

set_option autoImplicit false

namespace TracingHeap.Memory

/-- The payloads from `block` on, after those found before it (last first). -/
def walkFrom (m : Memory) (stop : Nat) : (rounds block : Nat) → (found : List Nat) → Reading (List Nat)
  | rounds, block, found =>
    if stop ≤ block then .ok found.reverse
    else
      match rounds with
      | 0 => .error (.fault .endless)
      | rounds + 1 => do
        let header ← m.readHeader block
        walkFrom m stop rounds (block + header.footprint) (payloadOf block :: found)

/-- The payloads in the used part of a space, in the order of their addresses. -/
def walk (m : Memory) (s : Space) : Reading (List Nat) := m.walkFrom s.top s.cursor s.start []

end TracingHeap.Memory
