import Std.Data.TreeSet
import TracingHeap.Layout.Trace

/-! Check of a whole heap: every held object is intact and unmarked, and every reference in an object
or a root slot is null or names a held object. -/

set_option autoImplicit false

namespace TracingHeap

structure ConsistencyReport where
  objects : Nat := 0
  bytes : Nat := 0
  /-- References that are not null. -/
  references : Nat := 0
  deriving DecidableEq, Repr

namespace ConsistencyReport

/-- Count a reference, unless it is null. -/
def addReference (held : Std.TreeSet Nat) (r : ConsistencyReport) (word : Nat) : Reading ConsistencyReport :=
  if word = 0 then .ok r
  else if held.contains word then .ok { r with references := r.references + 1 }
  else .error (.corrupted word .danglingReference)

def addObject (types : TypeTable) (held : Std.TreeSet Nat) (m : Memory) (r : ConsistencyReport) (obj : Nat) :
    Reading ConsistencyReport := do
  let (header, state) ← m.readObject obj
  if state ≠ .unmarked then throw (.corrupted obj (.badState header.state))
  let counted := { r with objects := r.objects + 1, bytes := r.bytes + header.footprint }
  let words ← types.tracedWords m obj
  words.foldlM (addReference held) counted

end ConsistencyReport

/-- The objects are checked in order, then the roots; the first defect is reported. -/
def TypeTable.verify (types : TypeTable) (roots : List Slot) (objects : List Nat) (m : Memory) :
    Reading ConsistencyReport := do
  let held := Std.TreeSet.ofList objects
  let inside ← objects.foldlM (ConsistencyReport.addObject types held m) {}
  roots.foldlM (fun r slot => do ConsistencyReport.addReference held r (← m.readSlot slot)) inside

end TracingHeap
