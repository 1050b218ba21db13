import Std.Data.TreeSet
import TracingHeap.Layout.Trace

/-! The objects that can be reached from the roots. -/

set_option autoImplicit false

namespace TracingHeap

structure Census where
  objects : Nat := 0
  bytes : Nat := 0
  deriving DecidableEq, Repr

/-- Nothing is left to do for a null word or an object that has been counted. -/
def Census.isSettled (seen : Std.TreeSet Nat) (word : Nat) : Bool := word = 0 || seen.contains word

/-- Count what is reachable from `work`, last found first. Each round counts one more address inside
the arenas, so their size bounds the rounds. -/
def Census.countFrom (types : TypeTable) (m : Memory) :
    (rounds : Nat) → (work : List Nat) → (seen : Std.TreeSet Nat) → (counted : Census) → Reading Census
  | 0, work, seen, counted => if work.all (isSettled seen) then .ok counted else .error (.fault .endless)
  | rounds + 1, work, seen, counted =>
    match work.dropWhile (isSettled seen) with
    | [] => .ok counted
    | obj :: rest => do
      let (header, _) ← m.readObject obj
      let words ← types.tracedWords m obj
      countFrom types m rounds (words.reverse ++ rest) (seen.insert obj)
        ⟨counted.objects + 1, counted.bytes + header.footprint⟩

/-- Count the reachable objects once each, whether or not a collector holds them. -/
def TypeTable.census (types : TypeTable) (roots : List Slot) (m : Memory) : Reading Census := do
  let words ← roots.mapM m.readSlot
  Census.countFrom types m m.capacity words.reverse ∅ {}

end TracingHeap
