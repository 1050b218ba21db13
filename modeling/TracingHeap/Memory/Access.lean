import TracingHeap.Error
import TracingHeap.Memory.Basic

/-! Checked access to memory.

A computation over memory ends with an answer or with a failure, and keeps what it has written in
both cases. A violation is something the heap reports. A fault is not: the computation left the
arenas and cells, or a walk did not advance, and nothing is promised after it. -/

set_option autoImplicit false

namespace TracingHeap

inductive Fault where
  /-- An access outside every arena. -/
  | stray (address : Nat)
  /-- An access to a cell that does not exist. -/
  | strayCell (index : Nat)
  /-- A loop that has used up the steps it can need. -/
  | endless
  deriving DecidableEq, Repr

inductive Failure where
  | violation (error : HeapError)
  | fault (fault : Fault)
  deriving DecidableEq, Repr

abbrev Failure.corrupted (address : Nat) (corruption : Corruption) : Failure :=
  .violation (.corrupted address corruption)

/-- What is read from a memory. -/
abbrev Reading (α : Type) := Except Failure α

/-- A computation that may change memory. -/
abbrev Access (α : Type) := EStateM Failure Memory α

def Slot.fault : Slot → Fault
  | .cell i => .strayCell i
  | .field a => .stray a

namespace Memory

def readWord (m : Memory) (a : Nat) : Reading Nat :=
  if m.holds a wordSize then .ok (m.word a) else .error (.fault (.stray a))

def readSlot (m : Memory) (s : Slot) : Reading Nat :=
  if m.holdsSlot s then .ok (m.slot s) else .error (.fault s.fault)

end Memory

namespace Access

variable {α : Type}

/-- Look at memory without changing it. -/
@[inline] def look (f : Memory → Reading α) : Access α := fun m =>
  match f m with
  | .ok a => .ok a m
  | .error e => .error e m

/-- Change memory where the `n` bytes from `a` on lie in one arena. -/
@[inline] def guarded (a n : Nat) (f : Memory → Memory) : Access Unit := fun m =>
  if m.holds a n then .ok () (f m) else .error (.fault (.stray a)) m

def loadWord (a : Nat) : Access Nat := look fun m => m.readWord a

def storeWord (a v : Nat) : Access Unit := guarded a wordSize fun m => m.setWord a v

def clear (a n : Nat) : Access Unit := guarded a n fun m => m.clear a n

def store (a : Nat) (source : ByteArray) : Access Unit := guarded a source.size fun m => m.store a source

def load (a n : Nat) : Access ByteArray := look fun m =>
  if m.holds a n then .ok (m.load a n) else .error (.fault (.stray a))

def loadSlot (s : Slot) : Access Nat := look fun m => m.readSlot s

def storeSlot (s : Slot) (v : Nat) : Access Unit := fun m =>
  if m.holdsSlot s then .ok () (m.setSlot s v) else .error (.fault s.fault) m

end Access

/-- Turn a failure into a value, keeping what has been done. -/
@[inline] def attempt {σ α : Type} (act : EStateM Failure σ α) : EStateM Failure σ (Except Failure α) := fun s =>
  match act s with
  | .ok a s => .ok (.ok a) s
  | .error e s => .ok (.error e) s

end TracingHeap
