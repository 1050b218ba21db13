import TracingHeap.Audit.Census
import TracingHeap.Audit.Consistency
import TracingHeap.Collector.Basic
import TracingHeap.Config.Environment

/-! A heap: types, roots and a collector under one configuration.

The first violation that a heap observes poisons it. From then on it allocates and collects nothing,
and answers with that violation. Violations of the type table alone do not poison. -/

set_option autoImplicit false

namespace TracingHeap

structure Heap where
  config : Config
  types : TypeTable := {}
  roots : RootStack := {}
  collector : Collector
  /-- The first violation. -/
  poisoned : Option HeapError := none

/-- A heap and the memory it lives in. -/
structure World where
  heap : Heap
  memory : Memory

/-- A computation of a program on its heap. -/
abbrev HeapM (α : Type) := EStateM Failure World α

namespace Heap

variable {α : Type}

/-- A heap with arenas of its own. -/
def create (config : Config) (m : Memory) : Except HeapError (Heap × Memory) :=
  match config.check with
  | .error e => .error (.config e)
  | .ok () => (Collector.create config m).map fun (collector, m) => ({ config, collector }, m)

/-- A heap configured from named settings. -/
def ofLookup (lookup : String → Option String) (m : Memory) : Except HeapError (Heap × Memory) :=
  match Config.ofLookup lookup with
  | .error e => .error (.config e)
  | .ok config => create config m

/-- Give all arenas back. -/
def release (h : Heap) (m : Memory) : Memory := h.collector.engine.arenas.foldl Memory.release m

def poison (h : Heap) (e : HeapError) : Heap := { h with poisoned := h.poisoned <|> some e }

/-- Run an access on the memory. -/
@[inline] def access (act : Access α) : HeapM α := fun ⟨heap, memory⟩ =>
  match act memory with
  | .ok a memory => .ok a ⟨heap, memory⟩
  | .error e memory => .error e ⟨heap, memory⟩

/-- Look at the heap and its memory. -/
@[inline] def look (f : Heap → Memory → Reading α) : HeapM α := fun w =>
  match f w.heap w.memory with
  | .ok a => .ok a w
  | .error e => .error e w

/-- Report a violation that poisons the heap. -/
def violate (e : HeapError) : HeapM α := fun ⟨heap, memory⟩ => .error (.violation e) ⟨heap.poison e, memory⟩

/-- Let violations of an action poison the heap. -/
@[inline] def poisoning (act : HeapM α) : HeapM α := fun w =>
  match act w with
  | .error (.violation e) w => violate e w
  | other => other

def checkPoisoned : HeapM Unit := fun w =>
  match w.heap.poisoned with
  | some e => .error (.violation e) w
  | none => .ok () w

/-! ### Types -/

def register (d : Descriptor) : HeapM TypeId := fun ⟨heap, memory⟩ =>
  match heap.types.register d with
  | .ok (id, types) => .ok id ⟨{ heap with types }, memory⟩
  | .error e => .error (.violation e) ⟨heap, memory⟩

/-! ### Roots -/

def pushRoot : HeapM RootHandle := fun ⟨heap, memory⟩ =>
  let (handle, roots) := heap.roots.push
  .ok handle ⟨{ heap with roots }, memory⟩

/-- Replace the root stack, or report why that is not possible. -/
@[inline] def changeRoots (f : RootStack → Except RootViolation RootStack) : HeapM Unit := fun ⟨heap, memory⟩ =>
  match f heap.roots with
  | .ok roots => .ok () ⟨{ heap with roots }, memory⟩
  | .error v => violate (.rootDiscipline v) ⟨heap, memory⟩

def popRoot (handle : RootHandle) : HeapM Unit := changeRoots fun roots => roots.pop handle

def addRoot (handle : RootHandle) (s : Slot) : HeapM Unit := changeRoots fun roots => roots.add handle s

def addGlobal (s : Slot) : HeapM Unit := changeRoots fun roots => .ok (roots.addGlobal s)

/-- Pop a frame after the action that it was pushed for. The failure of the action is reported before
that of the pop. -/
def leaveScope (frame : RootHandle) (outcome : Except Failure α) : HeapM α := do
  let popped ← attempt (popRoot frame)
  match outcome, popped with
  | .error e, _ => throw e
  | .ok _, .error e => throw e
  | .ok a, .ok () => return a

/-- Run an action in a root frame of its own. -/
def inScope (body : RootHandle → HeapM α) : HeapM α := do
  let frame ← pushRoot
  leaveScope frame (← attempt (body frame))

/-! ### Questions about objects -/

def contains (h : Heap) (obj : Nat) : Bool := h.collector.engine.owns obj

/-- The header of an object that the heap holds. -/
def header (h : Heap) (m : Memory) (obj : Nat) : Reading Header := do
  if !h.contains obj then throw (.corrupted obj .danglingReference)
  let (header, _) ← m.readObject obj
  return header

def typeOf (obj : Nat) : HeapM TypeId := look fun h m => return (← h.header m obj).typeId

def payloadSize (obj : Nat) : HeapM Nat := look fun h m => return (← h.header m obj).size

def descriptor (obj : Nat) : HeapM Descriptor := look fun h m => do
  let id := (← h.header m obj).typeId
  match h.types.get id with
  | .ok d => return d
  | .error e => throw (.violation e)

def counters? (h : Heap) : Option Counters := h.collector.counters?

def objectCount (h : Heap) : Nat := h.collector.engine.objectCount

def liveBytes (h : Heap) : Nat := h.collector.engine.liveBytes

def availableBytes (h : Heap) : Nat := h.collector.engine.availableBytes

def strategy (h : Heap) : Strategy := h.collector.engine.strategy

/-- The summary of a heap in one line. -/
def summary (h : Heap) : String :=
  "Heap \x7b collector: \"" ++ h.strategy.name ++ "\", mode: " ++ h.config.mode.label
    ++ s!", objects: {h.objectCount}, live_bytes: {h.liveBytes}, root_depth: {h.roots.depth}, poisoned: "
    ++ (if h.poisoned.isSome then "true" else "false") ++ " \x7d"

end Heap

end TracingHeap
