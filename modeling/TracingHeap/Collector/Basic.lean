import TracingHeap.Collector.Copying
import TracingHeap.Collector.Leaky
import TracingHeap.Collector.MarkSweep
import TracingHeap.Config.Basic
import TracingHeap.Statistics.Counters

/-! A collector: an engine that holds the objects, and layers around it.

A layer counts what the engine does or changes when it is run. No layer changes what the engine
does. -/

set_option autoImplicit false

namespace TracingHeap

inductive Engine where
  | markSweep (c : MarkSweep)
  | copying (c : Copying)
  | leaky (c : Leaky)

namespace Engine

def create (strategy : Strategy) (m : Memory) (heapSize : Nat) : Except HeapError (Engine × Memory) :=
  match strategy with
  | .markSweep => (MarkSweep.create m heapSize).map fun (c, m) => (.markSweep c, m)
  | .copying => (Copying.create m heapSize).map fun (c, m) => (.copying c, m)
  | .leaky => (Leaky.create m heapSize).map fun (c, m) => (.leaky c, m)

def strategy : Engine → Strategy
  | markSweep _ => .markSweep
  | copying _ => .copying
  | leaky _ => .leaky

/-- The engine cannot serve a request without collecting. -/
def shouldCollect (e : Engine) (size : Nat) : Bool :=
  match e with
  | markSweep c => !c.free.canSatisfy size
  | copying c => c.availableBytes < size
  | leaky _ => false

/-- Hand out a block, if there is room. Memory is not touched. -/
def allocate (e : Engine) (size : Nat) : Option (Nat × Engine) :=
  match e with
  | markSweep c => (c.allocate size).map fun (block, c) => (block, markSweep c)
  | copying c => (c.allocate size).map fun (block, c) => (block, copying c)
  | leaky c => (c.allocate size).map fun (block, c) => (block, leaky c)

def collect (types : TypeTable) (roots : List Slot) : EStateM Failure (Engine × Memory) CollectionReport
  | (markSweep c, m) =>
    match c.collect types roots m with
    | .ok (c, report) m => .ok report (markSweep c, m)
    | .error x m => .error x (markSweep c, m)
  | (copying c, m) =>
    match c.collect types roots m with
    | .ok report (c, m) => .ok report (copying c, m)
    | .error x (c, m) => .error x (copying c, m)
  | (leaky c, m) => .ok c.report (leaky c, m)

/-- Bytes handed out and not given back. -/
def liveBytes : Engine → Nat
  | markSweep c => c.liveBytes
  | copying c => c.liveBytes
  | leaky c => c.space.cursor

/-- Bytes that can be handed out without collecting. -/
def availableBytes : Engine → Nat
  | markSweep c => c.availableBytes
  | copying c => c.availableBytes
  | leaky c => c.space.free

def owns (e : Engine) (payload : Nat) : Bool :=
  match e with
  | markSweep c => c.owns payload
  | copying c => c.owns payload
  | leaky c => c.held.contains payload

def objectCount : Engine → Nat
  | markSweep c => c.records.size
  | copying c => c.resident.size
  | leaky c => c.held.size

/-- All objects in the order of their addresses. -/
def objects (e : Engine) (m : Memory) : Reading (List Nat) :=
  match e with
  | markSweep c => .ok c.objects
  | copying c => c.objects m
  | leaky c => c.objects m

/-- Where the arenas of the engine begin. -/
def arenas : Engine → List Nat
  | markSweep c => [c.start]
  | copying c => [c.spaces.active.start, c.spaces.reserve.start]
  | leaky c => [c.space.start]

end Engine

inductive Layer where
  /-- Collect before every allocation. -/
  | stressing
  /-- Count allocations and collections. -/
  | counting (c : Counters)
  deriving DecidableEq, Repr

namespace Layer

def isStressing : Layer → Bool
  | stressing => true
  | counting _ => false

def counters? : Layer → Option Counters
  | stressing => none
  | counting c => some c

def recordAllocation (size : Nat) : Layer → Layer
  | stressing => stressing
  | counting c => counting (c.recordAllocation size)

def recordCollection (r : CollectionReport) : Layer → Layer
  | stressing => stressing
  | counting c => counting (c.recordCollection r)

/-- The layers of a mode, the outermost first. -/
def ofMode : Mode → List Layer
  | .normal => []
  | .statistics => [counting {}]
  | .stress => [stressing, counting {}]

end Layer

structure Collector where
  engine : Engine
  /-- The outermost layer comes first. -/
  layers : List Layer := []

namespace Collector

def create (config : Config) (m : Memory) : Except HeapError (Collector × Memory) :=
  (Engine.create config.strategy m config.heapSize).map fun (engine, m) =>
    ({ engine, layers := Layer.ofMode config.mode }, m)

def shouldCollect (c : Collector) (size : Nat) : Bool := c.layers.any Layer.isStressing || c.engine.shouldCollect size

def allocate (c : Collector) (size : Nat) : Option (Nat × Collector) :=
  (c.engine.allocate size).map fun (block, engine) =>
    (block, { engine, layers := c.layers.map (Layer.recordAllocation size) })

/-- Run the engine. Only a collection that succeeds is counted. -/
def collect (types : TypeTable) (roots : List Slot) : EStateM Failure (Collector × Memory) CollectionReport :=
  fun (⟨engine, layers⟩, m) =>
    match Engine.collect types roots (engine, m) with
    | .ok report (engine, m) => .ok report (⟨engine, layers.map (Layer.recordCollection report)⟩, m)
    | .error x (engine, m) => .error x (⟨engine, layers⟩, m)

/-- The counts of the outermost layer that keeps some. -/
def counters? (c : Collector) : Option Counters := c.layers.findSome? Layer.counters?

end Collector

end TracingHeap
