/-! How a heap reclaims memory and what is recorded while it does. -/

set_option autoImplicit false

namespace TracingHeap

/-- How memory is reclaimed. -/
inductive Strategy where
  /-- Objects stay where they are; a free list covers the rest. -/
  | markSweep
  /-- Survivors move to the other half of the memory. -/
  | copying
  /-- Nothing is ever reclaimed. -/
  | leaky
  deriving DecidableEq, Repr, Inhabited

namespace Strategy

/-- The name in reports and messages. -/
def name : Strategy → String
  | markSweep => "mark-sweep"
  | copying => "copying"
  | leaky => "leaky"

/-- The name in a configuration. -/
def keyword : Strategy → String
  | markSweep => "mark_sweep"
  | copying => "copying"
  | leaky => "leaky"

/-- Every spelling that a configuration may use. -/
def ofKeyword? : String → Option Strategy
  | "mark_sweep" | "mark-sweep" | "marksweep" => some markSweep
  | "copying" | "semispace" | "semi_space" => some copying
  | "leaky" | "none" => some leaky
  | _ => none

theorem ofKeyword?_keyword (s : Strategy) : ofKeyword? s.keyword = some s := by cases s <;> rfl

end Strategy

/-- What is layered over the collector. -/
inductive Mode where
  | normal
  /-- Collect before every allocation, and keep statistics. -/
  | stress
  | statistics
  deriving DecidableEq, Repr, Inhabited

namespace Mode

def keyword : Mode → String
  | normal => "normal"
  | stress => "stress"
  | statistics => "statistics"

/-- The name in the summary of a heap. -/
def label : Mode → String
  | normal => "Normal"
  | stress => "Stress"
  | statistics => "Statistics"

def ofKeyword? : String → Option Mode
  | "normal" | "" => some normal
  | "stress" => some stress
  | "statistics" | "stats" => some statistics
  | _ => none

theorem ofKeyword?_keyword (m : Mode) : ofKeyword? m.keyword = some m := by cases m <;> rfl

def recordsStatistics : Mode → Bool
  | normal => false
  | stress | statistics => true

end Mode

/-- The spellings of a boolean setting. -/
def flag? : String → Option Bool
  | "1" | "true" | "yes" | "on" => some true
  | "0" | "false" | "no" | "off" | "" => some false
  | _ => none

end TracingHeap
