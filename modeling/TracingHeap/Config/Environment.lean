import TracingHeap.Config.Basic
import TracingHeap.Text.Blank

/-! Configuration from named settings, such as the variables of a process. -/

set_option autoImplicit false

namespace TracingHeap

namespace Setting

def collector : String := "PRISM_GC_COLLECTOR"
def mode : String := "PRISM_GC_MODE"
def leakTolerant : String := "PRISM_GC_LEAK_TOLERANT"
def heapSize : String := "PRISM_GC_HEAP_SIZE"
def verify : String := "PRISM_GC_VERIFY"

end Setting

def Strategy.parse (text : String) : Except ConfigError Strategy :=
  match Strategy.ofKeyword? (Text.keyword text) with
  | some strategy => .ok strategy
  | none => .error (.unknownCollector text)

def Mode.parse (text : String) : Except ConfigError Mode :=
  match Mode.ofKeyword? (Text.keyword text) with
  | some mode => .ok mode
  | none => .error (.unknownMode text)

def parseFlag (key text : String) : Except ConfigError Bool :=
  match flag? (Text.keyword text) with
  | some value => .ok value
  | none => .error (.invalidFlag key text)

def parseSize (key text : String) : Except ConfigError Nat :=
  match Text.decimal? wordLimit (Text.trim text.toList) with
  | some size => .ok size
  | none => .error (.invalidNumber key text)

namespace Config

/-- Read one setting; an unset one keeps its default. -/
def setting {α : Type} (lookup : String → Option String) (key : String) (parse : String → Except ConfigError α)
    (default : α) : Except ConfigError α :=
  match lookup key with
  | some text => parse text
  | none => .ok default

/-- The settings are read in a fixed order, and the first one refused is reported. The size is
checked last. -/
def ofLookup (lookup : String → Option String) : Except ConfigError Config := do
  let defaults : Config := {}
  let strategy ← setting lookup Setting.collector Strategy.parse defaults.strategy
  let mode ← setting lookup Setting.mode Mode.parse defaults.mode
  let leakTolerant ← setting lookup Setting.leakTolerant (parseFlag Setting.leakTolerant) defaults.leakTolerant
  let verifyHeap ← setting lookup Setting.verify (parseFlag Setting.verify) defaults.verifyHeap
  let heapSize ← setting lookup Setting.heapSize (parseSize Setting.heapSize) defaults.heapSize
  let config : Config := { strategy, mode, leakTolerant, heapSize, verifyHeap }
  config.check
  return config

end Config

end TracingHeap
