import TracingHeap.Config.Options
import TracingHeap.Word
import TracingHeap.Text.Hexadecimal

/-! What can be wrong with a heap, its roots, its types and its configuration.

Each cause is a constructor; its wording is in one `message` function per type. -/

set_option autoImplicit false

namespace TracingHeap

/-- The number that an object's header names its type by. -/
structure TypeId where
  raw : UInt32
  deriving DecidableEq, Repr, Inhabited

def TypeId.text (id : TypeId) : String := "#" ++ toString id.raw.toNat

/-- A defect of a header or of a reference. -/
inductive Corruption where
  | badMagic (found : UInt8)
  /-- An unknown state, or one that is not allowed where it was met. -/
  | badState (found : UInt8)
  | danglingReference
  | danglingForward (target : Nat)
  | doubleForward
  | regionOverflow (count capacity : Nat)
  deriving DecidableEq, Repr

def Corruption.message : Corruption → String
  | badMagic found => "bad header magic " ++ Text.hexByte found
  | badState found => s!"bad header state {found.toNat}"
  | danglingReference => "reference to a non-live address"
  | danglingForward target => "forwarding target " ++ Text.hex target ++ " outside to-space"
  | doubleForward => "object forwarded twice in one cycle"
  | regionOverflow count capacity => s!"variable region holds {count} elements but payload fits {capacity}"

/-- A breach of the stack discipline of root frames. Frames are named by their sequence number. -/
inductive RootViolation where
  | outOfOrderPop (expected found : Nat)
  | emptyStack (found : Nat)
  | staleHandle (found : Nat)
  | unbalanced (depth : Nat)
  deriving DecidableEq, Repr

namespace RootViolation

def kind : RootViolation → String
  | outOfOrderPop .. => "OutOfOrderPop"
  | emptyStack .. => "EmptyStack"
  | staleHandle .. => "StaleHandle"
  | unbalanced .. => "Unbalanced"

def message : RootViolation → String
  | outOfOrderPop expected found => s!"pop of frame #{found} while frame #{expected} is on top"
  | emptyStack found => s!"pop of frame #{found} on an empty root stack"
  | staleHandle found => s!"frame #{found} used after it was popped"
  | unbalanced depth => s!"{depth} root frame(s) still pushed"

end RootViolation

/-- The words of a layout that have to lie inside the fixed part. -/
inductive WordRole where
  | field
  | count
  deriving DecidableEq, Repr

def WordRole.name : WordRole → String
  | field => "field"
  | count => "count word"

/-- Why a type is refused. -/
inductive LayoutDefect where
  | fixedSizeMisaligned (size : Nat)
  | wordMisaligned (role : WordRole) (offset : Nat)
  | wordOutside (role : WordRole) (offset size : Nat)
  | fieldRepeated (offset : Nat)
  | countOverTraced (offset : Nat)
  | elementSizeZero
  | tracedElementSize (size : Nat)
  | nameTaken
  | noRegion
  /-- A reason that is given in words. -/
  | stated (reason : String)
  deriving DecidableEq, Repr

def LayoutDefect.message : LayoutDefect → String
  | fixedSizeMisaligned size => s!"fixed size {size} is not a multiple of {wordSize}"
  | wordMisaligned role offset => role.name ++ s!" at offset {offset} is misaligned"
  | wordOutside role offset size => role.name ++ s!" at offset {offset} lies outside the fixed size {size}"
  | fieldRepeated offset => s!"field at offset {offset} declared twice"
  | countOverTraced offset => s!"count word at offset {offset} overlaps a traced field"
  | elementSizeZero => "variable region element size is zero"
  | tracedElementSize size => s!"traced elements must be {wordSize} bytes, not {size}"
  | nameTaken => "a type with this name is already registered"
  | noRegion => "type has no variable region"
  | stated reason => reason

/-- Why a configuration is refused. Texts are quoted as they were given. -/
inductive ConfigError where
  | heapTooSmall (size least : Nat)
  | misalignedHeap (size : Nat)
  | unknownCollector (text : String)
  | unknownMode (text : String)
  | invalidNumber (key value : String)
  | invalidFlag (key value : String)
  | alreadyInstalled
  deriving DecidableEq, Repr

namespace ConfigError

def kind : ConfigError → String
  | heapTooSmall .. => "HeapTooSmall"
  | misalignedHeap .. => "MisalignedHeap"
  | unknownCollector .. => "UnknownCollector"
  | unknownMode .. => "UnknownMode"
  | invalidNumber .. => "InvalidNumber"
  | invalidFlag .. => "InvalidFlag"
  | alreadyInstalled => "AlreadyInstalled"

def message : ConfigError → String
  | heapTooSmall size least => s!"heap size {size} is below the minimum of {least} bytes"
  | misalignedHeap size => s!"heap size {size} is not a multiple of 8"
  | unknownCollector text => s!"unknown collector `{text}` (expected mark_sweep, copying or leaky)"
  | unknownMode text => s!"unknown mode `{text}` (expected normal, stress or statistics)"
  | invalidNumber key value => s!"{key}: `{value}` is not a number"
  | invalidFlag key value => s!"{key}: `{value}` is not a boolean"
  | alreadyInstalled => "a global heap is already installed"

end ConfigError

/-- What a heap reports instead of an answer. -/
inductive HeapError where
  /-- There was no room, even after a collection. -/
  | outOfMemory (collector : Strategy) (requested available : Nat)
  | corrupted (address : Nat) (corruption : Corruption)
  | rootDiscipline (violation : RootViolation)
  | unregisteredType (id : TypeId)
  /-- Types can be registered only before the first allocation. -/
  | registrationClosed (name : String)
  | invalidDescriptor (name : String) (defect : LayoutDefect)
  /-- Objects can still be reached when the heap is shut down. -/
  | leakDetected (objects bytes : Nat)
  | config (error : ConfigError)
  deriving DecidableEq, Repr

namespace HeapError

/-- The stable name of the violated rule. -/
def kind : HeapError → String
  | outOfMemory .. => "OutOfMemory"
  | corrupted .. => "CorruptedHeader"
  | rootDiscipline .. => "RootDisciplineViolation"
  | unregisteredType .. => "UnregisteredType"
  | registrationClosed .. => "RegistrationClosed"
  | invalidDescriptor .. => "InvalidDescriptor"
  | leakDetected .. => "LeakDetected"
  | config .. => "Config"

def message : HeapError → String
  | outOfMemory collector requested available =>
    "out of memory in " ++ collector.name ++ s!" heap: requested {requested} bytes, {available} available"
  | corrupted address corruption => "corrupted header at " ++ Text.hex address ++ ": " ++ corruption.message
  | rootDiscipline violation => "root discipline violation: " ++ violation.message
  | unregisteredType id => "type " ++ id.text ++ " was never registered"
  | registrationClosed name => s!"cannot register type `{name}`: allocation has already begun"
  | invalidDescriptor name defect => s!"invalid descriptor for `{name}`: " ++ defect.message
  | leakDetected objects bytes => s!"{objects} object(s) ({bytes} bytes) still reachable at shutdown"
  | config error => error.message

/-- The line printed before a process gives up. -/
def diagnostic (e : HeapError) : String := "prism_heap: fatal " ++ e.kind ++ ": " ++ e.message

end HeapError

end TracingHeap
