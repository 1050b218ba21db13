import TracingHeap.Error
import TracingHeap.Word

/-! What the words of an object are.

An object has a fixed part of declared words, and may end in a region of equal elements whose number
is kept in one word of the fixed part. -/

set_option autoImplicit false

namespace TracingHeap

inductive WordKind where
  /-- A reference that the collectors follow. -/
  | traced
  | scalar
  deriving DecidableEq, Repr

structure Field where
  offset : Nat
  kind : WordKind
  deriving DecidableEq, Repr

/-- The elements behind the fixed part. -/
structure Region where
  /-- Where the number of elements is kept. -/
  countOffset : Nat
  kind : WordKind
  elementSize : Nat
  deriving DecidableEq, Repr

/-- A region of references. -/
def Region.references (countOffset : Nat) : Region := ⟨countOffset, .traced, wordSize⟩

/-- A region that the collectors do not look into. -/
def Region.scalars (countOffset elementSize : Nat) : Region := ⟨countOffset, .scalar, elementSize⟩

structure Descriptor where
  name : String
  fixedSize : Nat
  fields : List Field
  region : Option Region
  deriving DecidableEq, Repr

namespace Descriptor

/-- Offsets of the traced fields, in the order of declaration. -/
def tracedOffsets (d : Descriptor) : List Nat :=
  (d.fields.filter fun field => field.kind = .traced).map Field.offset

/-- The bytes that `count` elements take. -/
def extraBytes (d : Descriptor) (count : Nat) : Nat :=
  match d.region with
  | some region => Word.wrap (count * region.elementSize)
  | none => 0

/-- A declared word lies inside the fixed part. The end of the word is computed modulo 2^64. -/
def checkWord (role : WordRole) (offset fixedSize : Nat) : Except LayoutDefect Unit :=
  if offset % wordSize ≠ 0 then .error (.wordMisaligned role offset)
  else if Word.wrap (offset + wordSize) > fixedSize then .error (.wordOutside role offset fixedSize)
  else .ok ()

/-- Each field is checked in turn, against the ones before it. -/
def checkFields (fixedSize : Nat) : (seen : List Nat) → List Field → Except LayoutDefect Unit
  | _, [] => .ok ()
  | seen, field :: rest => do
    checkWord .field field.offset fixedSize
    if field.offset ∈ seen then throw (.fieldRepeated field.offset)
    checkFields fixedSize (field.offset :: seen) rest

def checkRegion (d : Descriptor) (region : Region) : Except LayoutDefect Unit := do
  checkWord .count region.countOffset d.fixedSize
  if region.countOffset ∈ d.tracedOffsets then throw (.countOverTraced region.countOffset)
  if region.elementSize = 0 then throw .elementSizeZero
  if region.kind = .traced ∧ region.elementSize ≠ wordSize then throw (.tracedElementSize region.elementSize)

/-- The first defect of a layout, if it has one. -/
def check (d : Descriptor) : Except LayoutDefect Unit := do
  if d.fixedSize % wordSize ≠ 0 then throw (.fixedSizeMisaligned d.fixedSize)
  checkFields d.fixedSize [] d.fields
  match d.region with
  | some region => d.checkRegion region
  | none => pure ()

end Descriptor

end TracingHeap
