import TracingHeap.Text.Hexadecimal
import TracingHeap.Word

/-! References: words that are not null. -/

set_option autoImplicit false

namespace TracingHeap

/-- The address of an object's payload. -/
structure Reference where
  address : Nat
  address_pos : 0 < address
  deriving DecidableEq, Repr

namespace Reference

def ofWord? (word : Nat) : Option Reference := if h : 0 < word then some ⟨word, h⟩ else none

/-- The word of a reference that may be missing. -/
def toWord : Option Reference → Nat
  | some r => r.address
  | none => 0

/-- The word at an offset, modulo 2^64. -/
def slot (r : Reference) (offset : Nat) : Nat := Word.wrap (r.address + offset)

def text : Option Reference → String
  | some r => "Some(ObjRef(" ++ TracingHeap.Text.hex r.address ++ "))"
  | none => "None"

@[simp] theorem toWord_ofWord? (word : Nat) : toWord (ofWord? word) = word := by
  unfold ofWord?
  split
  · rfl
  · next h => simp only [toWord]; omega

end Reference

end TracingHeap
