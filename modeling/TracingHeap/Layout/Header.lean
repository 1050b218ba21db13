import TracingHeap.Memory.Access

/-! The 24 bytes in front of every object.

From the start of the block: the type in four bytes, a magic byte, the state, two unused bytes, the
size of the payload and the forwarding target in eight bytes each. All are little-endian. -/

set_option autoImplicit false

namespace TracingHeap

def headerSize : Nat := 24

def headerMagic : UInt8 := 0xA7

/-- No object is larger. -/
def largestPayload : Nat := 4611686018427387903

/-- Where the payload of a block begins. -/
abbrev payloadOf (block : Nat) : Nat := block + headerSize

/-- Where the block of a payload begins. -/
abbrev blockOf (payload : Nat) : Nat := payload - headerSize

/-- The bytes that an object takes with its header, in whole words. -/
def footprint (size : Nat) : Nat := Word.ceil (headerSize + size)

inductive ObjectState where
  | unmarked
  | marked
  /-- The object has moved; its header names the new place. -/
  | forwarded
  deriving DecidableEq, Repr

namespace ObjectState

def code : ObjectState → UInt8
  | unmarked => 0
  | marked => 1
  | forwarded => 2

def ofCode? (c : UInt8) : Option ObjectState :=
  if c = 0 then some unmarked else if c = 1 then some marked else if c = 2 then some forwarded else none

theorem ofCode?_eq_some {c : UInt8} {s : ObjectState} : ofCode? c = some s ↔ c = s.code := by
  unfold ofCode? code
  constructor
  · intro h
    repeat' split at h
    all_goals simp_all
    all_goals (subst h; rfl)
  · rintro rfl
    cases s <;> rfl

@[simp] theorem ofCode?_code (s : ObjectState) : ofCode? s.code = some s := ofCode?_eq_some.2 rfl

end ObjectState

structure Header where
  typeId : TypeId
  magic : UInt8
  state : UInt8
  reserved : UInt16
  size : Nat
  forward : Nat
  deriving DecidableEq, Repr

namespace Header

def fresh (id : TypeId) (size : Nat) : Header :=
  ⟨id, headerMagic, ObjectState.unmarked.code, 0, size, 0⟩

/-- The state of an intact header. The magic byte is looked at first. -/
def check (h : Header) : Except Corruption ObjectState :=
  if h.magic ≠ headerMagic then .error (.badMagic h.magic)
  else
    match ObjectState.ofCode? h.state with
    | some state => .ok state
    | none => .error (.badState h.state)

theorem check_eq_ok {h : Header} {s : ObjectState} :
    h.check = .ok s ↔ h.magic = headerMagic ∧ h.state = s.code := by
  unfold check
  by_cases magic : h.magic = headerMagic
  · rw [if_neg (by simpa using magic)]
    simp only [magic, true_and]
    rw [← ObjectState.ofCode?_eq_some]
    cases ObjectState.ofCode? h.state <;> simp
  · simp [magic]

/-- The header is intact and in the given state. -/
def isIntact (h : Header) (s : ObjectState) : Bool := h.magic = headerMagic ∧ h.state = s.code

theorem isIntact_iff {h : Header} {s : ObjectState} : h.isIntact s = true ↔ h.check = .ok s := by
  rw [check_eq_ok, isIntact, decide_eq_true_iff]

/-- The target of a forwarded object. What the field holds in another state is no target. -/
def forwardingAddress (h : Header) : Option Nat :=
  if h.state = ObjectState.forwarded.code then some h.forward else none

/-- The bytes of the object's block. -/
def footprint (h : Header) : Nat := TracingHeap.footprint h.size

/-- The header that the bytes from position `i` on spell. -/
@[specialize] def read (byte : Nat → UInt8) (i : Nat) : Header where
  typeId := ⟨UInt32.ofNat (littleEndian byte i 4)⟩
  magic := byte (i + 4)
  state := byte (i + 5)
  reserved := UInt16.ofNat (littleEndian byte (i + 6) 2)
  size := littleEndian byte (i + 8) 8
  forward := littleEndian byte (i + 16) 8

end Header

namespace Arena

def setHeader (a : Arena) (i : Nat) (h : Header) : Arena :=
  let a := a.setLittleEndian i h.typeId.raw.toNat 4
  let a := a.setByte (i + 4) h.magic
  let a := a.setByte (i + 5) h.state
  let a := a.setLittleEndian (i + 6) h.reserved.toNat 2
  let a := a.setLittleEndian (i + 8) h.size 8
  a.setLittleEndian (i + 16) h.forward 8

end Arena

namespace Memory

def header (m : Memory) (block : Nat) : Header :=
  match m.arena? block with
  | some arena => Header.read arena.byte (offset block)
  | none => Header.read (fun _ => 0) 0

def setHeader (m : Memory) (block : Nat) (h : Header) : Memory :=
  m.modifyArena block fun arena => arena.setHeader (offset block) h

/-- The header of a block. A block at the end of an arena may be too small for a whole header: the first
word has to be there, and what is missing reads as zero. -/
def readHeader (m : Memory) (block : Nat) : Reading Header :=
  if m.holds block wordSize then .ok (m.header block) else .error (.fault (.stray block))

/-- The header in front of a payload, and its state if it is intact. -/
def readObject (m : Memory) (payload : Nat) : Reading (Header × ObjectState) := do
  let header ← m.readHeader (blockOf payload)
  match header.check with
  | .ok state => .ok (header, state)
  | .error corruption => .error (.corrupted payload corruption)

end Memory

namespace Access

def storeHeader (block : Nat) (h : Header) : Access Unit := guarded block headerSize fun m => m.setHeader block h

def setState (block : Nat) (s : ObjectState) : Access Unit :=
  guarded block wordSize fun m => m.setByte (block + 5) s.code

/-- Leave a forwarding target in a header. -/
def forwardTo (block target : Nat) : Access Unit :=
  guarded block headerSize fun m => (m.setByte (block + 5) ObjectState.forwarded.code).setWord (block + 16) target

end Access

end TracingHeap
