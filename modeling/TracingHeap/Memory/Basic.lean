import TracingHeap.Memory.Arena
import TracingHeap.Word

/-! Memory: arenas at fixed addresses, and cells beside them.

The arenas are numbered in the order in which they are granted, and a number is never used again.
The cells stand for the variables that a program keeps outside every arena. Contents are described
by `Memory.byte`, which has a value for every address. -/

set_option autoImplicit false

namespace TracingHeap

structure Memory where
  arenas : Array Arena := #[]
  cells : Array Nat := #[]

namespace Memory

/-- Where the first arena begins. -/
def origin : Nat := 68719476736

/-- The distance between two arenas; far more than one may hold. -/
def stride : Nat := 4294967296

/-- Larger arenas are refused. -/
def largestArena : Nat := 16777216

def base (k : Nat) : Nat := origin + k * stride

def index (a : Nat) : Nat := (a - origin) / stride

def offset (a : Nat) : Nat := (a - origin) % stride

theorem eq_of_index_of_offset {a b : Nat} (ha : origin ≤ a) (hb : origin ≤ b) (index_eq : index a = index b)
    (offset_eq : offset a = offset b) : a = b := by
  simp only [index, offset, origin, stride] at *; omega

theorem index_base (k : Nat) : index (base k) = k := by
  simp only [index, base, origin, stride]; omega

theorem offset_base (k : Nat) : offset (base k) = 0 := by
  simp only [offset, base, origin, stride]; omega

def arena? (m : Memory) (a : Nat) : Option Arena := if origin ≤ a then m.arenas[index a]? else none

/-- The `n` bytes from `a` on lie in one arena. -/
def holds (m : Memory) (a n : Nat) : Bool :=
  match m.arena? a with
  | some arena => offset a + n ≤ arena.extent
  | none => false

/-- The byte at an address; zero outside the arenas. -/
def byte (m : Memory) (a : Nat) : UInt8 :=
  match m.arena? a with
  | some arena => arena.byte (offset a)
  | none => 0

/-- The word at an address, least significant byte first. -/
def word (m : Memory) (a : Nat) : Nat :=
  match m.arena? a with
  | some arena => littleEndian arena.byte (offset a) wordSize
  | none => 0

@[inline] def modifyArena (m : Memory) (a : Nat) (f : Arena → Arena) : Memory :=
  if origin ≤ a then { m with arenas := m.arenas.modify (index a) f } else m

def setByte (m : Memory) (a : Nat) (v : UInt8) : Memory :=
  m.modifyArena a fun arena => arena.setByte (offset a) v

def setWord (m : Memory) (a v : Nat) : Memory :=
  m.modifyArena a fun arena => arena.setLittleEndian (offset a) v wordSize

/-- Zero `n` bytes. -/
def clear (m : Memory) (a n : Nat) : Memory :=
  m.modifyArena a fun arena => arena.clear (offset a) n

def load (m : Memory) (a n : Nat) : ByteArray :=
  match m.arena? a with
  | some arena => arena.load (offset a) n
  | none => ByteArray.empty

def store (m : Memory) (a : Nat) (source : ByteArray) : Memory :=
  m.modifyArena a fun arena => arena.store (offset a) source

theorem arena?_modifyArena (m : Memory) (a b : Nat) (f : Arena → Arena) (h : origin ≤ a) :
    (m.modifyArena a f).arena? b =
      if origin ≤ b ∧ index b = index a then (m.arena? b).map f else m.arena? b := by
  unfold modifyArena arena?
  rw [if_pos h]
  by_cases hb : origin ≤ b
  · simp only [hb, if_true, true_and, Array.getElem?_modify]
    by_cases same : index b = index a
    · simp [same]
    · simp [same, Ne.symm same]
  · simp [hb]

theorem holds_origin {m : Memory} {a n : Nat} (h : m.holds a n = true) : origin ≤ a := by
  unfold holds arena? at h
  by_cases low : origin ≤ a
  · exact low
  · simp [low] at h

theorem holds_modifyArena (m : Memory) (a : Nat) (f : Arena → Arena)
    (keeps : ∀ arena, (f arena).extent = arena.extent) (b n : Nat) : (m.modifyArena a f).holds b n = m.holds b n := by
  by_cases h : origin ≤ a
  · unfold holds
    rw [arena?_modifyArena m a b f h]
    by_cases near : origin ≤ b ∧ index b = index a
    · rw [if_pos near]
      cases m.arena? b with
      | none => simp only [Option.map_none]
      | some arena => simp only [Option.map_some, keeps]
    · rw [if_neg near]
  · rw [modifyArena, if_neg h]

theorem byte_setByte {m : Memory} {a : Nat} (h : m.holds a 1 = true) (b : Nat) (v : UInt8) :
    (m.setByte a v).byte b = if b = a then v else m.byte b := by
  have low := holds_origin h
  obtain ⟨arena, atA⟩ : ∃ arena, m.arena? a = some arena := by
    unfold holds at h
    split at h
    · next arena found => exact ⟨arena, found⟩
    · cases h
  unfold byte setByte
  rw [arena?_modifyArena m a b _ low]
  by_cases same : b = a
  · subst same
    simp [low, atA, Arena.byte_setByte]
  · by_cases near : origin ≤ b ∧ index b = index a
    · have apart : offset b ≠ offset a := fun eq => same (eq_of_index_of_offset near.1 low near.2 eq)
      rw [if_pos near, if_neg same]
      cases m.arena? b with
      | none => simp
      | some other => simp [Arena.byte_setByte, apart]
    · rw [if_neg near, if_neg same]

/-- Grant a zeroed arena, or refuse it. At least one word is granted. -/
def grant (m : Memory) (size : Nat) : Option (Nat × Memory) :=
  if size ≤ largestArena then
    some (base m.arenas.size, { m with arenas := m.arenas.push (Arena.fresh (max size wordSize)) })
  else none

/-- Give an arena back. It keeps its number and has no bytes left. -/
def release (m : Memory) (start : Nat) : Memory := m.modifyArena start fun _ => Arena.fresh 0

/-- The bytes of all arenas together. -/
def capacity (m : Memory) : Nat := m.arenas.foldl (fun n arena => n + arena.extent) 0

end Memory

/-- A place that holds a reference: a cell outside the arenas, or a word inside one. -/
inductive Slot where
  | cell (index : Nat)
  | field (address : Nat)
  deriving DecidableEq, Hashable, Repr

namespace Memory

/-- The slot exists. -/
def holdsSlot (m : Memory) : Slot → Bool
  | .cell i => i < m.cells.size
  | .field a => m.holds a wordSize

def slot (m : Memory) : Slot → Nat
  | .cell i => m.cells[i]?.getD 0
  | .field a => m.word a

def setSlot (m : Memory) (s : Slot) (v : Nat) : Memory :=
  match s with
  | .cell i => { m with cells := m.cells.setIfInBounds i v }
  | .field a => m.setWord a v

end Memory

end TracingHeap
