import TracingHeap.Proofs.Copying.Spaces

/-! The copy of one block. -/

set_option autoImplicit false

namespace TracingHeap

namespace Memory

variable {m : Memory} {source target size : Nat}

/-- The memory after a block has been copied and its header names the copy. -/
def movedBlock (m : Memory) (source target size : Nat) : Memory :=
  ((m.store target (m.load source size)).setByte (source + 5) ObjectState.forwarded.code).setWord (source + 16)
    (payloadOf target)

theorem moveBlock_eq (regular : m.Regular) (origin : m.holds source size = true) (room : m.holds target size = true)
    (large : headerSize ≤ size) : (do
      let bytes ← Access.load source size
      Access.store target bytes
      Access.forwardTo source (payloadOf target)) m = .ok () (m.movedBlock source target size) := by
  have length := size_load origin
  have shape := sameShape_store m target (m.load source size)
  have stored : Access.store target (m.load source size) m = .ok () (m.store target (m.load source size)) :=
    Access.guarded_ok (by rw [length]; exact room)
  have front : m.holds source headerSize = true := holds_of_range regular origin (Nat.le_refl _) (by omega)
  have forwarded : Access.forwardTo source (payloadOf target) (m.store target (m.load source size))
      = .ok () (m.movedBlock source target size) := Access.guarded_ok (by rw [shape.holds]; exact front)
  rw [run_bind (Access.load_ok origin), run_bind stored, forwarded]

theorem sameShape_movedBlock (m : Memory) (source target size : Nat) : m.SameShape (m.movedBlock source target size) :=
  ((sameShape_store ..).trans (sameShape_setByte ..)).trans (sameShape_setWord ..)

theorem cells_movedBlock (m : Memory) (source target size : Nat) :
    (m.movedBlock source target size).cells = m.cells := by
  unfold movedBlock setWord setByte store
  rw [cells_modifyArena, cells_modifyArena, cells_modifyArena]

variable (regular : m.Regular) (origin : m.holds source size = true) (room : m.holds target size = true)
  (large : headerSize ≤ size) (clear : source + size ≤ target ∨ target + size ≤ source)

include regular origin room large

/-- The target is written into the header of the source, so what lies beside it is as it was copied. -/
theorem byte_movedBlock {a : Nat} (header : a < source ∨ source + headerSize ≤ a) :
    (m.movedBlock source target size).byte a =
      if target ≤ a ∧ a < target + size then (m.load source size)[a - target]?.getD 0 else m.byte a := by
  have length := size_load origin
  have first := sameShape_store m target (m.load source size)
  have second := sameShape_setByte (m.store target (m.load source size)) (source + 5) ObjectState.forwarded.code
  have front : m.holds source headerSize = true := holds_of_range regular origin (Nat.le_refl _) (by omega)
  unfold headerSize at *
  rw [movedBlock, byte_setWord_of_outside, byte_setByte, if_neg (by omega),
    byte_store regular (by rw [length]; exact room), length]
  · rw [first.holds]
    exact holds_sub regular front 5 1 (by omega)
  · rw [(first.trans second).holds]
    exact holds_sub regular front 16 wordSize (by unfold wordSize; omega)
  · unfold wordSize
    omega

/-- Only the copy and the header of the block change. -/
theorem byte_movedBlock_of_outside {a : Nat} (copy : a < target ∨ target + size ≤ a)
    (header : a < source ∨ source + headerSize ≤ a) : (m.movedBlock source target size).byte a = m.byte a := by
  rw [byte_movedBlock regular origin room large header, if_neg (by omega)]

include clear

theorem byte_movedBlock_of_copy {i : Nat} (lt : i < size) :
    (m.movedBlock source target size).byte (target + i) = m.byte (source + i) := by
  rw [byte_movedBlock regular origin room large (by omega), if_pos (by omega), Nat.add_sub_cancel_left,
    getElem?_load regular origin lt]

theorem header_movedBlock : (m.movedBlock source target size).header source =
    { m.header source with state := ObjectState.forwarded.code, forward := payloadOf target } := by
  have length := size_load origin
  have first := sameShape_store m target (m.load source size)
  have second := sameShape_setByte (m.store target (m.load source size)) (source + 5) ObjectState.forwarded.code
  have regular₁ := regular.of_sameShape first
  have regular₂ := regular.of_sameShape (first.trans second)
  have front : m.holds source headerSize = true := holds_of_range regular origin (Nat.le_refl _) (by omega)
  have front₁ : (m.store target (m.load source size)).holds source headerSize = true := by rw [first.holds]; exact front
  have same : (m.store target (m.load source size)).header source = m.header source := by
    apply header_congr regular regular₁ front front₁
    intro i lt
    rw [byte_store regular (by rw [length]; exact room), if_neg (by omega)]
  have word := holds_lt regular room
  rw [movedBlock, header_setForward regular₂ (by rw [second.holds]; exact front₁), header_setState regular₁ front₁, same,
    Nat.mod_eq_of_lt (by unfold payloadOf; omega)]

end Memory

end TracingHeap
