import TracingHeap.Memory.Access

/-! Space handed out from the bottom up, alone and in pairs. -/

set_option autoImplicit false

namespace TracingHeap

/-- An arena of which the first `cursor` bytes are in use. -/
structure Space where
  start : Nat
  size : Nat
  cursor : Nat := 0
  deriving DecidableEq, Repr

namespace Space

/-- The address of the next block. -/
def top (s : Space) : Nat := s.start + s.cursor

def free (s : Space) : Nat := s.size - s.cursor

/-- Hand out the next `n` bytes, if they are left. -/
def bump (s : Space) (n : Nat) : Option (Nat × Space) :=
  if s.cursor + n ≤ s.size then some (s.top, { s with cursor := s.cursor + n }) else none

theorem bump_eq_some {s s' : Space} {n block : Nat} (bumped : s.bump n = some (block, s')) :
    s.cursor + n ≤ s.size ∧ block = s.top ∧ s' = { s with cursor := s.cursor + n } := by
  unfold bump at bumped
  split at bumped <;> cases bumped
  next room => exact ⟨room, rfl, rfl⟩

/-- The address is in use. -/
def contains (s : Space) (a : Nat) : Bool := s.start ≤ a && a < s.top

theorem contains_iff {s : Space} {a : Nat} : s.contains a = true ↔ s.start ≤ a ∧ a < s.top := by
  simp only [contains, Bool.and_eq_true, decide_eq_true_eq]

end Space

/-- Two spaces of one size. Objects live in the active one and are moved to the reserve. -/
structure SpacePair where
  active : Space
  reserve : Space
  size : Nat
  deriving DecidableEq, Repr

namespace SpacePair

def grant (m : Memory) (size : Nat) : Option (SpacePair × Memory) := do
  let (first, m) ← m.grant size
  let (second, m) ← m.grant size
  return (⟨⟨first, size, 0⟩, ⟨second, size, 0⟩, size⟩, m)

/-- Zero what was in use in the active space, and let the two change places. -/
def flip (p : SpacePair) (m : Memory) : SpacePair × Memory :=
  ({ p with active := p.reserve, reserve := { p.active with cursor := 0 } }, m.clear p.active.start p.active.cursor)

end SpacePair

end TracingHeap
