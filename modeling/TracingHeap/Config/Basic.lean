import TracingHeap.Error

/-! The configuration of a heap. -/

set_option autoImplicit false

namespace TracingHeap

/-- Smaller heaps are refused. -/
def smallestHeap : Nat := 4096

structure Config where
  strategy : Strategy := .markSweep
  mode : Mode := .normal
  /-- Objects that can still be reached at shutdown are no error. -/
  leakTolerant : Bool := false
  /-- In bytes. A copying heap divides them between its two spaces. -/
  heapSize : Nat := 8388608
  /-- Check the whole heap after each collection. -/
  verifyHeap : Bool := false
  deriving DecidableEq, Repr, Inhabited

namespace Config

/-- Collect at every allocation and check after every collection. -/
def stress : Config := { mode := .stress, verifyHeap := true }

def statistics : Config := { mode := .statistics }

/-- A size that is too small is reported before one that is not a multiple of the word size. -/
def check (c : Config) : Except ConfigError Unit :=
  if c.heapSize < smallestHeap then .error (.heapTooSmall c.heapSize smallestHeap)
  else if c.heapSize % wordSize ≠ 0 then .error (.misalignedHeap c.heapSize)
  else .ok ()

theorem check_eq_ok {c : Config} : c.check = .ok () ↔ smallestHeap ≤ c.heapSize ∧ wordSize ∣ c.heapSize := by
  unfold check
  split
  · next small => simp only [reduceCtorEq, false_iff, not_and]; omega
  · next large =>
    split
    · next odd => simp only [reduceCtorEq, false_iff, not_and]; intro _ even; exact odd (Nat.mod_eq_zero_of_dvd even)
    · next even =>
      simp only [true_iff]
      exact ⟨Nat.le_of_not_lt large, Nat.dvd_of_mod_eq_zero (Decidable.of_not_not even)⟩

theorem pos_of_check {c : Config} (accepted : c.check = .ok ()) : 0 < c.heapSize :=
  Nat.lt_of_lt_of_le (by decide) (check_eq_ok.1 accepted).1

end Config

end TracingHeap
