import TracingHeap.Proofs.Collector.Books

/-! When a collection is due.

An engine asks for a collection by one computation, and finds room for a block by another: it searches the sizes of
the free blocks, or subtracts a cursor. In every state that an engine can be in the two agree. -/

set_option autoImplicit false

namespace TracingHeap

namespace Engine

variable {e e' : Engine} {size block : Nat}

-- Neither the types nor the roots nor the memory are those of any heap, and a collection may also fail half-way.
/-- The states of an engine, whatever it is asked for and whatever it finds in memory. -/
inductive Attained : Engine → Prop
  | create {strategy : Strategy} {heapSize : Nat} {m m' : Memory} {e : Engine} :
      create strategy m heapSize = .ok (e, m') → Attained e
  | allocate {e e' : Engine} {size block : Nat} : Attained e → e.allocate size = some (block, e') → Attained e'
  | collect {e e' : Engine} {types : TypeTable} {roots : List Slot} {m m' : Memory} : Attained e →
      after (Engine.collect types roots (e, m)) = (e', m') → Attained e'

/-- No cursor is past the end of its space. -/
def Bounded : Engine → Prop
  | markSweep _ => True
  | copying c => c.spaces.active.cursor ≤ c.spaces.active.size ∧ c.spaces.reserve.cursor ≤ c.spaces.reserve.size
  | leaky c => c.space.cursor ≤ c.space.size

theorem bounded_create {strategy : Strategy} {heapSize : Nat} {m m' : Memory}
    (made : create strategy m heapSize = .ok (e, m')) : e.Bounded := by
  cases created made with
  | markSweep granted => trivial
  | copying first second => exact ⟨Nat.zero_le _, Nat.zero_le _⟩
  | leaky granted => exact Nat.zero_le _

theorem bounded_allocate (bounded : e.Bounded) (found : e.allocate size = some (block, e')) : e'.Bounded := by
  cases allocated found with
  | markSweep took => trivial
  | copying room => exact ⟨room, bounded.2⟩
  | leaky room => exact room

theorem bounded_collect {types : TypeTable} {roots : List Slot} {m m' : Memory} (bounded : e.Bounded)
    (ran : after (Engine.collect types roots (e, m)) = (e', m')) : e'.Bounded := by
  cases e with
  | markSweep c =>
    unfold collect at ran
    cases collected : c.collect types roots m <;> simp only [collected, after] at ran <;> cases ran <;> trivial
  | leaky c =>
    cases ran
    exact bounded
  | copying c =>
    have grown := Copying.always_evacuateAll types roots c.resident { memory := m, reserve := c.spaces.reserve }
    cases evacuated : Copying.evacuateAll types roots c.resident { memory := m, reserve := c.spaces.reserve } with
    | error x ev =>
      rw [evacuated] at grown
      simp only [collect, Copying.collect, evacuated, after] at ran
      cases ran
      exact ⟨bounded.1, grown.room bounded.2⟩
    | ok _ ev =>
      -- The spaces have changed places, and what was in use has been cleared.
      rw [evacuated] at grown
      simp only [collect, Copying.collect, evacuated, after] at ran
      cases ran
      exact ⟨grown.room bounded.2, Nat.zero_le _⟩

theorem Attained.bounded (attained : e.Attained) : e.Bounded := by
  induction attained with
  | create made => exact bounded_create made
  | allocate _ found ih => exact bounded_allocate ih found
  | collect _ ran ih => exact bounded_collect ih ran

/-- The request does not fit the free space as it is. -/
def Lacks (e : Engine) (size : Nat) : Prop :=
  match e with
  | markSweep c => ∀ b ∈ c.free.blocks, b.size < size
  | copying c => c.spaces.active.size - c.spaces.active.cursor < size
  | leaky c => c.space.size - c.space.cursor < size

theorem bump_eq_none {s : Space} (room : s.cursor ≤ s.size) : s.bump size = none ↔ s.size - s.cursor < size := by
  unfold Space.bump
  split
  · simp only [reduceCtorEq, false_iff]
    omega
  · simp only [true_iff]
    omega

theorem allocate_eq_none (bounded : e.Bounded) : e.allocate size = none ↔ e.Lacks size := by
  cases e with
  | markSweep c =>
    have search := FreeList.canSatisfy_eq_isSome_take c.free size
    unfold allocate MarkSweep.allocate Lacks
    rw [Option.map_eq_none_iff, Option.map_eq_none_iff, ← Option.isNone_iff_eq_none, ← Option.not_isSome, ← search]
    simp [FreeList.canSatisfy]
  | copying c =>
    unfold allocate Copying.allocate
    rw [Option.map_eq_none_iff, Option.map_eq_none_iff, bump_eq_none bounded.1]
    rfl
  | leaky c =>
    unfold allocate Leaky.allocate
    rw [Option.map_eq_none_iff, Option.map_eq_none_iff, bump_eq_none bounded]
    rfl

/-- An engine that collects asks for a collection exactly if there is no room. -/
theorem shouldCollect_iff (collects : e.strategy ≠ .leaky) : e.shouldCollect size = true ↔ e.Lacks size := by
  cases e with
  | markSweep c => simp [shouldCollect, FreeList.canSatisfy, Lacks]
  | copying c => exact decide_eq_true_iff
  | leaky c => exact absurd rfl collects

end Engine

end TracingHeap
