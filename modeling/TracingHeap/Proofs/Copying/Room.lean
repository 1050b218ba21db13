import TracingHeap.Proofs.Heap.Capacity
import TracingHeap.Proofs.Heap.Requests
import TracingHeap.Proofs.Occupancy

/-! When a heap that moves its objects runs out of memory.

A collection leaves the objects that can be reached one behind the other, so the rest of the space is free in one
piece. A request is refused exactly when it does not fit beside them, whatever has happened before. -/

set_option autoImplicit false

namespace TracingHeap

namespace Copying

variable {w : World} {c : Copying} {type : TypeId} {d : Descriptor} {extra size bytes : Nat}

theorem allocate_eq_none : (Engine.copying c).allocate size = none ↔
    c.spaces.active.size < c.spaces.active.cursor + size := by
  unfold Engine.allocate Copying.allocate Space.bump
  simp only [Option.map_eq_none_iff]
  split
  · next room => simp only [reduceCtorEq, false_iff, Nat.not_lt, room]
  · next full => simp only [Nat.lt_of_not_le full]

/-- The request waits for a collection, and that fails: in the order of copying an empty object is met again while it
is the one copied last. -/
def Obstructed (w : World) (c : Copying) (size : Nat) : Prop :=
  Heap.Waits w size ∧ copyOrder w.heap.types w.heap.roots.slots w.memory c.spaces.size = none

theorem not_obstructed (books : w.Books) (formed : w.WellFormed) (engine : w.heap.collector.engine = .copying c)
    (full : ∀ p, Reach w.heap.types w.heap.roots.slots w.memory p → w.memory.isEmpty p = false) :
    ¬ Obstructed w c size := by
  rintro ⟨-, order⟩
  have answered := (departure books formed engine).consistent.copyOrder_isSome full c.spaces.size
  rw [order] at answered
  cases answered

/-- What can be reached takes no more than what is in use. -/
theorem occupied_le (books : w.Books) (formed : w.WellFormed) (engine : w.heap.collector.engine = .copying c)
    (occupied : Occupied w.heap.types w.heap.roots.slots w.memory bytes) :
    bytes ≤ c.spaces.active.cursor ∧ c.spaces.active.cursor ≤ c.spaces.size ∧ c.spaces.active.size = c.spaces.size := by
  obtain ⟨l, nodup, members, rfl⟩ := occupied
  have ledger := books.ledger
  rw [engine] at ledger
  have rooted := formed.rooted books engine
  refine ⟨rooted.sized.total_le l nodup fun p member => ?_, ?_, ledger.1.active⟩
  · have reach := (members p).1 member
    exact ⟨reach, rooted.unmarked p reach⟩
  · rw [← ledger.1.active]
    exact ledger.1.room

theorem Moved.cursor {types : TypeTable} {roots : List Slot} {m m' : Memory} {l : List Nat} {c' : Copying}
    (moved : Moved types roots c m l c' m') (occupied : Occupied types roots m bytes) :
    c'.spaces.active.cursor = bytes := by
  rw [moved.spaces]
  exact Totals.unique ⟨l, moved.nodup, moved.reach, rfl⟩ occupied

theorem occupied_closed : Occupied w.closed.heap.types w.closed.heap.roots.slots w.closed.memory bytes ↔
    Occupied w.heap.types w.heap.roots.slots w.memory bytes :=
  Totals.congr fun _ => World.reach_closed

/-- A collection that is in the way of a request makes it fail. -/
theorem allocate_obstructed (books : w.Books) (healthy : w.heap.poisoned = none) (formed : w.WellFormed)
    (engine : w.heap.collector.engine = .copying c) (registered : w.heap.types.get? type = some d)
    (small : d.fixedSize + extra ≤ largestPayload) (obstructed : Obstructed w c (footprint (d.fixedSize + extra))) :
    ∃ p target w', Heap.allocate type extra w = .error (.corrupted p (.danglingForward target)) w' := by
  obtain ⟨waits, order⟩ := obstructed
  have waits : Heap.Waits w.closed (footprint (d.fixedSize + extra)) := waits
  obtain ⟨p, target, w', failed, -⟩ := collect_stuck books.close (w := w.closed) engine
    ((formed.close books).rooted books.close engine) healthy order
  rw [Heap.collect_eq (w := w.closed) healthy] at failed
  refine ⟨p, target, w', ?_⟩
  rw [Heap.allocate_eq healthy registered small]
  exact run_bind_error (Heap.obtainBlock_error waits failed)

/-- Any other request is served if it fits beside what can be reached. -/
theorem allocate_outcome (books : w.Books) (healthy : w.heap.poisoned = none) (formed : w.WellFormed)
    (engine : w.heap.collector.engine = .copying c) (registered : w.heap.types.get? type = some d)
    (small : d.fixedSize + extra ≤ largestPayload) (free : ¬ Obstructed w c (footprint (d.fixedSize + extra)))
    (occupied : Occupied w.heap.types w.heap.roots.slots w.memory bytes) :
    (bytes + footprint (d.fixedSize + extra) ≤ c.spaces.size ∧ ∃ p w', Heap.allocate type extra w = .ok p w') ∨
      c.spaces.size < bytes + footprint (d.fixedSize + extra) ∧ ∃ w', Heap.allocate type extra w =
        .error (.violation (.outOfMemory .copying (footprint (d.fixedSize + extra)) (c.spaces.size - bytes))) w' := by
  obtain ⟨used, room, whole⟩ := occupied_le books formed engine occupied
  by_cases waits : Heap.Waits w.closed (footprint (d.fixedSize + extra))
  · obtain ⟨l, order⟩ := Option.ne_none_iff_exists'.1 fun none => free ⟨waits, none⟩
    obtain ⟨report, c', m', collected, -, books', formed', moved⟩ := collect_rooted books.close (w := w.closed)
      engine ((formed.close books).rooted books.close engine) healthy order
    rw [Heap.collect_eq (w := w.closed) healthy] at collected
    have cursor : c'.spaces.active.cursor = bytes := moved.cursor (occupied_closed.2 occupied)
    have size : c'.spaces.active.size = c.spaces.size := by
      have ledger := books.ledger
      rw [engine] at ledger
      rw [moved.spaces]
      exact ledger.1.reserve
    have none : (Engine.copying c').allocate (footprint (d.fixedSize + extra)) = none ↔
        c.spaces.size < bytes + footprint (d.fixedSize + extra) := by
      rw [allocate_eq_none, cursor, size]
    cases allocated : (w.closed.afterCollection report (.copying c') m').heap.collector.engine.allocate
        (footprint (d.fixedSize + extra)) with
    | some pair =>
      have later := Heap.obtainBlock_later waits collected
      simp only [allocated] at later
      obtain ⟨w', -, served⟩ := Heap.allocate_admits healthy registered small books' formed' rfl allocated later
      refine .inl ⟨Nat.le_of_not_lt fun beyond => ?_, _, w', served⟩
      cases (none.2 beyond).symm.trans allocated
    | none =>
      have refused := Heap.allocate_refused healthy registered small waits collected allocated
      have available : (w.closed.afterCollection report (.copying c') m').heap.availableBytes = c.spaces.size - bytes := by
        rw [← cursor, ← size]
        rfl
      rw [available] at refused
      exact .inr ⟨none.1 allocated, _, refused⟩
  · obtain ⟨block, e, allocated, now⟩ := Heap.obtainBlock_now waits
    obtain ⟨w', -, served⟩ := Heap.allocate_admits healthy registered small books.close (formed.close books) rfl
      allocated now
    refine .inl ⟨?_, _, w', served⟩
    have fits : ¬ c.spaces.active.size < c.spaces.active.cursor + footprint (d.fixedSize + extra) := by
      rw [← allocate_eq_none, ← engine]
      exact fun none => Option.some_ne_none _ (allocated.symm.trans none)
    omega

end Copying

end TracingHeap
