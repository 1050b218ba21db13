import TracingHeap.Collector.Copying
import TracingHeap.Proofs.Computation
import TracingHeap.Proofs.Memory.Words

/-! The books of a collector that moves.

Its two spaces lie in different arenas, and the reserve is empty between collections. This does not depend on
what is in the memory. -/

set_option autoImplicit false

namespace TracingHeap

-- A relation between states instead of an invariant: nothing is known of the state that a collection of a
-- corrupted heap starts from, except that the steps lead on from it.
/-- What every step of a collection keeps. -/
structure Evacuation.Grown (e e' : Evacuation) : Prop where
  shape : e.memory.SameShape e'.memory
  start : e'.reserve.start = e.reserve.start
  size : e'.reserve.size = e.reserve.size
  room : e.reserve.cursor ≤ e.reserve.size → e'.reserve.cursor ≤ e'.reserve.size

namespace Evacuate

open Evacuation

variable {α : Type}

theorem grown_refl (e : Evacuation) : Grown e e := ⟨.refl _, rfl, rfl, id⟩

theorem grown_trans (e e' e'' : Evacuation) (first : Grown e e') (second : Grown e' e'') : Grown e e'' :=
  ⟨first.shape.trans second.shape, second.start.trans first.start, second.size.trans first.size,
    fun room => second.room (first.room room)⟩

theorem look_ok {f : Memory → Reading α} {e : Evacuation} {a : α} (read : f e.memory = .ok a) :
    look f e = .ok a e := by
  simp only [look, read]

theorem look_error {f : Memory → Reading α} {e : Evacuation} {x : Failure} (failed : f e.memory = .error x) :
    look f e = .error x e := by
  simp only [look, failed]

theorem access_ok {act : Access α} {e : Evacuation} {a : α} {m : Memory} (ran : act e.memory = .ok a m) :
    access act e = .ok a { e with memory := m } := by
  simp only [access, ran]

theorem access_error {act : Access α} {e : Evacuation} {x : Failure} {m : Memory} (failed : act e.memory = .error x m) :
    access act e = .error x { e with memory := m } := by
  simp only [access, failed]

theorem always_look (f : Memory → Reading α) : Always Grown (look f) := by
  intro e
  unfold look
  cases f e.memory <;> exact grown_refl e

theorem always_access {act : Access α} (always : Always Memory.SameShape act) : Always Grown (access act) := by
  intro e
  cases ran : act e.memory with
  | ok a m =>
    rw [access_ok ran]
    exact ⟨always.of_ok ran, rfl, rfl, id⟩
  | error x m =>
    rw [access_error ran]
    exact ⟨always.of_error ran, rfl, rfl, id⟩

theorem always_allot (size : Nat) : Always Grown (allot size) := by
  intro e
  unfold allot Space.bump
  by_cases fits : e.reserve.cursor + size ≤ e.reserve.size
  · rw [if_pos fits]
    exact ⟨.refl _, rfl, rfl, fun _ => fits⟩
  · rw [if_neg fits]
    exact grown_refl e

theorem always_noteDeparture (p : Nat) : Always Grown (noteDeparture p) := by
  intro e
  unfold noteDeparture
  cases e.forwarded.contains p
  · exact ⟨.refl _, rfl, rfl, id⟩
  · exact grown_refl e

theorem always_noteCopy (p size : Nat) : Always Grown (noteCopy p size) := fun _ => ⟨.refl _, rfl, rfl, id⟩

theorem always_evacuate (p : Nat) (h : Header) : Always Grown (evacuate p h) := by
  have refl (m : Memory) : m.SameShape m := .refl m
  have trans (m m' m'' : Memory) (first : m.SameShape m') (second : m'.SameShape m'') := first.trans second
  unfold evacuate
  refine .bind grown_trans (always_noteDeparture p) fun _ => ?_
  refine .bind grown_trans (always_allot h.footprint) fun block => ?_
  refine .bind grown_trans (always_access ?_) fun _ => ?_
  · refine .bind trans (Access.always_look refl _) fun source => ?_
    refine .bind trans (Access.always_guarded refl fun m => Memory.sameShape_store m _ source) fun _ => ?_
    apply Access.always_guarded refl
    intro m
    exact (Memory.sameShape_setByte m _ _).trans (Memory.sameShape_setWord _ _ _)
  · exact .bind grown_trans (always_noteCopy _ _) fun _ => .pure grown_refl _

theorem always_destination (resident : Std.TreeSet Nat) (p : Nat) : Always Grown (destination resident p) := by
  unfold destination
  cases resident.contains p
  · exact .throw_bind grown_refl _ _
  · refine .bind grown_trans (always_look _) fun (h, s) => ?_
    cases s with
    | unmarked => exact always_evacuate p h
    | marked => exact .throw grown_refl _
    | forwarded =>
      refine .bind grown_trans (.get grown_refl) fun e => ?_
      split
      · exact .pure grown_refl _
      · exact .throw grown_refl _

theorem always_forwardSlot (resident : Std.TreeSet Nat) (s : Slot) : Always Grown (forwardSlot resident s) := by
  unfold forwardSlot
  refine .bind grown_trans (always_look _) fun word => ?_
  split
  · refine .bind grown_trans (always_destination resident word) fun target => always_access ?_
    exact Access.always_storeSlot (fun m => .refl m) fun m => Memory.sameShape_setSlot m s target
  · exact .pure grown_refl _

theorem always_forwardSlots (resident : Std.TreeSet Nat) (slots : List Slot) :
    Always Grown (forwardSlots resident slots) := by
  induction slots with
  | nil => exact .pure grown_refl _
  | cons s rest ih => exact .bind grown_trans (always_forwardSlot resident s) fun _ => ih

theorem always_forwardElements (resident : Std.TreeSet Nat) (d : Descriptor) (p index count : Nat) :
    Always Grown (forwardElements resident d p index count) := by
  induction count generalizing index with
  | zero => exact .pure grown_refl _
  | succ count ih => exact .bind grown_trans (always_forwardSlot resident _) fun _ => ih (index + 1)

theorem always_scanObject (types : TypeTable) (resident : Std.TreeSet Nat) (p : Nat) :
    Always Grown (scanObject types resident p) := by
  unfold scanObject
  refine .bind grown_trans (always_look _) fun (h, d) => ?_
  refine .bind grown_trans (.attempt (always_forwardSlots resident _)) fun fields => ?_
  refine .bind grown_trans (always_look _) fun count => ?_
  cases fields with
  | error e => exact .throw grown_refl e
  | ok _ => exact always_forwardElements resident d p 0 count

theorem always_scan (types : TypeTable) (resident : Std.TreeSet Nat) (rounds block : Nat) :
    Always Grown (scan types resident rounds block) := by
  induction rounds generalizing block with
  | zero =>
    rw [scan]
    refine .bind grown_trans (.get grown_refl) fun e => ?_
    split
    · exact .pure grown_refl _
    · exact .throw grown_refl _
  | succ rounds ih =>
    rw [scan]
    refine .bind grown_trans (.get grown_refl) fun e => ?_
    split
    · exact .pure grown_refl _
    · refine .bind grown_trans (always_look _) fun h => ?_
      exact .bind grown_trans (always_scanObject types resident _) fun _ => ih _

end Evacuate

namespace Copying

variable {types : TypeTable} {roots : List Slot} {c c' : Copying} {m m' : Memory}

structure Ledger (c : Copying) : Prop where
  active : c.spaces.active.size = c.spaces.size
  reserve : c.spaces.reserve.size = c.spaces.size
  room : c.spaces.active.cursor ≤ c.spaces.active.size
  empty : c.spaces.reserve.cursor = 0
  apart : Memory.index c.spaces.active.start ≠ Memory.index c.spaces.reserve.start

theorem always_evacuateAll (types : TypeTable) (roots : List Slot) (resident : Std.TreeSet Nat) :
    Always Evacuation.Grown (evacuateAll types roots resident) := by
  unfold evacuateAll
  refine .bind Evacuate.grown_trans (Evacuate.always_forwardSlots resident _) fun _ => ?_
  exact .bind Evacuate.grown_trans (.get Evacuate.grown_refl) fun e => Evacuate.always_scan types resident _ _

/-- Whatever is in memory, a collection that succeeds leaves the books in order. -/
theorem ledger_collect (ledger : Ledger c) {report : CollectionReport}
    (ran : c.collect types roots m = .ok report (c', m')) : Ledger c' ∧ c'.spaces.size = c.spaces.size ∧
      c'.spaces.active.start = c.spaces.reserve.start ∧ c'.spaces.reserve.start = c.spaces.active.start ∧
      m.SameShape m' := by
  unfold collect at ran
  have grown := always_evacuateAll types roots c.resident { memory := m, reserve := c.spaces.reserve }
  cases evacuated : evacuateAll types roots c.resident { memory := m, reserve := c.spaces.reserve } with
  | error x e => rw [evacuated] at ran; cases ran
  | ok _ e =>
    rw [evacuated] at ran grown
    cases ran
    have shape : m.SameShape e.memory := grown.shape
    have start : e.reserve.start = c.spaces.reserve.start := grown.start
    refine ⟨⟨grown.size.trans ledger.reserve, ledger.active, grown.room ?_, rfl, ?_⟩, rfl, grown.start, rfl,
      shape.trans (Memory.sameShape_clear _ _ _)⟩
    · show c.spaces.reserve.cursor ≤ c.spaces.reserve.size
      rw [ledger.empty]
      exact Nat.zero_le _
    · show Memory.index e.reserve.start ≠ Memory.index c.spaces.active.start
      rw [start]
      exact Ne.symm ledger.apart

end Copying

end TracingHeap
