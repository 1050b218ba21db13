import TracingHeap.Proofs.Heap.Dangling
import TracingHeap.Proofs.Heap.Failure
import TracingHeap.Proofs.Heap.Registries
import TracingHeap.Proofs.Statistics.Engines

/-! Counting what can be reached.

A census follows the references and remembers where it has been. Collectors go the same way, but one leaves marks in the
headers, and another moves what it finds and leaves in its place where it went. They meet the same objects, so what a
collection reports as left is what a census counts, before it and after it. -/

set_option autoImplicit false

namespace TracingHeap

/-- How many objects can be reached, and how much room their blocks take. -/
def Counted (types : TypeTable) (roots : List Slot) (m : Memory) (found : Census) : Prop :=
  ∃ l : List Nat, l.Nodup ∧ (∀ p, p ∈ l ↔ Reach types roots m p) ∧ found = ⟨l.length, (l.map m.blockSize).sum⟩

section

variable {types : TypeTable} {roots : List Slot} {held : Nat → Prop} {m m' : Memory} {f : Nat → Nat}
  {found found' : Census}

theorem Counted.unique (counted : Counted types roots m found) (counted' : Counted types roots m found') :
    found' = found := by
  obtain ⟨l, nodup, members, rfl⟩ := counted
  obtain ⟨l', nodup', members', rfl⟩ := counted'
  have same : l'.Perm l := (List.perm_ext_iff_of_nodup nodup' nodup).2 fun p => (members' p).trans (members p).symm
  rw [same.length_eq, (same.map m.blockSize).sum_nat]

/-- It is what a census finds. -/
theorem Consistent.counted (consistent : Consistent types roots held m) :
    ∃ found, types.census roots m = .ok found ∧ Counted types roots m found := by
  obtain ⟨reached, nodup, members, ran⟩ := consistent.census_ok
  exact ⟨_, ran, reached, nodup, members, rfl⟩

theorem Consistent.census_eq (consistent : Consistent types roots held m) (counted : Counted types roots m found) :
    types.census roots m = .ok found := by
  obtain ⟨found', ran, counted'⟩ := consistent.counted
  obtain rfl := counted.unique counted'
  exact ran

/-- A collection does not change it. -/
theorem Relocation.counted (relocation : Relocation types roots m m' f) (consistent : Consistent types roots held m)
    (value : ∀ p, Reach types roots m p → f p ≠ 0) (counted : Counted types roots m found) :
    Counted types roots m' found := by
  obtain ⟨l, nodup, members, rfl⟩ := counted
  have sizes : (l.map f).map m'.blockSize = l.map m.blockSize := by
    rw [List.map_map]
    exact List.map_congr_left fun p member => congrArg footprint (relocation.size p ((members p).1 member))
  refine ⟨l.map f, ?_, fun q => ?_, ?_⟩
  · refine (List.nodup_map_iff_inj_on nodup).2 fun p member p' member' equal => ?_
    exact relocation.injective p p' ((members p).1 member) ((members p').1 member') equal
  · rw [relocation.reach_iff consistent value, List.mem_map]
    exact exists_congr fun p => and_congr_left fun _ => members p
  · rw [List.length_map, sizes]

end

namespace World

/-- The objects that the roots lead to, counted. -/
abbrev Counted (w : World) (found : Census) : Prop :=
  TracingHeap.Counted w.heap.types w.heap.roots.slots w.memory found

theorem Headed.tidy {w : World} (headed : w.Headed) (books : w.Books) : w.Tidy where
  charted := headed.charted books
  books := fun _ => books
  unmarked := fun _ => headed.unmarked

/-- What a collection reports as left, and what is counted after it, is what has been counted before. -/
structure Tallies (w : World) (found : Census) (report : CollectionReport) (w' : World) : Prop where
  counted : w'.Counted found
  census : Heap.census w' = .ok found w'
  objects : w.heap.strategy ≠ .leaky → report.objectsLive = found.objects
  bytes : w.heap.strategy = .copying → report.bytesLive = found.bytes

end World

namespace Engine

variable {w : World} {report : CollectionReport} {e : Engine} {m : Memory} {found : Census}

/-- Behind a collection that traces, everything that is held can be reached. -/
theorem reach_of_held (books : w.Books) (formed : w.WellFormed) (traces : w.heap.collector.engine.strategy ≠ .leaky)
    (ran : Engine.collect w.heap.types w.heap.roots.slots (w.heap.collector.engine, w.memory) = .ok report (e, m))
    (q : Nat) (held : e.Held q) : Reach w.heap.types w.heap.roots.slots m q := by
  cases engine : w.heap.collector.engine with
  | markSweep c =>
    have ran' := ran
    rw [engine] at ran'
    cases collected : c.collect w.heap.types w.heap.roots.slots w.memory <;>
      simp only [Engine.collect, collected] at ran' <;> cases ran'
    exact (MarkSweep.collect_leaves_reachable books engine formed ran).2.2.1 q held
  | copying c =>
    have spec := Copying.moves books engine (formed.rooted books engine)
    cases order : copyOrder w.heap.types w.heap.roots.slots w.memory c.spaces.size with
    | none =>
      rw [order] at spec
      obtain ⟨p, target, c', m', failed⟩ := spec
      cases ran.symm.trans failed
    | some l =>
      rw [order] at spec
      obtain ⟨c', m', collected, -, moved⟩ := spec
      cases ran.symm.trans collected
      obtain ⟨p, member, rfl⟩ := (moved.resident q).1 held
      have value (p : Nat) (_ : Reach w.heap.types w.heap.roots.slots w.memory p) :=
        Copying.copyOf_ne_zero c.spaces.reserve w.memory l p
      exact (moved.relocation.reach_iff (formed.consistent books) value).2 ⟨p, (moved.reach p).1 member, rfl⟩
  | leaky c => exact absurd (by rw [engine]; rfl) traces

/-- Where everything that is held can be reached, it is counted. -/
theorem counted_of_held {types : TypeTable} {roots : List Slot} (consistent : Consistent types roots e.Held m)
    (all : ∀ q, e.Held q → Reach types roots m q) :
    Counted types roots m ⟨e.objectCount, (e.list.map m.blockSize).sum⟩ := by
  refine ⟨e.list, e.sorted_list.imp Nat.ne_of_lt, fun p => ?_, by rw [length_list]⟩
  rw [mem_list]
  exact ⟨all p, consistent.held_of_reach⟩

/-- A collection that moves has left nothing else in the space that it has filled. -/
theorem liveBytes_of_copying {types : TypeTable} (charted : e.Charted types m) (moves : e.strategy = .copying) :
    (e.list.map m.blockSize).sum = e.liveBytes := by
  cases e with
  | copying c => exact charted.total rfl
  | markSweep c => cases moves
  | leaky c => cases moves

/-- A collection that finds an order succeeds. As much can be reached after it as before. -/
theorem collect_counted (books : w.Books) (formed : w.WellFormed) (ordered : w.Ordered) (counted : w.Counted found) :
    ∃ report e m,
      Engine.collect w.heap.types w.heap.roots.slots (w.heap.collector.engine, w.memory) = .ok report (e, m) ∧
      (w.afterCollection report e m).WellFormed ∧ e.strategy = w.heap.collector.engine.strategy ∧
      (w.afterCollection report e m).Counted found := by
  obtain ⟨report, e, m, f, outcome⟩ := Engine.outcome books formed ordered
  have consistent := outcome.formed.consistent (books.afterCollection outcome.ran)
  have value (p : Nat) (reach : Reach w.heap.types w.heap.roots.slots w.memory p) : f p ≠ 0 :=
    Nat.ne_of_gt (Nat.lt_of_lt_of_le (by decide) (consistent.low (outcome.held p reach)))
  exact ⟨report, e, m, outcome.ran, outcome.formed, outcome.strategy,
    outcome.relocation.counted (formed.consistent books) value counted⟩

end Engine

namespace Heap

variable {w : World} {found : Census}

theorem census_eq (books : w.Books) (formed : w.WellFormed) (counted : w.Counted found) :
    census w = .ok found w := by
  simp only [census, look, (formed.consistent books).census_eq counted]

/-- If a collection of a well-formed heap fails, it has stopped at an empty object. -/
theorem collect_stopped (books : w.Books) (healthy : w.heap.poisoned = none) (formed : w.WellFormed)
    (stuck : ¬ w.Ordered) : ∃ x w', collect w = .error x w' ∧ w.Stopped x := by
  simp only [World.Ordered, not_forall, not_exists] at stuck
  obtain ⟨c, engine, none⟩ := stuck
  obtain ⟨p, target, w', failed, -⟩ := Copying.collect_stuck books engine (formed.rooted books engine) healthy
    (Option.eq_none_iff_forall_ne_some.2 none)
  refine ⟨_, w', failed, ?_⟩
  cases complaint_of_collect books healthy formed.headed (by rw [engine]; nofun) failed with
  | empty moves met holds empty => exact ⟨p, target, rfl, moves, met, holds, empty⟩

/-- Otherwise it agrees with a census. -/
theorem collect_tallies (reached : Reached w) (healthy : w.heap.poisoned = none) (formed : w.WellFormed)
    (ordered : w.Ordered) (counted : w.Counted found) :
    ∃ report w', collect w = .ok report w' ∧ w.Tallies found report w' := by
  have books := reached.orderly healthy
  obtain ⟨report, e, m, ran, formed', strategy, counted'⟩ := Engine.collect_counted books formed ordered counted
  have books' := books.afterCollection ran
  have outside : w.RootsOutside := fun _ => formed.outside
  obtain ⟨-, -, objectsLive, bytesLive, -⟩ := Engine.balances formed.headed.labelled books reached.complete
    reached.spaces_aligned outside.aligned ran
  have left (traces : w.heap.strategy ≠ .leaky) : found = ⟨e.objectCount, (e.list.map m.blockSize).sum⟩ := by
    have all := Engine.reach_of_held books formed traces ran
    exact (Engine.counted_of_held (formed'.consistent books') all).unique counted'
  refine ⟨report, _, (collect_eq healthy).trans (runCollection_ok books ran formed'), counted',
    census_eq books' formed' counted', fun traces => ?_, fun moves => ?_⟩
  · rw [left traces]
    exact objectsLive.symm
  · rw [left (by rw [moves]; decide)]
    exact bytesLive.symm.trans
      (Engine.liveBytes_of_copying (formed'.headed.charted books') (strategy.trans moves)).symm

-- The census does not look at what the collectors hold, and only one of them leaves the addresses as they were.
/-- In every well-formed state that a heap can reach, a census counts the objects that the roots lead to, and the room
that they take. After a collection it counts as much. One that traces reports as many objects as left, and one that
moves reports as many bytes. Only where the objects to move have no order does a collection stop at an empty one. -/
theorem census_agrees (reached : Reached w) (healthy : w.heap.poisoned = none) (formed : w.WellFormed) :
    ∃ found, w.Counted found ∧ census w = .ok found w ∧
      (w.Ordered → ∃ report w', collect w = .ok report w' ∧ w.Tallies found report w') ∧
      (¬ w.Ordered → ∃ x w', collect w = .error x w' ∧ w.Stopped x) := by
  have books := reached.orderly healthy
  obtain ⟨found, -, counted⟩ := (formed.consistent books).counted
  exact ⟨found, counted, census_eq books formed counted,
    fun ordered => collect_tallies reached healthy formed ordered counted, collect_stopped books healthy formed⟩

/-- Two objects lead to each other, both are in roots, and nothing leads to a third one. -/
theorem census_agrees_around_loop : ∃ w report w', Reached w ∧ w.heap.poisoned = none ∧ w.WellFormed ∧
    w.heap.strategy = .copying ∧ w.heap.objectCount = 3 ∧ census w = .ok ⟨2, 64⟩ w ∧ collect w = .ok report w' ∧
    census w' = .ok ⟨2, 64⟩ w' ∧ report.objectsLive = 2 ∧ report.bytesLive = 64 := by
  have ran : ((World.play (fun w _ => w.heap.poisoned = none) { strategy := .copying, heapSize := 4096 } 2
      [.call (.register .link Descriptor.link_isWords), .call .pushRoot, .call (.addRoot ⟨0, 0⟩ (.cell 0)),
        .call (.addRoot ⟨0, 0⟩ (.cell 1)), .call (.allocate ⟨1⟩ 0), .call (.allocate ⟨1⟩ 0), .call (.allocate ⟨1⟩ 0),
        .setCell 0 (Memory.origin + 24), .setCell 1 (Memory.origin + 88),
        .writeWord (Memory.origin + 24) 0 (Memory.origin + 88),
        .writeWord (Memory.origin + 88) 0 (Memory.origin + 24)]).any fun w =>
      w.onCopying fun c => w.heap.poisoned = none ∧ w.WellFormed ∧ w.heap.objectCount = 3 ∧ w.heap.roots.slots.Nodup ∧
        w.heap.types.census w.heap.roots.slots w.memory = .ok ⟨2, 64⟩ ∧
        (CopyOrder.followAll w.memory.isEmpty [] (w.heap.roots.slots.map w.memory.slot)).bind
          (CopyOrder.scan w.memory.isEmpty (w.heap.types.references w.memory) c.spaces.size 0) =
            some [Memory.origin + 24, Memory.origin + 88]) = true := by
    decide +kernel
  obtain ⟨w, played, shown⟩ := (Option.any_eq_true _ _).1 ran
  obtain ⟨c, engine, shown⟩ := World.onCopying_eq_true.1 shown
  obtain ⟨healthy, formed, objects, nodup, counted, order⟩ := of_decide_eq_true shown
  have reached := Reached.of_play played
  have ordered : w.Ordered := by
    intro c' engine'
    cases engine.symm.trans engine'
    exact ⟨_, by rw [copyOrder, distinctSlots_of_nodup nodup, order]⟩
  obtain ⟨found, -, before, agrees, -⟩ := census_agrees reached healthy formed
  obtain ⟨report, w', collected, -, again, live, bytes⟩ := agrees ordered
  have first : census w = .ok ⟨2, 64⟩ w := by simp only [census, look, counted]
  cases first.symm.trans before
  have moves : w.heap.strategy = .copying := by rw [strategy, engine]; rfl
  exact ⟨w, report, w', reached, healthy, formed, moves, objects, first, collected, again,
    live (by rw [moves]; decide), bytes moves⟩

/-- An object without payload is in two roots, and there is an array behind it in a third one. The collection fails, and
the objects can no longer be counted. -/
theorem census_loses_empty : ∃ w w' p target, Reached w ∧ w.heap.poisoned = none ∧ w.WellFormed ∧
    w.heap.strategy = .copying ∧ w.Counted ⟨2, 56⟩ ∧ census w = .ok ⟨2, 56⟩ w ∧
    collect w = .error (.corrupted p (.danglingForward target)) w' ∧
    census w' = .error (.corrupted p (.badState 2)) w' := by
  have ran : ((World.play (fun w _ => w.heap.poisoned = none) { strategy := .copying, heapSize := 4096 } 3
      [.call (.register .empty Descriptor.empty_isWords), .call (.register .references Descriptor.references_isWords),
        .call .pushRoot, .call (.addRoot ⟨0, 0⟩ (.cell 0)), .call (.addRoot ⟨0, 0⟩ (.cell 1)),
        .call (.addRoot ⟨0, 0⟩ (.cell 2)), .call (.allocate ⟨1⟩ 0), .setCell 0 (Memory.origin + 24),
        .setCell 1 (Memory.origin + 24), .call (.allocateArray ⟨2⟩ 0), .setCell 2 (Memory.origin + 48)]).any fun w =>
      w.onCopying fun c => w.heap.poisoned = none ∧ w.WellFormed ∧ w.heap.roots.slots.Nodup ∧
        w.heap.types.census w.heap.roots.slots w.memory = .ok ⟨2, 56⟩ ∧
        let moved := Copying.evacuateSlots w.heap.types w.heap.roots.slots c.resident
          { memory := w.memory, reserve := c.spaces.reserve }
        answer moved = .error (.corrupted (Memory.origin + 24) (.danglingForward (Memory.base 1 + 24))) ∧
          w.heap.types.census w.heap.roots.slots (after moved).memory =
            .error (.corrupted (Memory.origin + 24) (.badState 2))) = true := by
    decide +kernel
  obtain ⟨w, played, shown⟩ := (Option.any_eq_true _ _).1 ran
  obtain ⟨c, engine, shown⟩ := World.onCopying_eq_true.1 shown
  obtain ⟨healthy, formed, nodup, found, stuck, lost⟩ := of_decide_eq_true shown
  have reached := Reached.of_play played
  obtain ⟨found', found'', counted⟩ := (formed.consistent (reached.orderly healthy)).counted
  cases found.symm.trans found''
  obtain ⟨e, failed⟩ := Copying.engine_of_stuck engine nodup stuck
  refine ⟨w, _, _, _, reached, healthy, formed, by rw [strategy, engine]; rfl, counted, ?_,
    (collect_eq healthy).trans (runCollection_interrupted healthy failed), ?_⟩
  · simp only [census, look, found]
  · simp only [census, look, World.interrupted, lost]

end Heap

end TracingHeap
