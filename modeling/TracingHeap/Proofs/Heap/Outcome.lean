import TracingHeap.Proofs.Copying.Collection
import TracingHeap.Proofs.Copying.Rooted
import TracingHeap.Proofs.MarkSweep.Exactness
import TracingHeap.Proofs.Occupancy

/-! Collections of heaps in which only the headers are in order.

The words in the roots and in the objects may be anything. A collection that traces either fails because of what it
has met, or it leaves a well-formed heap. -/

set_option autoImplicit false

namespace TracingHeap

namespace World

-- The last cause is not in the heap: an object without payload that was copied last is not recognized when it is met
-- again.
/-- Why a collection fails. -/
inductive Complaint (w : World) : Failure → Prop
  | dangling {p : Nat} : w.Met p → ¬ w.heap.collector.engine.Held p → Complaint w (.corrupted p .danglingReference)
  | overflow {p place count capacity : Nat} : w.Met p → w.heap.collector.engine.Held p →
      w.heap.types.excess w.memory p = some (count, capacity) →
      Complaint w (.corrupted place (.regionOverflow count capacity))
  | empty {p target : Nat} : w.heap.collector.engine.strategy = .copying → w.Met p → w.heap.collector.engine.Held p →
      w.memory.isEmpty p = true → Complaint w (.corrupted p (.danglingForward target))

/-- What a collection leaves behind that succeeds. -/
structure Renewed (w : World) (report : CollectionReport) (e : Engine) (m : Memory) : Prop where
  formed : (w.afterCollection report e m).WellFormed
  met : ∀ p, w.Met p → w.heap.collector.engine.Held p
  listed : ∀ p, w.Met p → ∃ slots, w.heap.types.tracedSlots w.memory p = .ok slots
  objects : report.objectsLive = e.list.length
  bytes : Occupied w.heap.types w.heap.roots.slots w.memory (e.list.map m.blockSize).sum

end World

variable {w : World}

theorem World.Complaint.corrupted {x : Failure} (complaint : w.Complaint x) : ∃ p defect, x = .corrupted p defect := by
  cases complaint with
  | dangling => exact ⟨_, _, rfl⟩
  | overflow => exact ⟨_, _, rfl⟩
  | empty => exact ⟨_, _, rfl⟩

/-- The headers of the residents are right, so all of them may be moved. -/
theorem World.Labelled.sized (labelled : w.Labelled) {c : Copying} (engine : w.heap.collector.engine = .copying c) :
    c.Sized w.heap.types w.memory (c.resident.contains · = true) := by
  have typed := labelled.typed
  have fits := labelled.fits
  have unmarked := labelled.unmarked
  rw [engine] at typed fits unmarked
  have extent (p : Nat) (holds : c.resident.contains p = true) : w.memory.extent p = w.memory.blockSize p :=
    Memory.extent_of_unmarked (unmarked p holds)
  constructor
  case typed => exact fun p holds _ => typed p holds
  case within =>
    intro p holds
    rw [extent p holds]
    exact Tiled.bounds fits (Std.TreeSet.mem_toList.2 holds)
  case apart =>
    intro p q first second less
    rw [extent p first]
    exact Tiled.apart fits (Std.TreeSet.mem_toList.2 first) (Std.TreeSet.mem_toList.2 second) less

theorem World.Headed.sized (headed : w.Headed) {c : Copying} (engine : w.heap.collector.engine = .copying c) :
    c.Sized w.heap.types w.memory (c.resident.contains · = true) := headed.labelled.sized engine

namespace MarkSweep

variable {c : MarkSweep} (books : w.Books) (headed : w.Headed) (engine : w.heap.collector.engine = .markSweep c)

include books headed engine

theorem renews {marks : List Nat} (found : c.survivors w.heap.types w.heap.roots.slots w.memory = .ok marks) :
    ∃ e m, Engine.collect w.heap.types w.heap.roots.slots (w.heap.collector.engine, w.memory) =
      .ok (c.reportOf marks) (e, m) ∧ w.Renewed (c.reportOf marks) e m := by
  have intact := headed.intact books
  rw [engine] at intact
  obtain ⟨reach, marksHeld, listed⟩ := found ▸ survivors_spec intact w.heap.roots.slots
  obtain ⟨c', m', ran, collected, relocation, formed⟩ := collect_settles books headed engine found
  have owns (p : Nat) : p ∈ c'.objects ↔ Reach w.heap.types w.heap.roots.slots w.memory p :=
    (Engine.mem_list (e := .markSweep c')).trans
      (collected.owns_iff (fun p led => marksHeld p ((reach p).2 led)) p)
  refine ⟨.markSweep c', m', by rw [engine]; simp only [Engine.collect, ran], formed, fun p met => ?_,
    fun p met => listed p ((reach p).2 met.reach), collected.objectsLive reach, c'.objects, ?_, owns, ?_⟩
  · rw [engine]
    exact marksHeld p ((reach p).2 met.reach)
  · exact List.pairwise_map.2 (c'.records.nodup_keys.imp fun different same => different (Nat.add_right_cancel same))
  · refine congrArg List.sum (List.map_congr_left fun p member => ?_)
    exact (congrArg footprint (relocation.size p ((owns p).1 member))).symm

theorem complains {x : Failure} (failed : c.survivors w.heap.types w.heap.roots.slots w.memory = .error x) :
    w.Complaint x := by
  have intact := headed.intact books
  rw [engine] at intact
  have spec := survivors_spec intact w.heap.roots.slots
  rw [failed] at spec
  have met (p : Nat) (met : TracingHeap.Met w.heap.types w.heap.roots.slots (c.owns · = true) w.memory p) : w.Met p := by
    unfold World.Met
    rwa [engine]
  rcases spec with ⟨p, rfl, word, lost⟩ | ⟨p, count, capacity, rfl, word, owns, unlisted⟩
  · exact .dangling (met p word) (by rwa [engine])
  · exact .overflow (met p word) (by rwa [engine]) (intact.excess_eq_some owns unlisted)

end MarkSweep

namespace Copying

variable {c : Copying} (books : w.Books) (headed : w.Headed) (engine : w.heap.collector.engine = .copying c)

include books headed engine

theorem footing_of_headed : Footing w.heap.types w.heap.roots.slots c.resident c.spaces.reserve w.memory
    (c.resident.contains · = true) :=
  (headed.sized engine).footing books.regular books.types (engine ▸ books.ledger) (fun _ known => known) headed.outside
    (fun _ _ _ known => known) fun _ _ _ _ _ known => known

/-- A collection that succeeds has copied what can be reached. -/
theorem mem_departures {l : List Nat}
    (found : departures w.heap.types w.heap.roots.slots c.resident c.spaces.reserve w.memory = .ok l) (p : Nat) :
    p ∈ l ↔ Reach w.heap.types w.heap.roots.slots w.memory p := by
  have footing := footing_of_headed books headed engine
  have ledger := books.ledger
  have unmarked := headed.unmarked
  rw [engine] at ledger unmarked
  have spec := evacuateAll_spec footing ledger.1.empty
  have reached := departures_spec footing
  rw [found] at spec reached
  obtain ⟨e, done, -, arrived⟩ := spec
  refine ⟨fun member => (reached p member).1.reach, fun reach => ?_⟩
  refine (arrived.copied_or_forwarded footing reach).resolve_right fun left => ?_
  cases left.2.1.symm.trans (unmarked p left.1)

theorem renews {l : List Nat}
    (found : departures w.heap.types w.heap.roots.slots c.resident c.spaces.reserve w.memory = .ok l) :
    ∃ e m, Engine.collect w.heap.types w.heap.roots.slots (w.heap.collector.engine, w.memory) =
      .ok (c.movedReport l (l.map w.memory.blockSize).sum) (e, m) ∧
      w.Renewed (c.movedReport l (l.map w.memory.blockSize).sum) e m := by
  have footing := footing_of_headed books headed engine
  have spec := collect_settles books engine footing (headed.sized engine).typed
  rw [found] at spec
  obtain ⟨e, done, c', m', ran, arrived, settles, formed⟩ := spec
  have moved := mem_departures books headed engine found
  have list : c'.resident.toList = l.map (copyOf c.spaces.reserve w.memory l) := by
    rw [settles.resident]
    exact arrived.toList_copies footing settles.shape settles.same
  refine ⟨.copying c', m', ran, formed, fun p met => ?_, fun p met => ?_, ?_, l, arrived.nodup,
    moved, ?_⟩
  · rw [engine]
    exact (arrived.reached p ((moved p).2 met.reach)).1
  · have member := (moved p).2 met.reach
    rw [footing.tracedSlots_eq (arrived.reached p member), arrived.counted p member]
    exact ⟨_, rfl⟩
  · show l.length = c'.resident.toList.length
    rw [list, List.length_map]
  · show _ = (c'.resident.toList.map m'.blockSize).sum
    rw [list, List.map_map]
    refine congrArg List.sum (List.map_congr_left fun p member => ?_)
    exact (arrived.blockSize_eq footing settles.shape settles.same member).symm

theorem complains {x : Failure}
    (failed : departures w.heap.types w.heap.roots.slots c.resident c.spaces.reserve w.memory = .error x) :
    w.Complaint x := by
  have objection := departures_spec (footing_of_headed books headed engine)
  rw [failed] at objection
  have unmarked := headed.unmarked
  rw [engine] at unmarked
  have met {p : Nat} (met : Encountered w.heap.types w.heap.roots.slots c.resident w.memory p) : w.Met p := by
    unfold World.Met
    rw [engine]
    exact met.mono fun _ movable => movable.1
  have held {p : Nat} (known : c.resident.contains p = true) : w.heap.collector.engine.Held p := by rwa [engine]
  cases objection with
  | dangling word lost => exact .dangling (met word) (by rwa [engine])
  | damaged word known damaged => exact absurd (unmarked _ known) damaged
  | overflow word movable excess => exact .overflow (met word) (held movable.1) excess
  | empty word movable empty => exact .empty (by rw [engine]; rfl) (met word) (held movable.1) empty

end Copying

/-- What a collection comes to: a report on it, or why it fails. -/
def Engine.verdict (types : TypeTable) (roots : List Slot) (m : Memory) : Engine → Reading CollectionReport
  | markSweep c => (c.survivors types roots m).map c.reportOf
  | copying c => (departures types roots c.resident c.spaces.reserve m).map fun l => c.movedReport l (l.map m.blockSize).sum
  | leaky c => .ok c.report

/-- What a collection of the heap comes to. -/
abbrev World.verdict (w : World) : Reading CollectionReport :=
  w.heap.collector.engine.verdict w.heap.types w.heap.roots.slots w.memory

/-- A collection that traces leaves a well-formed heap, or fails because of what it has met. -/
theorem Engine.collect_headed (books : w.Books) (headed : w.Headed)
    (traces : w.heap.collector.engine.strategy ≠ .leaky) :
    match w.verdict with
    | .ok report => ∃ e m, Engine.collect w.heap.types w.heap.roots.slots (w.heap.collector.engine, w.memory) =
        .ok report (e, m) ∧ w.Renewed report e m
    | .error x => w.Complaint x ∧
        ∃ e m, Engine.collect w.heap.types w.heap.roots.slots (w.heap.collector.engine, w.memory) = .error x (e, m) := by
  unfold World.verdict
  cases engine : w.heap.collector.engine with
  | markSweep c =>
    rw [← engine]
    cases found : c.survivors w.heap.types w.heap.roots.slots w.memory with
    | ok marks =>
      simp only [engine, verdict, found, Except.map]
      exact engine ▸ MarkSweep.renews books headed engine found
    | error x =>
      simp only [engine, verdict, found, Except.map]
      refine ⟨MarkSweep.complains books headed engine found, .markSweep c, ?_⟩
      exact engine ▸ MarkSweep.collect_stops books headed engine found
  | copying c =>
    cases found : departures w.heap.types w.heap.roots.slots c.resident c.spaces.reserve w.memory with
    | ok l =>
      simp only [verdict, found, Except.map]
      exact engine ▸ Copying.renews books headed engine found
    | error x =>
      have spec := Copying.collect_settles books engine (Copying.footing_of_headed books headed engine)
        (headed.sized engine).typed
      rw [found, engine] at spec
      obtain ⟨c', m, ran⟩ := spec
      simp only [verdict, found, Except.map]
      exact ⟨Copying.complains books headed engine found, .copying c', m, ran⟩
  | leaky c => exact absurd (by rw [engine]; rfl) traces

namespace Heap

/-- So does the collection of a heap, whether it checks the heap afterwards or not. -/
theorem collect_headed (books : w.Books) (healthy : w.heap.poisoned = none) (headed : w.Headed)
    (traces : w.heap.collector.engine.strategy ≠ .leaky) :
    match w.verdict with
    | .ok report => ∃ e m, Engine.collect w.heap.types w.heap.roots.slots (w.heap.collector.engine, w.memory) =
        .ok report (e, m) ∧ collect w = .ok report (w.afterCollection report e m) ∧ w.Renewed report e m
    | .error x => w.Complaint x ∧ ∃ e w', x = .violation e ∧ collect w = .error x w' ∧ w'.heap.poisoned = some e := by
  have spec := Engine.collect_headed books headed traces
  cases verdict : w.verdict with
  | ok report =>
    rw [verdict] at spec
    obtain ⟨e, m, ran, renewed⟩ := spec
    exact ⟨e, m, ran, collect_ok healthy books ran renewed.formed, renewed⟩
  | error x =>
    rw [verdict] at spec
    obtain ⟨complaint, e, m, ran⟩ := spec
    obtain ⟨p, defect, rfl⟩ := complaint.corrupted
    obtain ⟨w', failed, poisoned⟩ := collect_error healthy ran
    exact ⟨complaint, _, w', rfl, failed, poisoned⟩

theorem verdict_of_collect (books : w.Books) (healthy : w.heap.poisoned = none) (headed : w.Headed)
    (traces : w.heap.collector.engine.strategy ≠ .leaky) {report : CollectionReport} {w' : World}
    (ran : collect w = .ok report w') : w.verdict = .ok report := by
  have spec := collect_headed books healthy headed traces
  cases verdict : w.verdict with
  | ok report' =>
    rw [verdict] at spec
    obtain ⟨e, m, -, collected, -⟩ := spec
    cases ran.symm.trans collected
    rfl
  | error x =>
    rw [verdict] at spec
    obtain ⟨-, _, _, -, failed, -⟩ := spec
    cases ran.symm.trans failed

theorem complaint_of_collect (books : w.Books) (healthy : w.heap.poisoned = none) (headed : w.Headed)
    (traces : w.heap.collector.engine.strategy ≠ .leaky) {x : Failure} {w' : World} (failed : collect w = .error x w') :
    w.Complaint x := by
  have spec := collect_headed books healthy headed traces
  cases verdict : w.verdict with
  | ok report =>
    rw [verdict] at spec
    obtain ⟨e, m, -, collected, -⟩ := spec
    cases failed.symm.trans collected
  | error x =>
    rw [verdict] at spec
    obtain ⟨complaint, _, _, -, stopped, -⟩ := spec
    cases failed.symm.trans stopped
    exact complaint

theorem renewed_of_collect (books : w.Books) (healthy : w.heap.poisoned = none) (headed : w.Headed)
    (traces : w.heap.collector.engine.strategy ≠ .leaky) {report : CollectionReport} {w' : World}
    (ran : collect w = .ok report w') :
    ∃ e m, Engine.collect w.heap.types w.heap.roots.slots (w.heap.collector.engine, w.memory) = .ok report (e, m) ∧
      w' = w.afterCollection report e m ∧ w.Renewed report e m := by
  have spec := collect_headed books healthy headed traces
  rw [verdict_of_collect books healthy headed traces ran] at spec
  obtain ⟨e, m, stepped, collected, renewed⟩ := spec
  cases ran.symm.trans collected
  exact ⟨e, m, stepped, rfl, renewed⟩

end Heap

end TracingHeap
