import TracingHeap.Proofs.Heap.Changes
import TracingHeap.Proofs.Heap.Steady

/-! How the roots are registered.

What a collection does depends on which slots are registered, and not on the frames that they are in, on their order or on
how often each is registered. A collection that does not move leaves the same memory. One that moves puts the objects in
another order, and what it leaves corresponds object by object. Only an object without payload can make a difference: in
one order it may be met again while it is the one copied last, and in another it may not. -/

set_option autoImplicit false

namespace TracingHeap

/-- The same slots are registered. -/
def RootStack.SameSlots (r r' : RootStack) : Prop := ∀ s, s ∈ r'.slots ↔ s ∈ r.slots

namespace World

/-- The heap with other registrations, and the same memory. -/
def rerooted (w : World) (r : RootStack) : World := { w with heap := { w.heap with roots := r } }

/-- The objects of one heap correspond to those of the other, where `f` gives their places there. All of them can be
reached, and every word and byte in them corresponds. -/
structure Isomorphic (w w' : World) (f : Nat → Nat) : Prop where
  reached : ∀ p, w.Held p → Reach w.heap.types w.heap.roots.slots w.memory p
  held : ∀ q, w'.Held q ↔ ∃ p, w.Held p ∧ f p = q
  relocation : Relocation w.heap.types w.heap.roots.slots w.memory w'.memory f

/-- The heaps are the same except for what is registered and for the places of the objects. -/
structure Corresponds (w w' : World) : Prop where
  heap : w'.heap = { w.heap with
    roots := w'.heap.roots
    collector := { w.heap.collector with engine := w'.heap.collector.engine } }
  same : w.heap.collector.engine.strategy ≠ .copying → w.Same w'
  moved : ∀ c, w.heap.collector.engine = .copying c → ∃ c' f, w'.heap.collector.engine = .copying c' ∧
    c'.spaces = c.spaces ∧ w.Isomorphic w' f

-- That the object has been copied last when it is met again is what the failure comes from.
/-- A collection that moves has stopped at an object without payload that it met. -/
def Stopped (w : World) (x : Failure) : Prop :=
  ∃ p target, x = .corrupted p (.danglingForward target) ∧ w.heap.collector.engine.strategy = .copying ∧ w.Met p ∧
    w.Held p ∧ w.memory.isEmpty p = true

variable {w : World} {r : RootStack} (same : w.heap.roots.SameSlots r)

theorem Books.rerooted (books : w.Books) (r : RootStack) : (w.rerooted r).Books :=
  ⟨books.regular, books.types, books.ledger⟩

include same

theorem Headed.rerooted (headed : w.Headed) : (w.rerooted r).Headed :=
  ⟨headed.unmarked, headed.typed, headed.fits, fun s root => headed.outside s ((same s).1 root)⟩

theorem met_rerooted {word : Nat} : (w.rerooted r).Met word ↔ w.Met word :=
  ⟨fun met => Met.congr_roots met same, fun met => Met.congr_roots met fun s => (same s).symm⟩

theorem Stopped.of_rerooted {x : Failure} (stopped : (w.rerooted r).Stopped x) : w.Stopped x := by
  obtain ⟨p, target, rfl, moves, met, holds, empty⟩ := stopped
  exact ⟨p, target, rfl, moves, (met_rerooted same).1 met, holds, empty⟩

-- The first collection has met the same words, so the second cannot object to any of them.
/-- If a collection succeeds, one that fails with the same slots registered has stopped at an empty object. -/
theorem Renewed.stopped (books : w.Books) (headed : w.Headed) {report : CollectionReport} {e : Engine} {m : Memory}
    (renewed : w.Renewed report e m) {x : Failure} (complaint : (w.rerooted r).Complaint x) : w.Stopped x := by
  cases complaint with
  | dangling met lost => exact absurd (renewed.met _ ((met_rerooted same).1 met)) lost
  | overflow met holds excess =>
    obtain ⟨slots, listed⟩ := renewed.listed _ ((met_rerooted same).1 met)
    cases ((headed.intact books).excess_eq_none holds listed).symm.trans excess
  | empty moves met holds empty => exact ⟨_, _, rfl, moves, (met_rerooted same).1 met, holds, empty⟩

end World

variable {w w₁ w₂ : World} {r : RootStack} {report report' : CollectionReport}

section

variable (books : w.Books)

include books

/-- Without empty objects a collection that moves succeeds. -/
theorem Copying.collect_full {c : Copying} (engine : w.heap.collector.engine = .copying c)
    (healthy : w.heap.poisoned = none) (rooted : c.Rooted w.heap.types w.heap.roots.slots w.memory)
    (full : ∀ p ∈ c.resident.toList, w.memory.isEmpty p = false) : ∃ report w', Heap.collect w = .ok report w' := by
  have departure := rooted.departure books.regular books.types (engine ▸ books.ledger)
  have order := departure.consistent.copyOrder_isSome
    (fun p reach => full p (Std.TreeSet.mem_toList.2 (rooted.known reach))) c.spaces.size
  obtain ⟨l, order⟩ := Option.isSome_iff_exists.1 order
  obtain ⟨report, c', m', collected, -⟩ := collect_rooted books engine rooted healthy order
  exact ⟨report, _, collected⟩

variable (headed : w.Headed)

include headed

/-- A collection that has succeeded without moving has found its survivors. -/
theorem MarkSweep.released_of_collect {c : MarkSweep} (engine : w.heap.collector.engine = .markSweep c)
    (ran : Heap.collect w = .ok report w₁) : ∃ marks m₁, report = c.reportOf marks ∧
      (∀ p, p ∈ marks ↔ Reach w.heap.types w.heap.roots.slots w.memory p) ∧
      w₁ = w.afterCollection report (.markSweep (c.released (c.lost marks).reverse)) m₁ ∧
      Collected w.heap.types w.heap.roots.slots c w.memory (c.released (c.lost marks).reverse) m₁ := by
  have healthy := Heap.healthy_of_ok ran
  have intact := headed.intact books
  have verdict := Heap.verdict_of_collect books healthy headed (by rw [engine]; nofun) ran
  rw [engine] at intact
  rw [World.verdict, engine, Engine.verdict] at verdict
  cases found : c.survivors w.heap.types w.heap.roots.slots w.memory with
  | error x => rw [found] at verdict; cases verdict
  | ok marks =>
    obtain ⟨m₁, stepped, collected, -, formed⟩ := collect_releases books engine headed found
    cases ran.symm.trans (Heap.collect_ok healthy books stepped formed)
    exact ⟨marks, m₁, rfl, (found ▸ survivors_spec intact w.heap.roots.slots).1, rfl, collected⟩

/-- One that has succeeded and moved has moved all that can be reached. -/
theorem Copying.moved_of_collect {c : Copying} (engine : w.heap.collector.engine = .copying c)
    (ran : Heap.collect w = .ok report w₁) : ∃ l c₁ m₁, report = c.movedReport l (l.map w.memory.blockSize).sum ∧
      w₁ = w.afterCollection report (.copying c₁) m₁ ∧ Moved w.heap.types w.heap.roots.slots c w.memory l c₁ m₁ ∧
      Consistent w.heap.types w.heap.roots.slots (Reach w.heap.types w.heap.roots.slots w.memory) w.memory := by
  have healthy := Heap.healthy_of_ok ran
  obtain ⟨_, _, -, -, renewed⟩ := Heap.renewed_of_collect books healthy headed (by rw [engine]; nofun) ran
  have rooted := headed.rooted engine renewed.met renewed.listed
  have departure := rooted.departure books.regular books.types (engine ▸ books.ledger)
  cases order : copyOrder w.heap.types w.heap.roots.slots w.memory c.spaces.size with
  | none =>
    obtain ⟨p, target, w', failed, -⟩ := collect_stuck books engine rooted healthy order
    cases ran.symm.trans failed
  | some l =>
    obtain ⟨_, c₁, m₁, collected, rfl, -, -, moved⟩ := collect_rooted books engine rooted healthy order
    cases ran.symm.trans collected
    exact ⟨l, c₁, m₁, rfl, rfl, moved, departure.consistent⟩

variable (same : w.heap.roots.SameSlots r)

include same

/-- Without moving, the same blocks are given back. -/
theorem MarkSweep.collect_rerooted {c : MarkSweep} (engine : w.heap.collector.engine = .markSweep c)
    (ran : Heap.collect w = .ok report w₁) (ran' : Heap.collect (w.rerooted r) = .ok report' w₂) :
    report' = report ∧ w₁.Corresponds w₂ := by
  obtain ⟨marks, m₁, rfl, reach, rfl, collected⟩ := released_of_collect books headed engine ran
  obtain ⟨marks', m₂, rfl, reach', rfl, collected'⟩ :=
    released_of_collect (books.rerooted r) (headed.rerooted same) engine ran'
  have alike (p : Nat) : p ∈ marks' ↔ p ∈ marks := by
    rw [reach, reach']
    exact ⟨fun led => led.congr_roots same, fun led => led.congr_roots fun s => (same s).symm⟩
  rw [lost_congr alike] at collected' ⊢
  rw [reportOf_congr alike]
  refine ⟨rfl, rfl, fun _ => ?_, fun c moves => nomatch moves⟩
  exact ⟨.markSweep _, collected.shape.symm.trans collected'.shape, collected'.cells.trans collected.cells.symm,
    collected.byte_congr collected' same⟩

-- Each collection has put every object in some place, so the places of the one lead to those of the other.
/-- The same objects are moved, and their copies correspond. -/
theorem Copying.collect_rerooted {c : Copying} (engine : w.heap.collector.engine = .copying c)
    (ran : Heap.collect w = .ok report w₁) (ran' : Heap.collect (w.rerooted r) = .ok report' w₂) :
    report' = report ∧ w₁.Corresponds w₂ := by
  obtain ⟨l, c₁, m₁, rfl, rfl, moved, consistent⟩ := moved_of_collect books headed engine ran
  obtain ⟨l', c₂, m₂, rfl, rfl, moved', -⟩ := moved_of_collect (books.rerooted r) (headed.rerooted same) engine ran'
  have member (p : Nat) : p ∈ l' ↔ p ∈ l := by
    rw [moved.reach, moved'.reach]
    exact ⟨fun reach => reach.congr_roots same, fun reach => reach.congr_roots fun s => (same s).symm⟩
  have perm : l'.Perm l := (List.perm_ext_iff_of_nodup moved'.nodup moved.nodup).2 member
  have sum : (l'.map (w.rerooted r).memory.blockSize).sum = (l.map w.memory.blockSize).sum := (perm.map _).sum_nat
  obtain ⟨f, leads, relocation⟩ := moved.relocation.between (moved'.relocation.congr_roots fun s => (same s).symm)
    consistent fun p _ => Nat.le_add_left ..
  have report : c.movedReport l' (l'.map (w.rerooted r).memory.blockSize).sum =
      c.movedReport l (l.map w.memory.blockSize).sum := by
    unfold movedReport
    rw [perm.length_eq, sum]
  rw [report]
  refine ⟨rfl, rfl, fun stays => absurd rfl stays, fun _ engine₁ => ?_⟩
  cases engine₁
  refine ⟨c₂, f, rfl, ?_, ?_⟩
  · rw [moved'.spaces, moved.spaces, sum]
  · constructor
    case reached =>
      intro q holds
      obtain ⟨p, known, rfl⟩ := (moved.resident q).1 holds
      exact (moved.relocation.reach_iff consistent fun p _ => copyOf_ne_zero _ _ _ _).2 ⟨p, (moved.reach p).1 known, rfl⟩
    case held =>
      intro q
      refine (moved'.resident q).trans ⟨?_, ?_⟩
      · rintro ⟨p, known, rfl⟩
        exact ⟨_, (moved.resident _).2 ⟨p, (member p).1 known, rfl⟩, leads p ((moved.reach p).1 ((member p).1 known))⟩
      · rintro ⟨_, holds, rfl⟩
        obtain ⟨p, known, rfl⟩ := (moved.resident _).1 holds
        exact ⟨p, (member p).2 known, (leads p ((moved.reach p).1 known)).symm⟩
    case relocation => exact relocation

end

namespace Heap

/-- In every state that a heap can reach in which the headers are in order, whatever words stand in the roots and in the
objects: two collections with the same slots registered both fail, or both succeed with the same report and leave heaps
that correspond, unless one of them moves and has stopped at an empty object. -/
theorem collect_depends_on_slots (reached : Reached w) (headed : w.Headed)
    (traces : w.heap.collector.engine.strategy ≠ .leaky) (same : w.heap.roots.SameSlots r) :
    match collect w, collect (w.rerooted r) with
    | .ok report w₁, .ok report' w₂ => report' = report ∧ w₁.Corresponds w₂
    | .ok _ _, .error x _ => w.Stopped x
    | .error x _, .ok _ _ => w.Stopped x
    | .error _ _, .error _ _ => True := by
  cases ran : collect w with
  | ok report w₁ =>
    have healthy := healthy_of_ok ran
    have books := reached.orderly healthy
    cases ran' : collect (w.rerooted r) with
    | ok report' w₂ =>
      cases engine : w.heap.collector.engine with
      | markSweep c => exact MarkSweep.collect_rerooted books headed same engine ran ran'
      | copying c => exact Copying.collect_rerooted books headed same engine ran ran'
      | leaky c => exact absurd (by rw [engine]; rfl) traces
    | error x w₂ =>
      obtain ⟨_, _, -, -, renewed⟩ := renewed_of_collect books healthy headed traces ran
      exact renewed.stopped same books headed (complaint_of_collect (books.rerooted r) healthy (headed.rerooted same) traces ran')
  | error x w₁ =>
    cases ran' : collect (w.rerooted r) with
    | error x' w₂ => trivial
    | ok report' w₂ =>
      have healthy' : (w.rerooted r).heap.poisoned = none := healthy_of_ok ran'
      have healthy : w.heap.poisoned = none := healthy'
      have books := reached.orderly healthy
      have headed' := headed.rerooted same
      obtain ⟨_, _, -, -, renewed⟩ := renewed_of_collect (books.rerooted r) healthy headed' traces ran'
      have stopped := renewed.stopped (r := w.heap.roots) (fun s => (same s).symm) (books.rerooted r) headed'
        (complaint_of_collect books healthy headed traces ran)
      exact stopped.of_rerooted same

/-- Of two objects each has a root. The slots are registered once in order, and then the other way round and more than
once. A reference of the third object, which cannot be reached, leads into an object. -/
theorem collect_depends_on_slots_of_two : ∃ w r, Reached w ∧ w.Headed ∧ ¬ w.WellFormed ∧
    w.heap.collector.engine.strategy = .copying ∧ w.heap.roots.slots = [.cell 0, .cell 1] ∧
    r.slots = [.cell 1, .cell 0, .cell 1, .cell 0] ∧ w.heap.roots.SameSlots r ∧
    ∃ report w₁ w₂, collect w = .ok report w₁ ∧ collect (w.rerooted r) = .ok report w₂ ∧ w₁.Corresponds w₂ := by
  let r : RootStack := { frames := #[⟨0, [.cell 1, .cell 0, .cell 1]⟩], globals := #[.cell 0], nextSequence := 1 }
  have ran : ((World.play (fun w _ => w.heap.poisoned = none) { strategy := .copying, heapSize := 4096 } 2
      [.call (.register .link Descriptor.link_isWords), .call .pushRoot, .call (.addRoot ⟨0, 0⟩ (.cell 0)),
        .call (.addRoot ⟨0, 0⟩ (.cell 1)), .call (.allocate ⟨1⟩ 0), .setCell 0 (Memory.origin + 24),
        .call (.allocate ⟨1⟩ 0), .setCell 1 (Memory.origin + 56), .writeWord (Memory.origin + 24) 0 (Memory.origin + 56),
        .call (.allocate ⟨1⟩ 0), .writeWord (Memory.origin + 88) 0 (Memory.origin + 60)]).any fun w =>
      w.onCopying fun c => w.heap.poisoned = none ∧ w.Headed ∧ ¬ w.WellFormed ∧
        w.heap.roots.slots = [.cell 0, .cell 1] ∧ (∀ p ∈ c.resident.toList, w.memory.isEmpty p = false) ∧
        c.RootedOn w.heap.types w.heap.roots.slots w.memory [Memory.origin + 24, Memory.origin + 56] ∧
        c.RootedOn w.heap.types r.slots w.memory [Memory.origin + 24, Memory.origin + 56]) = true := by
    decide +kernel
  obtain ⟨w, played, shown⟩ := (Option.any_eq_true _ _).1 ran
  obtain ⟨c, engine, shown⟩ := World.onCopying_eq_true.1 shown
  obtain ⟨healthy, headed, unformed, slots, full, on, on'⟩ := of_decide_eq_true shown
  have reached := Reached.of_play played
  have books := reached.orderly healthy
  have moves : w.heap.collector.engine.strategy = .copying := by rw [engine]; rfl
  have listed : r.slots = [.cell 1, .cell 0, .cell 1, .cell 0] := rfl
  have same : w.heap.roots.SameSlots r := fun s => by rw [slots, listed]; grind
  obtain ⟨report, w₁, collected⟩ := Copying.collect_full books engine healthy (.of_list on) full
  obtain ⟨report', w₂, collected'⟩ :=
    Copying.collect_full (books.rerooted r) engine healthy (.of_list on') full
  have spec := collect_depends_on_slots reached headed (by rw [moves]; decide) same
  rw [collected, collected'] at spec
  obtain ⟨rfl, corresponds⟩ := spec
  exact ⟨w, r, reached, headed, unformed, moves, slots, listed, same, _, w₁, w₂, collected, collected', corresponds⟩

/-- Two objects without payload, one with two roots and one with one. In one order of the same slots the collection
succeeds, and in the other it reports a dangling reference. -/
theorem collect_depends_on_order : ∃ w r, Reached w ∧ w.heap.poisoned = none ∧ w.WellFormed ∧
    w.heap.roots.slots = [.cell 0, .cell 1, .cell 2] ∧ r.slots = [.cell 0, .cell 2, .cell 1] ∧
    w.heap.roots.SameSlots r ∧ (∀ report w', collect w ≠ .ok report w') ∧
    ∃ report w', collect (w.rerooted r) = .ok report w' := by
  let r : RootStack := { frames := #[⟨0, [.cell 1, .cell 2, .cell 0]⟩], nextSequence := 1 }
  have ran : ((World.play (fun w _ => w.heap.poisoned = none) { strategy := .copying, heapSize := 4096 } 3
      [.call (.register .empty Descriptor.empty_isWords), .call .pushRoot, .call (.allocate ⟨1⟩ 0),
        .setCell 0 (Memory.origin + 24), .setCell 1 (Memory.origin + 24), .call (.allocate ⟨1⟩ 0),
        .setCell 2 (Memory.origin + 48), .call (.addRoot ⟨0, 0⟩ (.cell 0)), .call (.addRoot ⟨0, 0⟩ (.cell 1)),
        .call (.addRoot ⟨0, 0⟩ (.cell 2))]).any fun w =>
      w.onCopying fun c => w.heap.poisoned = none ∧ w.WellFormed ∧
        w.heap.roots.slots = [.cell 0, .cell 1, .cell 2] ∧ w.heap.roots.slots.Nodup ∧
        (CopyOrder.followAll w.memory.isEmpty [] (w.heap.roots.slots.map w.memory.slot)).isNone = true ∧
        (World.rerooted w r).WellFormed ∧ r.slots.Nodup ∧
        ((CopyOrder.followAll w.memory.isEmpty [] (r.slots.map w.memory.slot)).bind
          (CopyOrder.scan w.memory.isEmpty (w.heap.types.references w.memory) c.spaces.size 0)).isSome = true) = true := by
    decide +kernel
  obtain ⟨w, played, shown⟩ := (Option.any_eq_true _ _).1 ran
  obtain ⟨c, engine, shown⟩ := World.onCopying_eq_true.1 shown
  obtain ⟨healthy, formed, slots, nodup, order, formed', nodup', order'⟩ := of_decide_eq_true shown
  have reached := Reached.of_play played
  have books := reached.orderly healthy
  have listed : r.slots = [.cell 0, .cell 2, .cell 1] := rfl
  have same : w.heap.roots.SameSlots r := fun s => by rw [slots, listed]; grind
  have unanswered : copyOrder w.heap.types w.heap.roots.slots w.memory c.spaces.size = none := by
    rw [copyOrder, distinctSlots_of_nodup nodup, Option.isNone_iff_eq_none.1 order, Option.bind_none]
  obtain ⟨p, target, w', failed, -⟩ := Copying.collect_stuck books engine (formed.rooted books engine) healthy unanswered
  obtain ⟨l, order'⟩ := Option.isSome_iff_exists.1 order'
  have answered : copyOrder w.heap.types r.slots w.memory c.spaces.size = some l := by
    rw [copyOrder, distinctSlots_of_nodup nodup', order']
  have books' := books.rerooted r
  obtain ⟨report, c', m', collected, -⟩ :=
    Copying.collect_rooted books' engine (formed'.rooted books' engine) healthy answered
  refine ⟨w, r, reached, healthy, formed, slots, listed, same, fun report w'' succeeded => ?_, report, _, collected⟩
  rw [succeeded] at failed
  cases failed

end Heap

end TracingHeap
