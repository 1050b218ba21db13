import TracingHeap.Proofs.Copying.Collection
import TracingHeap.Proofs.Copying.Rooted
import TracingHeap.Proofs.Heap.Scripts

/-! Damaged headers in the way of a collection that moves.

A collection notices a damaged header when it comes to it. A header that is forwarded already is believed if it names
a copy that this collection has made: whether one stands there may depend on the order in which the objects are met.
What an intact header says about type and size is not questioned at all. -/

set_option autoImplicit false

namespace TracingHeap

/-- What a collection comes to: the roots lead there, and the slots that are followed in objects with intact headers. -/
inductive Approached (types : TypeTable) (roots : List Slot) (m : Memory) : Nat → Prop where
  | root {s : Slot} : s ∈ roots → m.slot s ≠ 0 → Approached types roots m (m.slot s)
  | step {p a : Nat} : Approached types roots m p → m.Unmarked p → a ∈ types.visited m p → m.word a ≠ 0 →
      Approached types roots m (m.word a)

theorem Approached.mem_of_closed {types : TypeTable} {roots : List Slot} {m : Memory} {live : List Nat}
    (started : ∀ s ∈ roots, m.slot s = 0 ∨ m.slot s ∈ live)
    (closed : ∀ p ∈ live, ∀ a ∈ types.visited m p, m.word a = 0 ∨ m.word a ∈ live) {p : Nat}
    (approached : Approached types roots m p) : p ∈ live := by
  induction approached with
  | root member value => exact (started _ member).resolve_left value
  | step _ _ within value ih => exact (closed _ ih _ within).resolve_left value

namespace Copying

theorem Sized.mono {types : TypeTable} {c : Copying} {m : Memory} {live live' : Nat → Prop}
    (sized : Sized types c m live) (sub : ∀ p, live' p → live p) : Sized types c m live' :=
  ⟨fun p holds => sized.typed p (sub p holds), fun p holds => sized.within p (sub p holds),
    fun p q first second => sized.apart p q (sub p first) (sub q second)⟩

instance (types : TypeTable) (c : Copying) (m : Memory) (l : List Nat) : Decidable (Sized types c m (· ∈ l)) :=
  decidable_of_iff (∀ p ∈ l, ((m.header (blockOf p)).isIntact .unmarked = true →
      ∃ d, types.get? (m.header (blockOf p)).typeId = some d ∧ d.fixedSize ≤ m.payloadSize p ∧
        m.payloadSize p ≤ largestPayload) ∧
    (payloadOf c.spaces.active.start ≤ p ∧ blockOf p + m.extent p ≤ c.spaces.active.top) ∧
    ∀ q ∈ l, p < q → blockOf p + m.extent p ≤ blockOf q)
    ⟨fun all => ⟨fun p member unmarked => (all p member).1 (Header.isIntact_iff.2 unmarked),
        fun p member => (all p member).2.1, fun p q first second => (all p first).2.2 q second⟩,
      fun sized p member => ⟨fun intact => sized.typed p member (Header.isIntact_iff.1 intact), sized.within p member,
        fun q other => sized.apart p q member other⟩⟩

variable {w : World} {c : Copying} {p : Nat}

/-- In every state that a heap can reach in which all that a collection comes to is held, with the right types and
sizes in the intact headers: a collection reports a corruption, or the damaged headers that can be reached are
forwarded, each to a copy that this collection has made. -/
theorem collect_reports_damage (reached : Reached w) (healthy : w.heap.poisoned = none)
    (engine : w.heap.collector.engine = .copying c)
    (outside : ∀ s ∈ w.heap.roots.slots, ∃ i, s = .cell i ∧ i < w.memory.cells.size)
    (held : ∀ p, Approached w.heap.types w.heap.roots.slots w.memory p → w.heap.collector.engine.Held p)
    (sized : c.Sized w.heap.types w.memory (Approached w.heap.types w.heap.roots.slots w.memory)) :
    match Heap.collect w with
    | .ok _ w' => ∀ p, Reach w.heap.types w.heap.roots.slots w.memory p → ¬ w.memory.Unmarked p →
        (w.memory.header (blockOf p)).check = .ok .forwarded ∧
          w'.heap.collector.engine.Held (w.memory.header (blockOf p)).forward
    | .error x _ => ∃ p defect, x = .corrupted p defect := by
  have books := reached.orderly healthy
  have ledger := books.ledger
  rw [engine] at ledger held
  have footing := sized.footing books.regular books.types ledger held outside (fun s root value _ => .root root value)
    fun p fit a within value _ => .step fit.1 fit.2 within value
  have spec := collect_settles books engine footing sized.typed
  have objection := departures_spec footing
  cases outcome : departures w.heap.types w.heap.roots.slots c.resident c.spaces.reserve w.memory with
  | error x =>
    rw [outcome] at spec objection
    obtain ⟨c', m', failed⟩ := spec
    obtain ⟨p, defect, rfl⟩ := objection.corrupted
    obtain ⟨w', ran, -⟩ := Heap.collect_error healthy failed
    rw [ran]
    exact ⟨p, defect, rfl⟩
  | ok l =>
    rw [outcome] at spec
    obtain ⟨e, done, c', m', ran, arrived, settles, formed⟩ := spec
    rw [Heap.collect_ok healthy books ran formed]
    intro p reach damaged
    rcases arrived.copied_or_forwarded footing reach with member | ⟨-, moved, q, member, same⟩
    · exact absurd (arrived.intact p member) damaged
    · refine ⟨moved, ?_⟩
      show c'.resident.contains _ = true
      rw [settles.resident]
      exact (arrived.copies _).2 ⟨q, member, same⟩

/-- What a collection comes to stays within a list of residents, and the intact headers among them are right. -/
def SizedOn (w : World) (c : Copying) (l : List Nat) : Prop :=
  (∀ s ∈ w.heap.roots.slots, w.memory.isCell s = true ∧ (w.memory.slot s = 0 ∨ w.memory.slot s ∈ l)) ∧
    (∀ p ∈ l, c.resident.contains p = true ∧
      ∀ a ∈ w.heap.types.visited w.memory p, w.memory.word a = 0 ∨ w.memory.word a ∈ l) ∧
    c.Sized w.heap.types w.memory (· ∈ l)

instance (w : World) (c : Copying) (l : List Nat) : Decidable (SizedOn w c l) := inferInstanceAs (Decidable (_ ∧ _))

/-- Behind an intact object stands one whose header is overwritten altogether. The collection reports it. -/
theorem collect_reports_overwritten : ∃ w c p, Reached w ∧ w.heap.poisoned = none ∧
    w.heap.collector.engine = .copying c ∧ Reach w.heap.types w.heap.roots.slots w.memory p ∧
    (w.memory.header (blockOf p)).magic ≠ headerMagic ∧ w.memory.payloadSize p = wordLimit - 1 ∧
    ∃ q defect w', Heap.collect w = .error (.corrupted q defect) w' := by
  have ran : ((World.play (fun w _ => w.heap.poisoned = none) { strategy := .copying, heapSize := 4096 } 2
      [.call (.register .link Descriptor.link_isWords), .call .pushRoot, .call (.addRoot ⟨0, 0⟩ (.cell 0)),
        .call (.addRoot ⟨0, 0⟩ (.cell 1)), .call (.allocate ⟨1⟩ 0), .call (.allocate ⟨1⟩ 0),
        .setCell 0 (Memory.origin + 24), .setCell 1 (Memory.origin + 56),
        .writeWord (Memory.origin + 32) 0 (wordLimit - 1), .writeWord (Memory.origin + 32) 8 (wordLimit - 1)]).any fun w =>
      w.onCopying fun c => w.heap.poisoned = none ∧ SizedOn w c [Memory.origin + 24, Memory.origin + 56] ∧
        (w.memory.header (Memory.origin + 32)).magic ≠ headerMagic ∧
        w.memory.payloadSize (Memory.origin + 56) = wordLimit - 1 ∧
        ∃ s ∈ w.heap.roots.slots, w.memory.slot s = Memory.origin + 56) = true := by
    decide +kernel
  obtain ⟨w, played, shown⟩ := (Option.any_eq_true _ _).1 ran
  obtain ⟨c, engine, shown⟩ := World.onCopying_eq_true.1 shown
  obtain ⟨healthy, ⟨starts, objects, sized⟩, magic, size, s, root, leads⟩ := of_decide_eq_true shown
  have reached := Reached.of_play played
  have live (p : Nat) (approached : Approached w.heap.types w.heap.roots.slots w.memory p) :=
    approached.mem_of_closed (fun s root => (starts s root).2) fun p member => (objects p member).2
  have reach : Reach w.heap.types w.heap.roots.slots w.memory (Memory.origin + 56) :=
    leads ▸ .root root (leads ▸ by decide)
  have spec := collect_reports_damage reached healthy engine (fun s root => Memory.isCell_iff.1 (starts s root).1)
    (fun p approached => by
      rw [engine]
      exact (objects p (live p approached)).1) (sized.mono live)
  refine ⟨w, c, _, reached, healthy, engine, reach, magic, size, ?_⟩
  cases collected : Heap.collect w with
  | ok report w' =>
    rw [collected] at spec
    have damaged : ¬ w.memory.Unmarked (Memory.origin + 56) := fun unmarked => magic (Header.check_eq_ok.1 unmarked).1
    exact absurd (Header.check_eq_ok.1 (spec _ reach damaged).1).1 magic
  | error x w' =>
    rw [collected] at spec
    obtain ⟨q, defect, rfl⟩ := spec
    exact ⟨q, defect, w', rfl⟩

/-! ### What gets past a collection -/

/-- A state in which every reference is null or held, and an object can be reached whose header is damaged. -/
structure Damaged (w : World) (c : Copying) (p : Nat) : Prop where
  reached : Reached w
  healthy : w.heap.poisoned = none
  engine : w.heap.collector.engine = .copying c
  outside : ∀ s ∈ w.heap.roots.slots, ∃ i, s = .cell i ∧ i < w.memory.cells.size
  roots : ∀ s ∈ w.heap.roots.slots, w.IsReference (w.memory.slot s)
  references : ∀ q, w.heap.collector.engine.Held q → ∀ slots, w.heap.types.tracedSlots w.memory q = .ok slots →
    ∀ a ∈ slots, w.IsReference (w.memory.word a)
  reach : Reach w.heap.types w.heap.roots.slots w.memory p
  damaged : ¬ w.memory.Unmarked p

/-- All objects with their references are in order but for one, which is referred to by a root or by an object in a
root, and whose header is damaged. -/
def DamagedAt (w : World) (p : Nat) : Prop :=
  p ≠ 0 ∧ (w.memory.header (blockOf p)).isIntact .unmarked = false ∧
    (∀ s ∈ w.heap.roots.slots, w.memory.isCell s = true ∧ w.IsReference (w.memory.slot s)) ∧
    (∀ q ∈ w.heap.collector.engine.list, ∀ slots, w.heap.types.tracedSlots w.memory q = .ok slots →
      ∀ a ∈ slots, w.IsReference (w.memory.word a)) ∧
    ∃ s ∈ w.heap.roots.slots, w.memory.slot s = p ∨ w.memory.slot s ≠ 0 ∧
      ∃ slots, w.heap.types.tracedSlots w.memory (w.memory.slot s) = .ok slots ∧ ∃ a ∈ slots, w.memory.word a = p

instance (w : World) (p : Nat) : Decidable (DamagedAt w p) := inferInstanceAs (Decidable (_ ∧ _))

theorem Damaged.of_damagedAt (reached : Reached w) (healthy : w.heap.poisoned = none)
    (engine : w.heap.collector.engine = .copying c) (found : DamagedAt w p) : Damaged w c p := by
  obtain ⟨value, damaged, roots, references, s, root, leads⟩ := found
  refine ⟨reached, healthy, engine, fun s root => Memory.isCell_iff.1 (roots s root).1, fun s root => (roots s root).2,
    fun q holds => references q (Engine.mem_list.2 holds), ?_, fun unmarked => ?_⟩
  · rcases leads with rfl | ⟨first, slots, listed, a, within, rfl⟩
    · exact .root root value
    · exact .step (.root root first) listed within value
  · rw [Header.isIntact_iff.2 unmarked] at damaged
    cases damaged

-- Where no slot is registered twice this is what a collection does, and it can be evaluated.
/-- Copy all that some slots lead to. -/
def evacuateSlots (types : TypeTable) (slots : List Slot) (resident : Std.TreeSet Nat) : Evacuate Unit := do
  Evacuate.forwardSlots resident slots
  let reserve := (← get).reserve
  Evacuate.scan types resident reserve.size reserve.start

theorem evacuateAll_of_nodup {types : TypeTable} {roots : List Slot} {resident : Std.TreeSet Nat} (nodup : roots.Nodup) :
    evacuateAll types roots resident = evacuateSlots types roots resident := by
  rw [evacuateAll, distinctSlots_of_nodup nodup]
  rfl

section

variable (healthy : w.heap.poisoned = none) (engine : w.heap.collector.engine = .copying c)
  (nodup : w.heap.roots.slots.Nodup)

include engine nodup

/-- What has been copied before a failure stays where it is, and so does what has been written. -/
theorem engine_of_stuck {x : Failure}
    (ending : answer (evacuateSlots w.heap.types w.heap.roots.slots c.resident
      { memory := w.memory, reserve := c.spaces.reserve }) = .error x) :
    ∃ e, Engine.collect w.heap.types w.heap.roots.slots (w.heap.collector.engine, w.memory) =
      .error x (e, (after (evacuateSlots w.heap.types w.heap.roots.slots c.resident
        { memory := w.memory, reserve := c.spaces.reserve })).memory) := by
  rw [← evacuateAll_of_nodup nodup] at ending ⊢
  cases ran : evacuateAll w.heap.types w.heap.roots.slots c.resident { memory := w.memory, reserve := c.spaces.reserve } with
  | ok _ e =>
    rw [ran] at ending
    cases ending
  | error y e =>
    rw [ran] at ending
    cases ending
    simp only [engine, Engine.collect, collect, ran]
    exact ⟨_, rfl⟩

include healthy

theorem collect_of_evacuated (unchecked : w.heap.config.verifyHeap = false)
    (ending : answer (evacuateSlots w.heap.types w.heap.roots.slots c.resident
      { memory := w.memory, reserve := c.spaces.reserve }) = .ok ()) :
    ∃ report w', Heap.collect w = .ok report w' ∧
      report.objectsLive = (after (evacuateSlots w.heap.types w.heap.roots.slots c.resident
        { memory := w.memory, reserve := c.spaces.reserve })).copies.size := by
  rw [← evacuateAll_of_nodup nodup] at ending ⊢
  cases ran : evacuateAll w.heap.types w.heap.roots.slots c.resident { memory := w.memory, reserve := c.spaces.reserve } with
  | error x e =>
    rw [ran] at ending
    cases ending
  | ok _ e =>
    have stepped : ∃ report e' m', Engine.collect w.heap.types w.heap.roots.slots (w.heap.collector.engine, w.memory) =
        .ok report (e', m') ∧ report.objectsLive = e.copies.size := by
      simp only [engine, Engine.collect, collect, ran]
      exact ⟨_, _, _, rfl, rfl⟩
    obtain ⟨report, e', m', stepped, live⟩ := stepped
    exact ⟨report, _, Heap.collect_unchecked healthy unchecked stepped, live⟩

theorem collect_of_stuck {x : HeapError}
    (ending : answer (evacuateSlots w.heap.types w.heap.roots.slots c.resident
      { memory := w.memory, reserve := c.spaces.reserve }) = .error (.violation x)) :
    ∃ w', Heap.collect w = .error (.violation x) w' := by
  obtain ⟨e, failed⟩ := engine_of_stuck engine nodup ending
  obtain ⟨w', collected, -⟩ := Heap.collect_error healthy failed
  exact ⟨w', collected⟩

end

/-- A damaged header can be reached, and this is how the collection ends. -/
def Ends (w : World) (p : Nat) (ending : Reading Unit) : Prop :=
  w.heap.poisoned = none ∧ w.heap.config.verifyHeap = false ∧ w.heap.roots.slots.Nodup ∧ DamagedAt w p ∧
    w.onCopying fun c => answer (evacuateSlots w.heap.types w.heap.roots.slots c.resident
      { memory := w.memory, reserve := c.spaces.reserve }) = ending

instance (w : World) (p : Nat) (ending : Reading Unit) : Decidable (Ends w p ending) :=
  inferInstanceAs (Decidable (_ ∧ _))

theorem Ends.spec {ending : Reading Unit} (ends : Ends w p ending) (reached : Reached w) :
    ∃ c, Damaged w c p ∧
      match ending with
      | .ok _ => ∃ report w', Heap.collect w = .ok report w'
      | .error (.violation x) => ∃ w', Heap.collect w = .error (.violation x) w'
      | .error (.fault _) => True := by
  obtain ⟨healthy, unchecked, nodup, found, shown⟩ := ends
  obtain ⟨c, engine, shown⟩ := World.onCopying_eq_true.1 shown
  have shown := of_decide_eq_true shown
  refine ⟨c, .of_damagedAt reached healthy engine found, ?_⟩
  cases ending with
  | ok _ =>
    obtain ⟨report, w', collected, -⟩ := collect_of_evacuated healthy engine nodup unchecked shown
    exact ⟨report, w', collected⟩
  | error x =>
    cases x with
    | fault f => trivial
    | violation x => exact collect_of_stuck healthy engine nodup shown

-- In the first state the header names the place where the copy of another object comes to lie. In the second the size
-- in an intact header is too small, so the reference behind it is lost. In the third an intact header names a type
-- that was never registered, which is no corruption.
/-- Damaged headers get past a collection, or it ends for another reason. -/
theorem collect_passes_damage :
    (∃ w c p, Damaged w c p ∧ (w.memory.header (blockOf p)).check = .ok .forwarded ∧
      ∃ report w', Heap.collect w = .ok report w') ∧
    (∃ w c p, Damaged w c p ∧ (w.memory.header (blockOf p)).magic ≠ headerMagic ∧
      ∃ report w', Heap.collect w = .ok report w') ∧
    ∃ w c p, Damaged w c p ∧ (w.memory.header (blockOf p)).magic ≠ headerMagic ∧
      ∃ id w', Heap.collect w = .error (.violation (.unregisteredType id)) w' := by
  refine ⟨?_, ?_, ?_⟩
  · have ran : ((World.play (fun w _ => w.heap.poisoned = none) { strategy := .copying, heapSize := 4096 } 2
        [.call (.register .references Descriptor.references_isWords), .call .pushRoot,
          .call (.addRoot ⟨0, 0⟩ (.cell 0)), .call (.addRoot ⟨0, 0⟩ (.cell 1)), .call (.allocateArray ⟨1⟩ 0),
          .call (.allocateArray ⟨1⟩ 0), .setCell 0 (Memory.origin + 24), .setCell 1 (Memory.origin + 56),
          .writeWord (Memory.origin + 32) 0 0x02A700000001, .writeWord (Memory.origin + 32) 16 (Memory.base 1 + 24)]).any
        fun w => (w.memory.header (Memory.origin + 32)).isIntact .forwarded ∧ Ends w (Memory.origin + 56) (.ok ())) = true := by
      decide +kernel
    obtain ⟨w, played, shown⟩ := (Option.any_eq_true _ _).1 ran
    obtain ⟨forwarded, ends⟩ := of_decide_eq_true shown
    obtain ⟨c, damaged, collected⟩ := ends.spec (.of_play played)
    exact ⟨w, c, _, damaged, Header.isIntact_iff.1 forwarded, collected⟩
  · have ran : ((World.play (fun w _ => w.heap.poisoned = none) { strategy := .copying, heapSize := 4096 } 1
        [.call (.register .link Descriptor.link_isWords), .call .pushRoot, .call (.addRoot ⟨0, 0⟩ (.cell 0)),
          .call (.allocate ⟨1⟩ 0), .call (.allocate ⟨1⟩ 0), .setCell 0 (Memory.origin + 24),
          .writeWord (Memory.origin + 24) 0 (Memory.origin + 56), .writeWord Memory.origin 8 0,
          .writeWord (Memory.origin + 32) 0 0]).any
        fun w => (w.memory.header (Memory.origin + 32)).magic ≠ headerMagic ∧ Ends w (Memory.origin + 56) (.ok ())) = true := by
      decide +kernel
    obtain ⟨w, played, shown⟩ := (Option.any_eq_true _ _).1 ran
    obtain ⟨magic, ends⟩ := of_decide_eq_true shown
    obtain ⟨c, damaged, collected⟩ := ends.spec (.of_play played)
    exact ⟨w, c, _, damaged, magic, collected⟩
  · have ran : ((World.play (fun w _ => w.heap.poisoned = none) { strategy := .copying, heapSize := 4096 } 2
        [.call (.register .link Descriptor.link_isWords), .call .pushRoot, .call (.addRoot ⟨0, 0⟩ (.cell 0)),
          .call (.addRoot ⟨0, 0⟩ (.cell 1)), .call (.allocate ⟨1⟩ 0), .call (.allocate ⟨1⟩ 0), .call (.allocate ⟨1⟩ 0),
          .setCell 0 (Memory.origin + 24), .setCell 1 (Memory.origin + 56),
          .writeWord (Memory.origin + 56) 0 (Memory.origin + 88), .writeWord Memory.origin 0 0xA700000063,
          .writeWord (Memory.origin + 64) 0 0]).any
        fun w => (w.memory.header (Memory.origin + 64)).magic ≠ headerMagic ∧
          Ends w (Memory.origin + 88) (.error (.violation (.unregisteredType ⟨99⟩)))) = true := by
      decide +kernel
    obtain ⟨w, played, shown⟩ := (Option.any_eq_true _ _).1 ran
    obtain ⟨magic, ends⟩ := of_decide_eq_true shown
    obtain ⟨c, damaged, w', collected⟩ := ends.spec (.of_play played)
    exact ⟨w, c, _, damaged, magic, _, w', collected⟩

end Copying

end TracingHeap
