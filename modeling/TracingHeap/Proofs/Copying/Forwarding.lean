import TracingHeap.Proofs.Copying.Damage
import TracingHeap.Proofs.Heap.Changes
import TracingHeap.Proofs.Heap.Outcome

/-! Every object is forwarded once.

Whatever the words in the roots and in the objects are, a collection that moves writes one forwarding header for each
object that it copies, and there is room for every copy. It stops at a word that leads to no object, at a count that is too
large, and at one thing more, which is nobody's fault: a second reference to an object without payload that was copied
last. -/

set_option autoImplicit false

namespace TracingHeap

/-- What a collection that moves has done when it ends, whatever comes of it: the objects of `l` have been copied, in this
order. A header is written for each object that is counted. -/
structure World.Forwards (w : World) (c : Copying) (l : List Nat) (e : Evacuation) : Prop where
  nodup : l.Nodup
  held : ∀ p ∈ l, w.Held p
  noted : ∀ p, e.forwarded.contains p = true ↔ p ∈ l
  objects : e.objectsMoved = l.length
  bytes : e.bytesMoved = (l.map w.memory.blockSize).sum
  copies : ∀ q, e.copies.contains q = true ↔ ∃ p ∈ l, copyOf c.spaces.reserve w.memory l p = q
  distinct : ∀ p ∈ l, ∀ q ∈ l, copyOf c.spaces.reserve w.memory l p = copyOf c.spaces.reserve w.memory l q → p = q
  forwarded : ∀ p ∈ l, e.memory.header (blockOf p) = { w.memory.header (blockOf p) with
    state := ObjectState.forwarded.code, forward := copyOf c.spaces.reserve w.memory l p }
  untouched : ∀ p, w.Held p → p ∉ l → e.memory.header (blockOf p) = w.memory.header (blockOf p)
  used : e.reserve.cursor = (l.map w.memory.blockSize).sum
  /-- The next copy finds room, whichever it is. -/
  room : ∀ p, w.Held p → p ∉ l → e.reserve.cursor + w.memory.blockSize p ≤ e.reserve.size

/-- What a collection that moves comes to before the spaces change places, or the heap is poisoned. -/
def World.evacuation (w : World) (c : Copying) : Evacuation :=
  after (Copying.evacuateAll w.heap.types w.heap.roots.slots c.resident { memory := w.memory, reserve := c.spaces.reserve })

namespace Copying

variable {w : World} {c : Copying} (books : w.Books) (headed : w.Headed) (engine : w.heap.collector.engine = .copying c)

include books headed engine

theorem forwards_of_moving {l : List Nat} {done : List Origin} {e : Evacuation}
    (moving : Moving w.heap.types w.heap.roots.slots c.spaces.reserve w.memory (c.resident.contains · = true) l done e) :
    w.Forwards c l e := by
  have footing := footing_of_headed books headed engine
  have unmarked := headed.unmarked
  rw [engine] at unmarked
  have resident {p : Nat} (held : w.Held p) : c.resident.contains p = true := by
    unfold World.Held at held
    rwa [engine] at held
  constructor
  case nodup => exact moving.nodup
  case held =>
    intro p member
    show w.heap.collector.engine.Held p
    rw [engine]
    exact (moving.reached p member).1
  case noted => exact moving.forwarded
  case objects => exact moving.objects
  case bytes => exact moving.bytes
  case copies => exact moving.copies
  case distinct => exact fun p first q second => footing.copyOf_injective moving.reached first second
  case forwarded => exact moving.left
  case untouched => exact fun p held fresh => moving.header_stayed footing (resident held) fresh
  case used => rw [moving.reserve]
  case room =>
    intro p held fresh
    have room := moving.total_append footing ⟨resident held, unmarked p (resident held)⟩ fresh
    rw [moving.reserve]
    exact room

omit books in
/-- A forwarding target is found fault with only if it is that of the last copy, which is empty. -/
theorem last_of_stops {l : List Nat} {p target : Nat}
    (stops : Stops c.resident c.spaces.reserve w.memory l (.corrupted p (.danglingForward target))) :
    l.getLast? = some p ∧ w.memory.isEmpty p = true ∧ target = copyOf c.spaces.reserve w.memory l p := by
  have unmarked := headed.unmarked
  rw [engine] at unmarked
  obtain ⟨word, met⟩ | ⟨_, _, _, other⟩ := stops
  · by_cases null : word = 0
    · rw [meet, if_pos null] at met
      cases met
    by_cases there : c.resident.contains word = true
    · rw [meet_of_movable null ⟨there, unmarked word there⟩] at met
      split at met
      · next member =>
        split at met
        · cases met
        · next unknown =>
          cases met
          obtain ⟨last, empty⟩ := last_of_not_recognized member unknown
          exact ⟨last, empty, rfl⟩
      · cases met
    · rw [meet, if_neg null, if_pos (eq_false_of_ne_true there)] at met
      cases met
  · cases other

/-! ### What the collection of the heap comes to -/

variable (healthy : w.heap.poisoned = none)

include healthy

theorem collect_departed {l : List Nat}
    (found : departures w.heap.types w.heap.roots.slots c.resident c.spaces.reserve w.memory = .ok l) :
    w.Forwards c l (w.evacuation c) ∧
      ∃ w', Heap.collect w = .ok (c.movedReport l (l.map w.memory.blockSize).sum) w' ∧
        w'.heap.collector.engine = .copying (c.afterSuccess (w.evacuation c)).1 := by
  have ledger := books.ledger
  rw [engine] at ledger
  have spec := evacuateAll_spec (footing_of_headed books headed engine) ledger.1.empty
  rw [found] at spec
  obtain ⟨e, done, ran, arrived⟩ := spec
  have evacuation : w.evacuation c = e := by rw [World.evacuation, ran]; rfl
  have traces : w.heap.collector.engine.strategy ≠ .leaky := by
    rw [engine]
    exact fun leaky => nomatch leaky
  have verdict : w.verdict = .ok (c.movedReport l (l.map w.memory.blockSize).sum) := by
    rw [World.verdict, engine, Engine.verdict, found]
    rfl
  have collected := Heap.collect_headed books healthy headed traces
  rw [verdict] at collected
  obtain ⟨engine', m', stepped, collected, -⟩ := collected
  have settled : engine' = .copying (c.afterSuccess e).1 := by
    simp only [engine, Engine.collect, collect, ran] at stepped
    injection stepped with _ left
    exact (Prod.mk.inj left).1.symm
  rw [evacuation]
  exact ⟨forwards_of_moving books headed engine arrived.toMoving, _, collected, settled⟩

theorem collect_stopped {x : Failure}
    (found : departures w.heap.types w.heap.roots.slots c.resident c.spaces.reserve w.memory = .error x) :
    ∃ l, w.Forwards c l (w.evacuation c) ∧ Stops c.resident c.spaces.reserve w.memory l x ∧
      ∃ w', Heap.collect w = .error x w' ∧ w'.heap.collector.engine = .copying (c.afterFailure (w.evacuation c)) ∧
        w'.memory = (w.evacuation c).memory := by
  have ledger := books.ledger
  rw [engine] at ledger
  have spec := evacuateAll_spec (footing_of_headed books headed engine) ledger.1.empty
  rw [found] at spec
  obtain ⟨e, l, done, ran, moving, stops⟩ := spec
  have evacuation : w.evacuation c = e := by rw [World.evacuation, ran]; rfl
  obtain ⟨p, defect, rfl⟩ := (complains books headed engine found).corrupted
  have stepped : Engine.collect w.heap.types w.heap.roots.slots (w.heap.collector.engine, w.memory) =
      .error (.corrupted p defect) (.copying (c.afterFailure e), e.memory) := by
    simp only [engine, Engine.collect, collect, ran]
  rw [evacuation]
  exact ⟨l, forwards_of_moving books headed engine moving, stops, _, Heap.collect_error_eq healthy stepped, rfl, rfl⟩

end Copying

namespace Heap

variable {w : World} {c : Copying}

/-- In every state that a heap can reach in which the headers of the held objects are in order, whatever words stand in
the roots and in the objects: a collection that moves forwards no object twice and does not run out of space. If it
succeeds, it has forwarded each object that can be reached, and that is what it reports. -/
theorem collect_forwards_once (reached : Reached w) (healthy : w.heap.poisoned = none) (headed : w.Headed)
    (engine : w.heap.collector.engine = .copying c) :
    ∃ l, w.Forwards c l (w.evacuation c) ∧ ∃ c', c'.evacuated = l.length ∧
      match collect w with
      | .ok report w' => w'.heap.collector.engine = .copying c' ∧
          (∀ p, p ∈ l ↔ Reach w.heap.types w.heap.roots.slots w.memory p) ∧ report.forwardingHeaders = l.length ∧
          report.objectsRelocated = l.length ∧ report.objectsLive = l.length ∧
          report.bytesRelocated = (l.map w.memory.blockSize).sum ∧ report.bytesLive = (l.map w.memory.blockSize).sum
      | .error x w' => w'.heap.collector.engine = .copying c' ∧ w'.memory = (w.evacuation c).memory ∧
          (∀ p, x ≠ .corrupted p .doubleForward) ∧
          (∀ strategy requested available, x ≠ .violation (.outOfMemory strategy requested available)) ∧
          ∀ p target, x = .corrupted p (.danglingForward target) → w.Met p ∧ l.getLast? = some p ∧
            w.memory.isEmpty p = true ∧ target = copyOf c.spaces.reserve w.memory l p := by
  have books := reached.orderly healthy
  cases found : departures w.heap.types w.heap.roots.slots c.resident c.spaces.reserve w.memory with
  | ok l =>
    obtain ⟨forwards, w', collected, left⟩ := Copying.collect_departed books headed engine healthy found
    rw [collected]
    exact ⟨l, forwards, _, size_eq_length forwards.nodup forwards.noted, left,
      Copying.mem_departures books headed engine found, rfl, rfl, rfl, rfl, rfl⟩
  | error x =>
    obtain ⟨l, forwards, stops, w', failed, left, memory⟩ := Copying.collect_stopped books headed engine healthy found
    have complaint := Copying.complains books headed engine found
    rw [failed]
    refine ⟨l, forwards, _, size_eq_length forwards.nodup forwards.noted, left, memory, fun p double => ?_,
      fun _ _ _ exhausted => ?_, fun p target dangling => ?_⟩
    · rw [double] at complaint
      cases complaint
    · rw [exhausted] at complaint
      cases complaint
    · rw [dangling] at complaint stops
      refine ⟨?_, Copying.last_of_stops headed engine stops⟩
      cases complaint with
      | empty _ met => exact met

/-- Two objects refer to each other, and both cells to the first of them. What a third one refers to is never looked at. -/
theorem collect_forwards_once_around_loop : ∃ w c l report w', Reached w ∧ w.Headed ∧
    w.heap.collector.engine = .copying c ∧ c.resident.size = 3 ∧ w.Forwards c l (w.evacuation c) ∧
    collect w = .ok report w' ∧ (∀ p, p ∈ l ↔ Reach w.heap.types w.heap.roots.slots w.memory p) ∧ l.length = 2 ∧
    report.forwardingHeaders = 2 ∧ report.objectsRelocated = 2 ∧
    ∃ c', w'.heap.collector.engine = .copying c' ∧ c'.evacuated = 2 := by
  have ran : ((World.play (fun w _ => w.heap.poisoned = none) { strategy := .copying, heapSize := 4096 } 2
      [.call (.register .link Descriptor.link_isWords), .call .pushRoot, .call (.addRoot ⟨0, 0⟩ (.cell 0)),
        .call (.addRoot ⟨0, 0⟩ (.cell 1)), .call (.allocate ⟨1⟩ 0), .call (.allocate ⟨1⟩ 0), .call (.allocate ⟨1⟩ 0),
        .setCell 0 (Memory.origin + 24), .setCell 1 (Memory.origin + 24),
        .writeWord (Memory.origin + 24) 0 (Memory.origin + 56), .writeWord (Memory.origin + 56) 0 (Memory.origin + 24),
        .writeWord (Memory.origin + 88) 0 (Memory.origin + 60)]).any fun w =>
      w.onCopying fun c => w.heap.poisoned = none ∧ w.heap.config.verifyHeap = false ∧ w.Headed ∧
        w.heap.roots.slots.Nodup ∧ c.resident.size = 3 ∧
        let moved := Copying.evacuateSlots w.heap.types w.heap.roots.slots c.resident
          { memory := w.memory, reserve := c.spaces.reserve }
        answer moved = .ok () ∧ (after moved).copies.size = 2) = true := by
    decide +kernel
  obtain ⟨w, played, shown⟩ := (Option.any_eq_true _ _).1 ran
  obtain ⟨c, engine, shown⟩ := World.onCopying_eq_true.1 shown
  obtain ⟨healthy, unchecked, headed, nodup, residents, moved, copies⟩ := of_decide_eq_true shown
  obtain ⟨report, w', ran, live⟩ := Copying.collect_of_evacuated healthy engine nodup unchecked moved
  rw [copies] at live
  obtain ⟨l, forwards, c', evacuated, outcome⟩ := collect_forwards_once (.of_play played) healthy headed engine
  rw [ran] at outcome
  obtain ⟨left, reach, headers, relocated, survivors, -⟩ := outcome
  have count : l.length = 2 := survivors.symm.trans live
  exact ⟨w, c, l, report, w', .of_play played, headed, engine, residents, forwards, ran, reach, count,
    headers.trans count, relocated.trans count, c', left, evacuated.trans count⟩

/-- An object without payload is referred to by a cell, and by an object that is looked through after it has been
copied. All words lead to held objects, and the collection fails. -/
theorem collect_mistakes_last_copy : ∃ w p, Reached w ∧ w.heap.poisoned = none ∧ w.Headed ∧
    w.heap.collector.engine.strategy = .copying ∧ w.Held p ∧ (w.memory.header (blockOf p)).check = .ok .unmarked ∧
    ∃ target w', collect w = .error (.corrupted p (.danglingForward target)) w' := by
  have ran : ((World.play (fun w _ => w.heap.poisoned = none) { strategy := .copying, heapSize := 4096 } 2
      [.call (.register .empty Descriptor.empty_isWords), .call (.register .link Descriptor.link_isWords),
        .call .pushRoot, .call (.addRoot ⟨0, 0⟩ (.cell 0)), .call (.addRoot ⟨0, 0⟩ (.cell 1)), .call (.allocate ⟨2⟩ 0),
        .setCell 0 (Memory.origin + 24), .call (.allocate ⟨1⟩ 0), .setCell 1 (Memory.origin + 56),
        .writeWord (Memory.origin + 24) 0 (Memory.origin + 56)]).any fun w =>
      w.onCopying fun c => w.heap.poisoned = none ∧ w.Headed ∧ w.heap.roots.slots.Nodup ∧
        c.resident.contains (Memory.origin + 56) = true ∧
        answer (Copying.evacuateSlots w.heap.types w.heap.roots.slots c.resident
          { memory := w.memory, reserve := c.spaces.reserve }) =
            .error (.corrupted (Memory.origin + 56) (.danglingForward (Memory.base 1 + 56)))) = true := by
    decide +kernel
  obtain ⟨w, played, shown⟩ := (Option.any_eq_true _ _).1 ran
  obtain ⟨c, engine, shown⟩ := World.onCopying_eq_true.1 shown
  obtain ⟨healthy, headed, nodup, held, stuck⟩ := of_decide_eq_true shown
  obtain ⟨w', failed⟩ := Copying.collect_of_stuck healthy engine nodup stuck
  have held : w.heap.collector.engine.Held (Memory.origin + 56) := by rwa [engine]
  exact ⟨w, _, .of_play played, healthy, headed, by rw [engine]; rfl, held, headed.unmarked _ held, _, w', failed⟩

end Heap

end TracingHeap
