import TracingHeap.Proofs.Copying.Collection
import TracingHeap.Proofs.Copying.Rooted
import TracingHeap.Proofs.Heap.Collection
import TracingHeap.Proofs.Heap.Scripts

/-! A collection that moves makes an exact copy of what can be reached.

There is one exception. An object without payload that was copied last ends where the used part of the reserve
ends, and a second reference to it is reported as dangling. -/

set_option autoImplicit false

namespace TracingHeap

namespace Copying

variable {types : TypeTable} {roots : List Slot} {c : Copying} {m : Memory} {w : World}

/-- A well-formed heap can be collected. -/
theorem departure (books : w.Books) (formed : w.WellFormed) (engine : w.heap.collector.engine = .copying c) :
    Departure w.heap.types w.heap.roots.slots c.resident c.spaces.reserve w.memory :=
  (formed.rooted books engine).departure books.regular books.types (engine ▸ books.ledger)

/-- What a collection leaves behind when it succeeds. -/
structure Moved (types : TypeTable) (roots : List Slot) (c : Copying) (m : Memory) (l : List Nat) (c' : Copying)
    (m' : Memory) : Prop where
  reach : ∀ p, p ∈ l ↔ Reach types roots m p
  relocation : Relocation types roots m m' (copyOf c.spaces.reserve m l)
  resident : ∀ q, c'.resident.contains q = true ↔ ∃ p ∈ l, copyOf c.spaces.reserve m l p = q
  tiled : Tiled m' c'.spaces.active.top c'.spaces.active.start c'.resident.toList
  owns : ∀ p ∈ l, c'.owns (copyOf c.spaces.reserve m l p) = true ↔ ¬ (l.getLast? = some p ∧ m.isEmpty p = true)
  elsewhere : ∀ a, (a < c.spaces.active.start ∨ c.spaces.active.start + c.spaces.size ≤ a) →
    (a < c.spaces.reserve.start ∨ c.spaces.reserve.start + c.spaces.size ≤ a) → m'.byte a = m.byte a
  inside : ∀ p ∈ l, c.spaces.reserve.start ≤ blockOf (copyOf c.spaces.reserve m l p) ∧
    copyOf c.spaces.reserve m l p + m.payloadSize p ≤ c.spaces.reserve.start + c.spaces.reserve.size
  nodup : l.Nodup
  residents : c'.resident.toList = l.map (copyOf c.spaces.reserve m l)
  spaces : c'.spaces = { c.spaces with
    active := { c.spaces.reserve with cursor := (l.map m.blockSize).sum }
    reserve := { c.spaces.active with cursor := 0 } }
  /-- Outside the traced words every byte of a block is copied, also those behind its payload. -/
  copied : ∀ p ∈ l, ∀ slots, types.tracedSlots m p = .ok slots → ∀ i, i < m.blockSize p →
    (∀ a ∈ slots, blockOf p + i < a ∨ a + wordSize ≤ blockOf p + i) →
      m'.byte (blockOf (copyOf c.spaces.reserve m l p) + i) = m.byte (blockOf p + i)
  zeroed : ∀ a, c.spaces.active.start ≤ a → a < c.spaces.active.top → m'.byte a = 0

theorem Rooted.moved {done : List Origin} {e : Evacuation} {l : List Nat} {c' : Copying} {m' : Memory}
    (rooted : Rooted types roots c m) (departure : Departure types roots c.resident c.spaces.reserve m) (ledger : Ledger c)
    (arrived : Arrived types roots c.spaces.reserve m (Reach types roots m) l done e) (settles : Settles c e c' m') :
    Moved types roots c m l c' m' := by
  have footing := departure.footing
  have shape := settles.shape
  have same := settles.same
  constructor
  case reach => exact arrived.mem_iff_reach departure
  case relocation => exact arrived.relocation departure shape same settles.cells
  case resident =>
    rw [settles.resident]
    exact arrived.copies
  case tiled => exact settles.tiled footing arrived
  case owns =>
    intro p member
    rw [owns, settles.resident, settles.active, arrived.contains_copies member, Bool.and_true]
    exact arrived.contains_copy footing member
  case elsewhere =>
    intro a outActive outReserve
    have room := ledger.room
    rw [← ledger.active] at outActive
    rw [← ledger.reserve] at outReserve
    rw [settles.elsewhere a (by unfold Space.top; omega)]
    have total := arrived.total_le footing
    refine arrived.elsewhere a (fun p reach => ?_) (by omega)
    obtain ⟨first, last⟩ := rooted.sized.within p reach
    unfold payloadOf blockOf Space.top at *
    omega
  case inside =>
    intro p member
    have bounds := copyOf_bounds c.spaces.reserve m member
    have room := arrived.total_le footing
    have spans := departure.spans (arrived.reached _ member).1
    have payload : copyOf c.spaces.reserve m l p = blockOf (copyOf c.spaces.reserve m l p) + headerSize := by
      rw [blockOf_copyOf]
      rfl
    omega
  case nodup => exact arrived.nodup
  case residents =>
    rw [settles.resident]
    exact arrived.toList_copies footing shape same
  case spaces => rw [settles.spaces, arrived.reserve]
  case copied =>
    intro p member slots listed i lt clear
    obtain ⟨rfl, -⟩ := departure.consistent.toIntact.eq_visited (arrived.reached p member).1 listed
    exact arrived.byte_copy footing same member lt clear
  case zeroed => exact settles.zeroed

section

variable {c : Copying} {w : World} (books : w.Books) (engine : w.heap.collector.engine = .copying c)
  (rooted : c.Rooted w.heap.types w.heap.roots.slots w.memory)

include books engine rooted

/-- What is copied follows the order of copying, or fails as that does. -/
theorem departures_eq : match copyOrder w.heap.types w.heap.roots.slots w.memory c.spaces.size with
    | some l => departures w.heap.types w.heap.roots.slots c.resident c.spaces.reserve w.memory = .ok l
    | none => ∃ p target, departures w.heap.types w.heap.roots.slots c.resident c.spaces.reserve w.memory =
        .error (.corrupted p (.danglingForward target)) := by
  have ledger := books.ledger
  rw [engine] at ledger
  have agreed := (rooted.departure books.regular books.types ledger).departures_eq
  rwa [ledger.1.reserve] at agreed

/-- A collection reads what can be reached, and moves it in the order of copying. -/
theorem moves : match copyOrder w.heap.types w.heap.roots.slots w.memory c.spaces.size with
    | some l => ∃ c' m', Engine.collect w.heap.types w.heap.roots.slots (w.heap.collector.engine, w.memory) =
          .ok (c.movedReport l (l.map w.memory.blockSize).sum) (.copying c', m') ∧
        (w.afterCollection (c.movedReport l (l.map w.memory.blockSize).sum) (.copying c') m').WellFormed ∧
        Moved w.heap.types w.heap.roots.slots c w.memory l c' m'
    | none => ∃ p target c' m', Engine.collect w.heap.types w.heap.roots.slots (w.heap.collector.engine, w.memory) =
        .error (.corrupted p (.danglingForward target)) (.copying c', m') := by
  have ledger := books.ledger
  rw [engine] at ledger
  have departure := rooted.departure books.regular books.types ledger
  have spec := collect_settles books engine departure.footing rooted.sized.typed
  have agreed := departures_eq books engine rooted
  cases order : copyOrder w.heap.types w.heap.roots.slots w.memory c.spaces.size with
  | none =>
    rw [order] at agreed
    obtain ⟨p, target, failed⟩ := agreed
    rw [failed] at spec
    exact ⟨p, target, spec⟩
  | some l =>
    rw [order] at agreed
    rw [agreed] at spec
    obtain ⟨e, done, c', m', ran, arrived, settles, formed⟩ := spec
    exact ⟨c', m', ran, formed, rooted.moved departure ledger.1 arrived settles⟩

variable (healthy : w.heap.poisoned = none)

include healthy

/-- Where the order of copying has no answer, the collection reports a dangling reference. -/
theorem collect_stuck (order : copyOrder w.heap.types w.heap.roots.slots w.memory c.spaces.size = none) :
    ∃ p target w', Heap.collect w = .error (.corrupted p (.danglingForward target)) w' ∧
      w'.heap.poisoned = some (.corrupted p (.danglingForward target)) := by
  have spec := moves books engine rooted
  rw [order] at spec
  obtain ⟨p, target, c', m', failed⟩ := spec
  exact ⟨p, target, Heap.collect_error healthy failed⟩

/-- Otherwise it moves what can be reached, and the heap is well-formed afterwards. -/
theorem collect_rooted {l : List Nat}
    (order : copyOrder w.heap.types w.heap.roots.slots w.memory c.spaces.size = some l) :
    ∃ report c' m', Heap.collect w = .ok report (w.afterCollection report (.copying c') m') ∧
      report = c.movedReport l (l.map w.memory.blockSize).sum ∧
      (w.afterCollection report (.copying c') m').Books ∧ (w.afterCollection report (.copying c') m').WellFormed ∧
      Moved w.heap.types w.heap.roots.slots c w.memory l c' m' := by
  have spec := moves books engine rooted
  rw [order] at spec
  obtain ⟨c', m', ran, formed, moved⟩ := spec
  exact ⟨_, c', m', Heap.collect_ok healthy books ran formed, rfl, books.afterCollection ran, formed, moved⟩

end

variable {c : Copying} {w : World}

/-- Well-formed heaps are a case of it. -/
theorem collect_dangling (reached : Reached w) (healthy : w.heap.poisoned = none)
    (engine : w.heap.collector.engine = .copying c) (formed : w.WellFormed)
    (order : copyOrder w.heap.types w.heap.roots.slots w.memory c.spaces.size = none) :
    ∃ p target w', Heap.collect w = .error (.corrupted p (.danglingForward target)) w' ∧
      w'.heap.poisoned = some (.corrupted p (.danglingForward target)) :=
  collect_stuck (reached.orderly healthy) engine (formed.rooted (reached.orderly healthy) engine) healthy order

-- `copyOrder` says on the graph alone whether the exception arises: it lists the references in the order in which
-- the collection follows them, without running it.
/-- In every well-formed state that a heap can reach, a collection moves what can be reached to the reserve, and
every reference follows. It fails if, and only if, in the order of copying an empty object is met again while it
is the one copied last. -/
theorem collect_moves_reachable {w : World} {c : Copying} (reached : Reached w) (healthy : w.heap.poisoned = none)
    (engine : w.heap.collector.engine = .copying c) (formed : w.WellFormed) :
    match copyOrder w.heap.types w.heap.roots.slots w.memory c.spaces.size with
    | some l => ∃ report w' c', Heap.collect w = .ok report w' ∧ w'.heap.collector.engine = .copying c' ∧
        w'.WellFormed ∧ w'.heap.poisoned = none ∧
        (∀ p, p ∈ l ↔ Reach w.heap.types w.heap.roots.slots w.memory p) ∧
        Relocation w.heap.types w.heap.roots.slots w.memory w'.memory (copyOf c.spaces.reserve w.memory l) ∧
        (∀ q, c'.resident.contains q = true ↔ ∃ p ∈ l, copyOf c.spaces.reserve w.memory l p = q) ∧
        (∀ p ∈ l, c'.owns (copyOf c.spaces.reserve w.memory l p) = true ↔
          ¬ (l.getLast? = some p ∧ w.memory.isEmpty p = true)) ∧
        ∀ p ∈ l, c.spaces.reserve.start ≤ blockOf (copyOf c.spaces.reserve w.memory l p) ∧
          copyOf c.spaces.reserve w.memory l p + w.memory.payloadSize p ≤
            c.spaces.reserve.start + c.spaces.reserve.size
    | none => ∃ p target w', Heap.collect w = .error (.corrupted p (.danglingForward target)) w' ∧
        w'.heap.poisoned = some (.corrupted p (.danglingForward target)) := by
  cases order : copyOrder w.heap.types w.heap.roots.slots w.memory c.spaces.size with
  | none => exact collect_dangling reached healthy engine formed order
  | some l =>
    have books := reached.orderly healthy
    obtain ⟨report, c', m', ran, -, -, formed', moved⟩ :=
      collect_rooted books engine (formed.rooted books engine) healthy order
    exact ⟨report, _, c', ran, rfl, formed', healthy, moved.reach, moved.relocation, moved.resident, moved.owns,
      moved.inside⟩

/-- Of an array whose element is a reference to itself and one that nothing leads to, the first is moved. -/
theorem collect_moves_loop : ∃ w c l, Reached w ∧ w.heap.collector.engine = .copying c ∧ w.WellFormed ∧
    l = [Memory.origin + 24] ∧ c.resident.toList = [Memory.origin + 24, Memory.origin + 64] ∧
    w.memory.word (Memory.origin + 32) = Memory.origin + 24 ∧
    ∃ report w' c', Heap.collect w = .ok report w' ∧ w'.heap.collector.engine = .copying c' ∧
      Relocation w.heap.types w.heap.roots.slots w.memory w'.memory (copyOf c.spaces.reserve w.memory l) ∧
      ∀ q, c'.resident.contains q = true ↔ ∃ p ∈ l, copyOf c.spaces.reserve w.memory l p = q := by
  have ran : ((World.play (fun w _ => w.heap.poisoned = none) { strategy := .copying, heapSize := 4096 } 1
      [.call (.register .references Descriptor.references_isWords), .call .pushRoot, .call (.addRoot ⟨0, 0⟩ (.cell 0)),
        .call (.allocateArray ⟨1⟩ 1), .setCell 0 (Memory.origin + 24), .call (.allocateArray ⟨1⟩ 0),
        .writeWord (Memory.origin + 24) 8 (Memory.origin + 24)]).any fun w =>
      w.onCopying fun c => w.heap.poisoned = none ∧ w.WellFormed ∧
        c.resident.toList = [Memory.origin + 24, Memory.origin + 64] ∧
        w.memory.word (Memory.origin + 32) = Memory.origin + 24 ∧ w.heap.roots.slots.Nodup ∧
        (CopyOrder.followAll w.memory.isEmpty [] (w.heap.roots.slots.map w.memory.slot)).bind
          (CopyOrder.scan w.memory.isEmpty (w.heap.types.references w.memory) c.spaces.size 0) =
            some [Memory.origin + 24]) = true := by
    decide +kernel
  obtain ⟨w, played, shown⟩ := (Option.any_eq_true _ _).1 ran
  obtain ⟨c, engine, shown⟩ := World.onCopying_eq_true.1 shown
  obtain ⟨healthy, formed, resident, word, nodup, order⟩ := of_decide_eq_true shown
  have reached := Reached.of_play played
  have spec := collect_moves_reachable reached healthy engine formed
  rw [copyOrder, distinctSlots_of_nodup nodup, order] at spec
  obtain ⟨report, w', c', collected, engine', -, -, -, relocation, copies, -⟩ := spec
  exact ⟨w, c, _, reached, engine, formed, rfl, resident, word, report, w', c', collected, engine', relocation, copies⟩

/-- An object without payload, with another one behind it, is met twice in a row from two cells. The collection
reports the second reference as dangling. -/
theorem collect_fails_on_empty : ∃ w c, Reached w ∧ w.heap.poisoned = none ∧ w.heap.collector.engine = .copying c ∧
    w.WellFormed ∧ c.owns (Memory.origin + 24) = true ∧ ∀ report w', Heap.collect w ≠ .ok report w' := by
  have ran : ((World.play (fun w _ => w.heap.poisoned = none) { strategy := .copying, heapSize := 4096 } 3
      [.call (.register .empty Descriptor.empty_isWords), .call (.register .references Descriptor.references_isWords),
        .call .pushRoot, .call (.addRoot ⟨0, 0⟩ (.cell 0)), .call (.addRoot ⟨0, 0⟩ (.cell 1)),
        .call (.addRoot ⟨0, 0⟩ (.cell 2)), .call (.allocate ⟨1⟩ 0), .setCell 0 (Memory.origin + 24),
        .setCell 1 (Memory.origin + 24), .call (.allocateArray ⟨2⟩ 0), .setCell 2 (Memory.origin + 48)]).any fun w =>
      w.onCopying fun c => w.heap.poisoned = none ∧ w.WellFormed ∧ c.owns (Memory.origin + 24) = true ∧
        w.heap.roots.slots.Nodup ∧
        (CopyOrder.followAll w.memory.isEmpty [] (w.heap.roots.slots.map w.memory.slot)).isNone) = true := by
    decide +kernel
  obtain ⟨w, played, shown⟩ := (Option.any_eq_true _ _).1 ran
  obtain ⟨c, engine, shown⟩ := World.onCopying_eq_true.1 shown
  obtain ⟨healthy, formed, owns, nodup, order⟩ := of_decide_eq_true shown
  have reached := Reached.of_play played
  have unanswered : copyOrder w.heap.types w.heap.roots.slots w.memory c.spaces.size = none := by
    rw [copyOrder, distinctSlots_of_nodup nodup, Option.isNone_iff_eq_none.1 order, Option.bind_none]
  obtain ⟨p, target, w', ran, -⟩ := collect_dangling reached healthy engine formed unanswered
  refine ⟨w, c, reached, healthy, engine, formed, owns, fun report w'' collected => ?_⟩
  rw [collected] at ran
  cases ran

end Copying

end TracingHeap
