import TracingHeap.Proofs.Copying.Arrival
import TracingHeap.Proofs.Heap.Collection

/-! A whole collection that moves, whatever words and states it meets. -/

set_option autoImplicit false

namespace TracingHeap.Copying

variable {types : TypeTable} {roots : List Slot} {c c' : Copying} {m m' : Memory} {live : Nat → Prop} {l : List Nat}
  {done : List Origin} {e : Evacuation}

/-- The report on a collection that has moved some objects. -/
def movedReport (c : Copying) (l : List Nat) (bytes : Nat) : CollectionReport where
  objectsReclaimed := c.resident.size - l.length
  bytesReclaimed := c.spaces.active.cursor - bytes
  objectsRelocated := l.length
  bytesRelocated := bytes
  forwardingHeaders := l.length
  objectsLive := l.length
  bytesLive := bytes

/-- The end of a collection: the old space is zeroed, and the spaces change places. -/
structure Settles (c : Copying) (e : Evacuation) (c' : Copying) (m' : Memory) : Prop where
  resident : c'.resident = e.copies
  spaces : c'.spaces = { c.spaces with active := e.reserve, reserve := { c.spaces.active with cursor := 0 } }
  shape : e.memory.SameShape m'
  cells : m'.cells = e.memory.cells
  same : ∀ a, c.spaces.reserve.start ≤ a → a < c.spaces.reserve.start + c.spaces.reserve.size →
    m'.byte a = e.memory.byte a
  elsewhere : ∀ a, a < c.spaces.active.start ∨ c.spaces.active.top ≤ a → m'.byte a = e.memory.byte a
  zeroed : ∀ a, c.spaces.active.start ≤ a → a < c.spaces.active.top → m'.byte a = 0

theorem Settles.active (settles : Settles c e c' m') : c'.spaces.active = e.reserve := by rw [settles.spaces]

theorem Settles.tiled (settles : Settles c e c' m') (footing : Footing types roots c.resident c.spaces.reserve m live)
    (arrived : Arrived types roots c.spaces.reserve m live l done e) :
    Tiled m' c'.spaces.active.top c'.spaces.active.start c'.resident.toList := by
  have start : e.reserve.start = c.spaces.reserve.start := by rw [arrived.reserve]
  rw [settles.active, settles.resident, start, arrived.toList_copies footing settles.shape settles.same]
  exact arrived.tiled_copies footing settles.shape settles.same

/-- A collection comes to what follows from the memory before it. -/
theorem collect_outcome (footing : Footing types roots c.resident c.spaces.reserve m live) (ledger : Ledger c)
    (active : m.holds c.spaces.active.start c.spaces.size = true) :
    match departures types roots c.resident c.spaces.reserve m with
    | .ok l => ∃ e done c' m', c.collect types roots m = .ok (c.movedReport l (l.map m.blockSize).sum) (c', m') ∧
        Arrived types roots c.spaces.reserve m live l done e ∧ Settles c e c' m'
    | .error x => ∃ e l done, c.collect types roots m = .error x (c.afterFailure e, e.memory) ∧
        Moving types roots c.spaces.reserve m live l done e := by
  have spec := evacuateAll_spec footing ledger.empty
  unfold collect
  cases outcome : departures types roots c.resident c.spaces.reserve m with
  | error x =>
    rw [outcome] at spec
    obtain ⟨e, l, done, ran, moving, -⟩ := spec
    exact ⟨e, l, done, by simp only [ran], moving⟩
  | ok l =>
    rw [outcome] at spec
    obtain ⟨e, done, ran, arrived⟩ := spec
    have regular := arrived.regular footing
    have cleared : e.memory.holds c.spaces.active.start c.spaces.active.cursor = true := by
      rw [arrived.shape.holds]
      exact Memory.holds_of_range footing.regular active (Nat.le_refl _)
        (Nat.add_le_add_left (ledger.active ▸ ledger.room) _)
    have reserve := footing.reserve
    rw [← arrived.shape.holds] at reserve
    have settles : Settles c e (c.afterSuccess e).1 (c.afterSuccess e).2 := by
      constructor
      case resident => rfl
      case spaces => rfl
      case shape => exact Memory.sameShape_clear e.memory c.spaces.active.start c.spaces.active.cursor
      case cells => exact Memory.cells_modifyArena ..
      case same =>
        -- The old space is another arena than the reserve, so the copies are not touched.
        intro a low high
        show (e.memory.clear c.spaces.active.start c.spaces.active.cursor).byte a = _
        rw [Memory.byte_clear regular cleared, if_neg fun within => ?_]
        have there : e.memory.holds a 1 = true := Memory.holds_of_range regular reserve low (by omega)
        have meet := Memory.index_eq_of_overlap regular cleared there (by omega)
        have here := Memory.index_eq_of_range regular reserve low (Nat.le_of_lt high)
        exact ledger.apart (meet.trans here)
      case elsewhere =>
        intro a out
        show (e.memory.clear c.spaces.active.start c.spaces.active.cursor).byte a = _
        rw [Memory.byte_clear regular cleared, if_neg (by unfold Space.top at out; omega)]
      case zeroed =>
        intro a low high
        show (e.memory.clear c.spaces.active.start c.spaces.active.cursor).byte a = 0
        rw [Memory.byte_clear regular cleared, if_pos ⟨low, high⟩]
    have list := arrived.toList_copies footing settles.shape settles.same
    have count : e.copies.size = l.length := by rw [← Std.TreeSet.length_toList, list, List.length_map]
    have used : e.reserve.cursor = (l.map m.blockSize).sum := by rw [arrived.reserve]
    refine ⟨e, done, (c.afterSuccess e).1, (c.afterSuccess e).2, ?_, arrived, settles⟩
    simp only [ran]
    simp only [movedReport, afterSuccess, SpacePair.flip, arrived.objects, arrived.bytes, count, used]

/-! ### In a heap -/

section

variable {w : World} (books : w.Books) (engine : w.heap.collector.engine = .copying c)
  (footing : Footing w.heap.types w.heap.roots.slots c.resident c.spaces.reserve w.memory live)
  (typed : ∀ p, live p → w.memory.Unmarked p → ∃ d, w.heap.types.get? (w.memory.header (blockOf p)).typeId = some d ∧
    d.fixedSize ≤ w.memory.payloadSize p ∧ w.memory.payloadSize p ≤ largestPayload)

include footing typed

-- Every word of a copy was followed when it was rewritten, so it leads to a copy, whatever has led there.
/-- What is left is well-formed: there are only copies, and all words in them lead to copies. -/
theorem wellFormed_of_arrived (report : CollectionReport)
    (arrived : Arrived w.heap.types w.heap.roots.slots c.spaces.reserve w.memory live l done e)
    (settles : Settles c e c' m') : (w.afterCollection report (.copying c') m').WellFormed := by
  have shape := settles.shape
  have same := settles.same
  have held (q : Nat) : (Engine.copying c').Held q ↔ ∃ p ∈ l, copyOf c.spaces.reserve w.memory l p = q := by
    show c'.resident.contains q = true ↔ _
    rw [settles.resident]
    exact arrived.copies q
  have leads (word : Nat) (settled : Settled c.spaces.reserve w.memory live l word) :
      (w.afterCollection report (.copying c') m').IsReference (aim c.spaces.reserve w.memory l word) :=
    (settled.aim_null_or_copy arrived.intact).imp_right (held _).2
  constructor
  case unmarked =>
    intro q holds
    obtain ⟨p, member, rfl⟩ := (held q).1 holds
    exact arrived.check_eq footing shape same member
  case typed =>
    intro q holds
    obtain ⟨p, member, rfl⟩ := (held q).1 holds
    obtain ⟨d, type, fixed, small⟩ := typed p (arrived.reached p member).1 (arrived.intact p member)
    have size := arrived.payloadSize_eq footing shape same member
    refine ⟨d, ?_, size ▸ fixed, size ▸ small⟩
    show w.heap.types.get? (m'.header _).typeId = _
    rw [arrived.header_eq footing shape same member]
    exact type
  case fits => exact settles.tiled footing arrived
  case references =>
    intro q holds
    obtain ⟨p, member, rfl⟩ := (held q).1 holds
    obtain ⟨ks, visited, listed, word⟩ := arrived.tracedSlots_eq footing shape same member
    refine ⟨_, listed, fun a within => ?_⟩
    obtain ⟨k, place, rfl⟩ := List.mem_map.1 within
    have known : blockOf p + k ∈ w.heap.types.visited w.memory p := visited ▸ List.mem_map_of_mem place
    show (w.afterCollection report (.copying c') m').IsReference (m'.word _)
    rw [word k place]
    exact leads _ (arrived.settled (.word p k) ((arrived.complete _).2 ⟨member, known⟩))
  case outside =>
    intro s root
    obtain ⟨i, cell, below⟩ := footing.cells s root
    exact ⟨i, cell, by rwa [← (arrived.shape.trans shape).cells] at below⟩
  case roots =>
    intro s root
    obtain ⟨i, rfl, -⟩ := footing.cells s root
    have rewritten := (arrived.complete (.root i)).2 root
    have cell := arrived.cell i
    rw [if_pos rewritten] at cell
    show (w.afterCollection report (.copying c') m').IsReference (m'.cells[i]?.getD 0)
    rw [settles.cells, show e.memory.cells[i]?.getD 0 = _ from cell]
    exact leads _ (arrived.settled (.root i) rewritten)

include books engine

/-- So a collection that succeeds leaves a well-formed heap. -/
theorem collect_settles :
    match departures w.heap.types w.heap.roots.slots c.resident c.spaces.reserve w.memory with
    | .ok l => ∃ e done c' m', Engine.collect w.heap.types w.heap.roots.slots (w.heap.collector.engine, w.memory) =
          .ok (c.movedReport l (l.map w.memory.blockSize).sum) (.copying c', m') ∧
        Arrived w.heap.types w.heap.roots.slots c.spaces.reserve w.memory live l done e ∧ Settles c e c' m' ∧
        (w.afterCollection (c.movedReport l (l.map w.memory.blockSize).sum) (.copying c') m').WellFormed
    | .error x => ∃ c' m', Engine.collect w.heap.types w.heap.roots.slots (w.heap.collector.engine, w.memory) =
        .error x (.copying c', m') := by
  have ledger := books.ledger
  rw [engine] at ledger ⊢
  have spec := collect_outcome footing ledger.1 ledger.2.1
  cases outcome : departures w.heap.types w.heap.roots.slots c.resident c.spaces.reserve w.memory with
  | error x =>
    rw [outcome] at spec
    obtain ⟨e, l, done, ran, -⟩ := spec
    exact ⟨c.afterFailure e, e.memory, by simp only [Engine.collect, ran]⟩
  | ok l =>
    rw [outcome] at spec
    obtain ⟨e, done, c', m', ran, arrived, settles⟩ := spec
    exact ⟨e, done, c', m', by simp only [Engine.collect, ran], arrived, settles,
      wellFormed_of_arrived footing typed _ arrived settles⟩

end

end TracingHeap.Copying
