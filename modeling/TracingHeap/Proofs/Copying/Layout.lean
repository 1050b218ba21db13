import TracingHeap.Proofs.Copying.BreadthFirst
import TracingHeap.Proofs.Copying.Exactness
import TracingHeap.Proofs.Copying.Renaming

/-! Where the copies lie after a collection.

They lie one behind the other from the start of their space on, in the order in which a breadth-first search
meets the objects. The objects that cannot be reached have no part in it, whatever has been written over them. -/

set_option autoImplicit false

namespace TracingHeap

variable {types : TypeTable} {roots : List Slot} {resident : Std.TreeSet Nat} {space : Space} {m m' : Memory}
  {p : Nat}

/-- The memories have the same cells and, where `m` has the blocks that can be reached, the same bytes. -/
structure Coincide (types : TypeTable) (roots : List Slot) (m m' : Memory) : Prop where
  shape : m.SameShape m'
  cells : m'.cells = m.cells
  blocks : ∀ p, Reach types roots m p → ∀ i, i < m.blockSize p → m'.byte (blockOf p + i) = m.byte (blockOf p + i)

namespace Coincide

variable (departure : Departure types roots resident space m) (coincide : Coincide types roots m m')

include departure coincide

theorem relocation : Relocation types roots m m' id :=
  .of_same departure.consistent coincide.shape coincide.cells fun p reach i lt =>
    coincide.blocks p reach i (Nat.lt_of_lt_of_le lt (departure.spans reach))

theorem reach_iff : Reach types roots m' p ↔ Reach types roots m p := by
  have positive (p : Nat) (reach : Reach types roots m p) : id p ≠ 0 :=
    Nat.ne_of_gt (Nat.lt_of_lt_of_le (by decide) (departure.consistent.low reach))
  rw [(coincide.relocation departure).reach_iff departure.consistent positive]
  exact ⟨fun ⟨q, reach, same⟩ => same ▸ reach, fun reach => ⟨p, reach, rfl⟩⟩

theorem blockSize_eq (reach : Reach types roots m p) : m'.blockSize p = m.blockSize p :=
  congrArg footprint ((coincide.relocation departure).size p reach)

theorem slot_eq {s : Slot} (root : s ∈ roots) : m'.slot s = m.slot s := by
  rw [(coincide.relocation departure).root s root, relocated_id]

theorem slots_eq (reach : Reach types roots m p) {slots : List Nat} (listed : types.tracedSlots m p = .ok slots) :
    types.tracedSlots m' p = .ok slots ∧ ∀ a ∈ slots, m'.word a = m.word a := by
  have relocation := coincide.relocation departure
  constructor
  · simpa using relocation.slots p reach slots listed
  · intro a member
    have word := relocation.word p reach slots listed a member
    rwa [id, Nat.add_sub_cancel, relocated_id] at word

/-- The order of copying is the same. -/
theorem copyOrder_eq (departure' : Departure types roots resident space m') (rounds : Nat) :
    copyOrder types roots m' rounds = copyOrder types roots m rounds := by
  have value (p : Nat) (reach : Reach types roots m p) : id p ≠ 0 :=
    Nat.ne_of_gt (Nat.lt_of_lt_of_le (by decide) (departure.consistent.low reach))
  have same := (coincide.relocation departure).copyOrder_eq value departure.consistent departure'.consistent rounds
  rwa [List.map_id_fun, Option.map_id_fun] at same

end Coincide

namespace Copying

variable {c : Copying} {w : World}

/-- What cannot be reached may be anything, before and after. -/
theorem Rooted.congr (rooted : c.Rooted types roots m)
    (departure : Departure types roots resident space m) (coincide : Coincide types roots m m') :
    c.Rooted types roots m' := by
  have relocation := coincide.relocation departure
  have back {p : Nat} (reach : Reach types roots m' p) := (coincide.reach_iff departure).1 reach
  constructor
  case unmarked => exact fun p reach => relocation.unmarked p (back reach)
  case typed =>
    intro p reach
    obtain ⟨d, type, fixed, small⟩ := rooted.typed p (back reach)
    rw [← relocation.type p (back reach)] at type
    rw [← relocation.size p (back reach)] at fixed small
    exact ⟨d, type, fixed, small⟩
  case references =>
    intro p reach
    obtain ⟨slots, listed, leads⟩ := rooted.references p (back reach)
    obtain ⟨listed', same⟩ := coincide.slots_eq departure (back reach) listed
    exact ⟨slots, listed', fun a member => by rw [same a member]; exact leads a member⟩
  case within =>
    intro p reach
    rw [coincide.blockSize_eq departure (back reach)]
    exact rooted.within p (back reach)
  case apart =>
    intro p q first second
    rw [coincide.blockSize_eq departure (back first)]
    exact rooted.apart p q (back first) (back second)
  case outside =>
    intro s root
    rw [coincide.cells]
    exact rooted.outside s root
  case roots =>
    intro s root
    rw [coincide.slot_eq departure root]
    exact rooted.roots s root

namespace Moved

section

variable {l : List Nat} {c' : Copying} (moved : Moved types roots c m l c' m')

include moved

theorem blockSize_eq (member : p ∈ l) : m'.blockSize (copyOf c.spaces.reserve m l p) = m.blockSize p :=
  congrArg footprint (moved.relocation.size p ((moved.reach p).1 member))

/-- Every address in use belongs to a copy. -/
theorem exists_copy {a : Nat} (low : c'.spaces.active.start ≤ a) (high : a < c'.spaces.active.top) :
    ∃ p ∈ l, ∃ i, i < m.blockSize p ∧ a = blockOf (copyOf c.spaces.reserve m l p) + i := by
  obtain ⟨q, member, first, last⟩ := moved.tiled.exists_block low high
  rw [moved.residents] at member
  obtain ⟨p, known, rfl⟩ := List.mem_map.1 member
  rw [moved.blockSize_eq known] at last
  exact ⟨p, known, a - blockOf (copyOf c.spaces.reserve m l p), by omega, by omega⟩

/-- A traced word of a copy. -/
theorem word_eq (departure : Departure types roots c.resident c.spaces.reserve m) (member : p ∈ l) {slots : List Nat}
    (listed : types.tracedSlots m p = .ok slots) {k : Nat} (place : blockOf p + k ∈ slots) :
    m'.holds (blockOf (copyOf c.spaces.reserve m l p) + k) wordSize = true ∧
      m'.word (blockOf (copyOf c.spaces.reserve m l p) + k) =
        relocated (copyOf c.spaces.reserve m l) (m.word (blockOf p + k)) := by
  have reach := (moved.reach p).1 member
  have word := moved.relocation.word p reach _ listed _ place
  have low := departure.consistent.low reach
  obtain ⟨same, -⟩ := departure.consistent.toIntact.eq_visited reach listed
  have bounds := (departure.footing.place ⟨reach, departure.consistent.unmarked p reach⟩ (same ▸ place)).2.1
  obtain ⟨first, last⟩ := moved.inside p member
  have payload : copyOf c.spaces.reserve m l p = blockOf (copyOf c.spaces.reserve m l p) + headerSize := by
    rw [blockOf_copyOf]
    rfl
  have same : blockOf p + k + copyOf c.spaces.reserve m l p - p = blockOf (copyOf c.spaces.reserve m l p) + k := by
    unfold blockOf at payload ⊢
    omega
  rw [same] at word
  refine ⟨?_, word⟩
  rw [moved.relocation.shape.holds]
  exact Memory.holds_of_range departure.consistent.regular departure.footing.reserve (by omega) (by omega)

end

section

variable {l : List Nat} {c₁ c₂ : Copying} {m₁ m₂ : Memory}
  (departure : Departure types roots c.resident c.spaces.reserve m)
  (departure' : Departure types roots c.resident c.spaces.reserve m') (coincide : Coincide types roots m m')
  (moved : Moved types roots c m l c₁ m₁) (moved' : Moved types roots c m' l c₂ m₂)

include departure coincide moved

theorem copyOf_eq : copyOf c.spaces.reserve m' l = copyOf c.spaces.reserve m l :=
  copyOf_congr fun q member => coincide.blockSize_eq departure ((moved.reach q).1 member)

include departure' moved'

-- The bytes of a traced word are those of a reference that has been rewritten in the same way; all others are copied.
/-- The copies are the same in both memories. -/
theorem byte_eq {a : Nat} (low : c₁.spaces.active.start ≤ a) (high : a < c₁.spaces.active.top) :
    m₂.byte a = m₁.byte a := by
  obtain ⟨p, member, i, lt, rfl⟩ := moved.exists_copy low high
  have reach := (moved.reach p).1 member
  obtain ⟨slots, listed, -⟩ := departure.consistent.tracedWords_eq reach
  obtain ⟨listed', words⟩ := coincide.slots_eq departure reach listed
  have same := copyOf_eq departure coincide moved
  by_cases traced : ∃ k, blockOf p + k ∈ slots ∧ k ≤ i ∧ i < k + wordSize
  · obtain ⟨k, place, first, last⟩ := traced
    obtain ⟨inside, word⟩ := moved.word_eq departure member listed place
    obtain ⟨inside', word'⟩ := moved'.word_eq departure' member listed' place
    rw [same, words _ place, ← word] at word'
    rw [same] at inside'
    have byte := Memory.byte_eq_of_word (departure.consistent.regular.of_sameShape moved.relocation.shape)
      (departure'.consistent.regular.of_sameShape moved'.relocation.shape) inside inside' word'
      (i := i - k) (by omega)
    rwa [Nat.add_assoc, Nat.add_sub_cancel' first] at byte
  · have clear (b : Nat) (slot : b ∈ slots) : blockOf p + i < b ∨ b + wordSize ≤ blockOf p + i := by
      by_contra meet
      obtain ⟨d, count, o, found⟩ := departure.consistent.tracedSlots_eq reach
      obtain rfl : slots = _ := Except.ok.inj (listed.symm.trans found)
      obtain ⟨k, place, rfl⟩ := List.mem_map.1 slot
      exact traced ⟨k, slot, by omega, by omega⟩
    have lt' := lt
    rw [← coincide.blockSize_eq departure reach] at lt'
    have copied' := moved'.copied p member _ listed' i lt' clear
    rw [same] at copied'
    rw [copied', moved.copied p member _ listed i lt clear]
    exact coincide.blocks p reach i lt

end

end Moved

/-- The same objects are moved to the same places, and the same is left behind. -/
theorem collect_coincide (books : w.Books) (healthy : w.heap.poisoned = none)
    (engine : w.heap.collector.engine = .copying c) (rooted : c.Rooted w.heap.types w.heap.roots.slots w.memory)
    {l : List Nat} (order : copyOrder w.heap.types w.heap.roots.slots w.memory c.spaces.size = some l)
    {w₁ : World} {c₁ : Copying} (moved : Moved w.heap.types w.heap.roots.slots c w.memory l c₁ w₁.memory)
    (coincide : Coincide w.heap.types w.heap.roots.slots w.memory m) :
    ∃ w₂ c₂, Heap.collect { w with memory := m } = .ok (c.movedReport l (l.map w.memory.blockSize).sum) w₂ ∧
      w₂.heap.collector.engine = .copying c₂ ∧ c₂.spaces = c₁.spaces ∧ c₂.resident.toList = c₁.resident.toList ∧
      (∀ i, w₂.memory.slot (.cell i) = w₁.memory.slot (.cell i)) ∧
      ∀ a, c₁.spaces.active.start ≤ a ∧ a < c₁.spaces.active.top ∨
        c.spaces.active.start ≤ a ∧ a < c.spaces.active.top → w₂.memory.byte a = w₁.memory.byte a := by
  have ledger := books.ledger
  rw [engine] at ledger
  have departure := rooted.departure books.regular books.types ledger
  have rooted' := rooted.congr departure coincide
  have books' : World.Books { w with memory := m } :=
    ⟨books.regular.of_sameShape coincide.shape, books.types, books.ledger.of_sameShape coincide.shape⟩
  have departure' : Departure w.heap.types w.heap.roots.slots c.resident c.spaces.reserve m :=
    rooted'.departure books'.regular books'.types (ledger.of_sameShape coincide.shape)
  have order' := (coincide.copyOrder_eq departure departure' c.spaces.size).trans order
  have sizes : l.map m.blockSize = l.map w.memory.blockSize :=
    List.map_congr_left fun p member => coincide.blockSize_eq departure ((moved.reach p).1 member)
  obtain ⟨_, c₂, m₂, ran, rfl, -, -, moved'⟩ := collect_rooted books' engine rooted' healthy order'
  rw [sizes] at ran
  have same := moved.copyOf_eq departure coincide
  refine ⟨_, c₂, ran, rfl, ?_, ?_, fun i => ?_, ?_⟩
  · rw [moved'.spaces, moved.spaces, sizes]
  · rw [moved'.residents, moved.residents, same]
  · show m₂.slot (.cell i) = _
    by_cases root : Slot.cell i ∈ w.heap.roots.slots
    · rw [moved'.relocation.root _ root, moved.relocation.root _ root, coincide.slot_eq departure root, same]
    · rw [moved'.relocation.cell i root, moved.relocation.cell i root]
      simp only [Memory.slot, coincide.cells]
  · rintro a (⟨low, high⟩ | ⟨low, high⟩)
    · exact moved.byte_eq departure departure' coincide moved' low high
    · exact (moved'.zeroed a low high).trans (moved.zeroed a low high).symm

-- The search is a reference: it knows neither headers nor spaces, and no object is copied last in it. `copyOrder` is
-- the same order where it has an answer, and it has one at least if nothing that can be reached is empty.
/-- A collection lays out what can be reached in breadth-first order, one object behind the other, clears what it
leaves, and does so whatever stands in objects that cannot be reached. It fails if, and only if, in the order of
copying an empty object is met again while it is the one copied last. -/
theorem collect_lays_out {w : World} {c : Copying} (reached : Reached w) (healthy : w.heap.poisoned = none)
    (engine : w.heap.collector.engine = .copying c) (rooted : c.Rooted w.heap.types w.heap.roots.slots w.memory) :
    ((∀ p, Reach w.heap.types w.heap.roots.slots w.memory p → w.memory.isEmpty p = false) →
      (copyOrder w.heap.types w.heap.roots.slots w.memory c.spaces.size).isSome) ∧
    match copyOrder w.heap.types w.heap.roots.slots w.memory c.spaces.size with
    | some l => ∃ report w' c', Heap.collect w = .ok report w' ∧ w'.heap.poisoned = none ∧
        w'.heap.collector.engine = .copying c' ∧
        (∀ rounds, l.length ≤ rounds → breadthFirst w.heap.types w.heap.roots.slots w.memory rounds = l) ∧
        (∀ i p, l[i]? = some p → copyOf c.spaces.reserve w.memory l p =
          payloadOf (c.spaces.reserve.start + ((l.take i).map w.memory.blockSize).sum)) ∧
        Moved w.heap.types w.heap.roots.slots c w.memory l c' w'.memory ∧
        ∀ m, Coincide w.heap.types w.heap.roots.slots w.memory m → ∃ w₂ c₂,
          Heap.collect { w with memory := m } = .ok report w₂ ∧ w₂.heap.collector.engine = .copying c₂ ∧
          c₂.spaces = c'.spaces ∧ c₂.resident.toList = c'.resident.toList ∧
          (∀ i, w₂.memory.slot (.cell i) = w'.memory.slot (.cell i)) ∧
          ∀ a, c'.spaces.active.start ≤ a ∧ a < c'.spaces.active.top ∨
            c.spaces.active.start ≤ a ∧ a < c.spaces.active.top → w₂.memory.byte a = w'.memory.byte a
    | none => ∃ p target w', Heap.collect w = .error (.corrupted p (.danglingForward target)) w' ∧
        w'.heap.poisoned = some (.corrupted p (.danglingForward target)) := by
  have books := reached.orderly healthy
  have ledger := books.ledger
  rw [engine] at ledger
  have departure := rooted.departure books.regular books.types ledger
  refine ⟨fun full => departure.consistent.copyOrder_isSome full _, ?_⟩
  cases order : copyOrder w.heap.types w.heap.roots.slots w.memory c.spaces.size with
  | none => exact collect_stuck books engine rooted healthy order
  | some l =>
    obtain ⟨_, c', m', ran, rfl, -, -, moved⟩ := collect_rooted books engine rooted healthy order
    have short : l.length ≤ c.spaces.size := by
      have length := departure.footing.length_le moved.nodup fun p member => ⟨(moved.reach p).1 member, rooted.unmarked p ((moved.reach p).1 member)⟩
      rwa [ledger.1.reserve] at length
    refine ⟨_, _, c', ran, healthy, rfl, ?_, ?_, moved, ?_⟩
    · exact fun rounds enough => breadthFirst_eq order short rounds enough
    · exact fun i p at' => congrArg payloadOf (placed_getElem? moved.nodup at')
    · exact fun m coincide => collect_coincide books healthy engine rooted order moved coincide

/-- The header of an object in front of the one that can be reached has been overwritten. The heap is no longer
well-formed, and the collection moves the other object to the start of the reserve. -/
theorem collect_lays_out_beside_garbage : ∃ w c, Reached w ∧ w.heap.poisoned = none ∧
    w.heap.collector.engine = .copying c ∧ c.Rooted w.heap.types w.heap.roots.slots w.memory ∧ ¬ w.WellFormed ∧
    c.resident.toList = [Memory.origin + 24, Memory.origin + 56] ∧
    ∃ report w' c', Heap.collect w = .ok report w' ∧ w'.heap.collector.engine = .copying c' ∧
      c'.resident.toList = [c.spaces.reserve.start + 24] ∧ c'.spaces.active.cursor = 40 := by
  have ran : ((World.play (fun w _ => w.heap.poisoned = none) { strategy := .copying, heapSize := 4096 } 1
      [.call (.register .references Descriptor.references_isWords), .call .pushRoot, .call (.addRoot ⟨0, 0⟩ (.cell 0)),
        .call (.allocateArray ⟨1⟩ 0), .call (.allocateArray ⟨1⟩ 1), .setCell 0 (Memory.origin + 56),
        .writeWord (Memory.origin + 56) 8 (Memory.origin + 56), .writeWord Memory.origin 0 (wordLimit - 1)]).any fun w =>
      w.onCopying fun c => w.heap.poisoned = none ∧ ¬ w.WellFormed ∧
        c.resident.toList = [Memory.origin + 24, Memory.origin + 56] ∧ w.heap.roots.slots.Nodup ∧
        (CopyOrder.followAll w.memory.isEmpty [] (w.heap.roots.slots.map w.memory.slot)).bind
          (CopyOrder.scan w.memory.isEmpty (w.heap.types.references w.memory) c.spaces.size 0) =
            some [Memory.origin + 56] ∧
        w.memory.blockSize (Memory.origin + 56) = 40 ∧
        c.RootedOn w.heap.types w.heap.roots.slots w.memory [Memory.origin + 56]) = true := by
    decide +kernel
  obtain ⟨w, played, shown⟩ := (Option.any_eq_true _ _).1 ran
  obtain ⟨c, engine, shown⟩ := World.onCopying_eq_true.1 shown
  obtain ⟨healthy, broken, resident, nodup, order, size, rooted⟩ := of_decide_eq_true shown
  have reached := Reached.of_play played
  have rooted := Rooted.of_list rooted
  have spec := (collect_lays_out reached healthy engine rooted).2
  rw [copyOrder, distinctSlots_of_nodup nodup, order] at spec
  obtain ⟨report, w', c', collected, -, engine', -, places, moved, -⟩ := spec
  refine ⟨w, c, reached, healthy, engine, rooted, broken, resident, report, w', c', collected, engine', ?_, ?_⟩
  · rw [moved.residents, List.map_singleton, places 0 _ rfl]
    rfl
  · rw [moved.spaces]
    exact size

/-- The header of an object that cannot be reached has been overwritten, and an array refers twice to an object
without payload. The collection reports the second reference as dangling. -/
theorem collect_fails_on_empty_element : ∃ w c, Reached w ∧ w.heap.poisoned = none ∧
    w.heap.collector.engine = .copying c ∧ c.Rooted w.heap.types w.heap.roots.slots w.memory ∧
    ∀ report w', Heap.collect w ≠ .ok report w' := by
  have ran : ((World.play (fun w _ => w.heap.poisoned = none) { strategy := .copying, heapSize := 4096 } 1
      [.call (.register .empty Descriptor.empty_isWords), .call (.register .references Descriptor.references_isWords),
        .call .pushRoot, .call (.addRoot ⟨0, 0⟩ (.cell 0)), .call (.allocateArray ⟨2⟩ 2),
        .setCell 0 (Memory.origin + 24), .call (.allocate ⟨1⟩ 0),
        .writeWord (Memory.origin + 24) 8 (Memory.origin + 72), .writeWord (Memory.origin + 24) 16 (Memory.origin + 72),
        .call (.allocateArray ⟨2⟩ 0), .writeWord (Memory.origin + 72) 0 (wordLimit - 1)]).any fun w =>
      w.onCopying fun c => w.heap.poisoned = none ∧ w.heap.roots.slots.Nodup ∧
        ((CopyOrder.followAll w.memory.isEmpty [] (w.heap.roots.slots.map w.memory.slot)).bind
          (CopyOrder.scan w.memory.isEmpty (w.heap.types.references w.memory) c.spaces.size 0)).isNone = true ∧
        c.RootedOn w.heap.types w.heap.roots.slots w.memory [Memory.origin + 24, Memory.origin + 72]) = true := by
    decide +kernel
  obtain ⟨w, played, shown⟩ := (Option.any_eq_true _ _).1 ran
  obtain ⟨c, engine, shown⟩ := World.onCopying_eq_true.1 shown
  obtain ⟨healthy, nodup, order, rooted⟩ := of_decide_eq_true shown
  have reached := Reached.of_play played
  have rooted := Rooted.of_list rooted
  have unanswered : copyOrder w.heap.types w.heap.roots.slots w.memory c.spaces.size = none := by
    rw [copyOrder, distinctSlots_of_nodup nodup, Option.isNone_iff_eq_none.1 order]
  obtain ⟨p, target, w', failed, -⟩ := collect_stuck (reached.orderly healthy) engine rooted healthy unanswered
  refine ⟨w, c, reached, healthy, engine, rooted, fun report w'' collected => ?_⟩
  rw [collected] at failed
  cases failed

end Copying

end TracingHeap
