import TracingHeap.Proofs.Copying.Layout

/-! A heap that has just been collected.

The objects lie one behind the other in the order of copying. Another collection moves them to the other space in the same
order, and the one after that moves them back to where they were. -/

set_option autoImplicit false

namespace TracingHeap

theorem Memory.cells_eq {m m' : Memory} (shape : m.SameShape m') (same : ∀ i, m'.slot (.cell i) = m.slot (.cell i)) :
    m'.cells = m.cells := by
  apply Array.ext
  · exact shape.cells
  · intro i first second
    have value : m'.cells[i]?.getD 0 = m.cells[i]?.getD 0 := same i
    rwa [Array.getElem?_eq_getElem first, Array.getElem?_eq_getElem second] at value

namespace Copying

variable {w : World} {c : Copying} {l : List Nat}

theorem copyOf_ne_zero (space : Space) (m : Memory) (l : List Nat) (p : Nat) : copyOf space m l p ≠ 0 := Nat.succ_ne_zero _

/-- A collection writes to the copies and to the space that it leaves, and nowhere else. -/
theorem collect_spares (books : w.Books) (engine : w.heap.collector.engine = .copying c)
    (rooted : c.Rooted w.heap.types w.heap.roots.slots w.memory)
    (order : copyOrder w.heap.types w.heap.roots.slots w.memory c.spaces.size = some l)
    {report : CollectionReport} {c' : Copying} {m' : Memory}
    (ran : Engine.collect w.heap.types w.heap.roots.slots (w.heap.collector.engine, w.memory) = .ok report (.copying c', m'))
    {a : Nat} (old : a < c.spaces.active.start ∨ c.spaces.active.top ≤ a)
    (new : a < c.spaces.reserve.start ∨ c.spaces.reserve.start + (l.map w.memory.blockSize).sum ≤ a) :
    m'.byte a = w.memory.byte a := by
  have ledger := books.ledger
  rw [engine] at ledger
  have spec := collect_settles books engine (rooted.departure books.regular books.types ledger).footing
    rooted.sized.typed
  have agreed := departures_eq books engine rooted
  rw [order] at agreed
  rw [agreed] at spec
  obtain ⟨e, done, c₁, m₁, ran', arrived, settles, -⟩ := spec
  cases ran.symm.trans ran'
  rw [settles.elsewhere a old]
  refine arrived.elsewhere a (fun p reach => ?_) new
  obtain ⟨first, last⟩ := rooted.sized.within p reach
  unfold payloadOf blockOf at *
  omega

/-- Objects in the order of copying, one behind the other, with nothing in the space that they would be moved to. -/
structure Compact (w : World) (c : Copying) (l : List Nat) : Prop where
  books : w.Books
  healthy : w.heap.poisoned = none
  formed : w.WellFormed
  engine : w.heap.collector.engine = .copying c
  order : copyOrder w.heap.types w.heap.roots.slots w.memory c.spaces.size = some l
  residents : c.resident.toList = l
  used : c.spaces.active.cursor = (l.map w.memory.blockSize).sum
  inPlace : ∀ p ∈ l, copyOf c.spaces.active w.memory l p = p
  clean : ∀ a, c.spaces.reserve.start ≤ a → a < c.spaces.reserve.start + c.spaces.active.cursor → w.memory.byte a = 0

/-- A collection that moves the objects of `l`, and the state that it leaves. -/
structure Pass (w : World) (c : Copying) (l : List Nat) (w' : World) (c' : Copying) : Prop where
  ran : Heap.collect w = .ok (c.movedReport l (l.map w.memory.blockSize).sum) w'
  types : w'.heap.types = w.heap.types
  roots : w'.heap.roots = w.heap.roots
  moved : Moved w.heap.types w.heap.roots.slots c w.memory l c' w'.memory
  spared : ∀ a, a < c.spaces.active.start ∨ c.spaces.active.top ≤ a →
    a < c.spaces.reserve.start ∨ c.spaces.reserve.start + (l.map w.memory.blockSize).sum ≤ a →
    w'.memory.byte a = w.memory.byte a
  compact : Compact w' c' (l.map (copyOf c.spaces.reserve w.memory l))

/-- Where the order of copying has an answer, a collection leaves the objects in that order. -/
theorem collect_compacts (books : w.Books) (healthy : w.heap.poisoned = none) (formed : w.WellFormed)
    (engine : w.heap.collector.engine = .copying c)
    (order : copyOrder w.heap.types w.heap.roots.slots w.memory c.spaces.size = some l) : ∃ w' c', Pass w c l w' c' := by
  have rooted := formed.rooted books engine
  have spec := moves books engine rooted
  rw [order] at spec
  obtain ⟨c', m', ran, formed', moved⟩ := spec
  have books' := books.afterCollection ran
  have departure₀ := departure books formed engine
  have departure₁ := departure books' formed' rfl
  have low (p : Nat) (reach : Reach w.heap.types w.heap.roots.slots w.memory p) :
      copyOf c.spaces.reserve w.memory l p ≠ 0 := copyOf_ne_zero _ _ _ _
  have reach (p : Nat) (member : p ∈ l) := (moved.reach p).1 member
  have used : c'.spaces.active.cursor = (l.map w.memory.blockSize).sum := by rw [moved.spaces]
  have sum := moved.relocation.sum_blockSize reach
  refine ⟨w.afterCollection _ (.copying c') m', c', Heap.collect_ok healthy books ran formed', rfl, rfl, moved,
    fun a old new => collect_spares books engine rooted order ran old new, ?_⟩
  constructor
  case books => exact books'
  case healthy => exact healthy
  case formed => exact formed'
  case engine => rfl
  case order =>
    have same := moved.relocation.copyOrder_eq low departure₀.consistent departure₁.consistent c.spaces.size
    rw [order] at same
    have size : c'.spaces.size = c.spaces.size := by rw [moved.spaces]
    rw [size]
    exact same
  case residents => exact moved.residents
  case used => exact used.trans sum.symm
  case inPlace =>
    intro q member
    obtain ⟨p, known, rfl⟩ := List.mem_map.1 member
    have start : c'.spaces.active.start = c.spaces.reserve.start := by rw [moved.spaces]
    refine (moved.relocation.copyOf_eq low reach (reach p known) c'.spaces.active).trans ?_
    unfold copyOf
    rw [start]
  case clean =>
    -- What can be reached takes no more than what was in use, and all of that has been cleared.
    intro a first last
    have total := rooted.sized.total_le l moved.nodup fun p member => ⟨reach p member, rooted.unmarked p (reach p member)⟩
    rw [used, moved.spaces] at last
    rw [moved.spaces] at first
    exact moved.zeroed a first (Nat.lt_of_lt_of_le last (Nat.add_le_add_left total _))

variable {w₁ w₂ : World} {c₁ c₂ : Copying}

/-- The copies take as much room as the objects. -/
theorem Pass.sum_eq (first : Pass w c l w₁ c₁) :
    ((l.map (copyOf c.spaces.reserve w.memory l)).map w₁.memory.blockSize).sum = (l.map w.memory.blockSize).sum :=
  first.moved.relocation.sum_blockSize fun p member => (first.moved.reach p).1 member

namespace Compact

variable (compact : Compact w c l)

include compact

/-- Nothing is left to reclaim. -/
theorem movedReport_eq : c.movedReport l (l.map w.memory.blockSize).sum = {
    objectsRelocated := l.length
    bytesRelocated := (l.map w.memory.blockSize).sum
    forwardingHeaders := l.length
    objectsLive := l.length
    bytesLive := (l.map w.memory.blockSize).sum } := by
  have count : c.resident.size = l.length := by rw [← Std.TreeSet.length_toList, compact.residents]
  simp [movedReport, count, compact.used]

/-- The next one starts from the same order. -/
theorem collect : ∃ w₁ c₁, Pass w c l w₁ c₁ :=
  collect_compacts compact.books compact.healthy compact.formed compact.engine compact.order

variable (first : Pass w c l w₁ c₁)

include first

/-- The copies would be moved to where the objects are. -/
theorem copyOf_back {p : Nat} (member : p ∈ l) : copyOf c₁.spaces.reserve w₁.memory
    (l.map (copyOf c.spaces.reserve w.memory l)) (copyOf c.spaces.reserve w.memory l p) = p := by
  have start : c₁.spaces.reserve.start = c.spaces.active.start := by rw [first.moved.spaces]
  have reach (q : Nat) (known : q ∈ l) := (first.moved.reach q).1 known
  rw [first.moved.relocation.copyOf_eq (fun _ _ => copyOf_ne_zero _ _ _ _) reach (reach p member)]
  refine Eq.trans ?_ (compact.inPlace p member)
  unfold copyOf
  rw [start]

theorem relocated_back {word : Nat} (known : word ≠ 0 → word ∈ l) :
    relocated (copyOf c₁.spaces.reserve w₁.memory (l.map (copyOf c.spaces.reserve w.memory l)))
      (relocated (copyOf c.spaces.reserve w.memory l) word) = word := by
  by_cases null : word = 0
  · simp [null]
  · rw [relocated_of_ne null, relocated_of_ne (copyOf_ne_zero _ _ _ _), compact.copyOf_back first (known null)]

/-- The place of a traced word, and where the copy has it. -/
theorem place_copied {p a : Nat} (member : p ∈ l) {slots : List Nat}
    (listed : w.heap.types.tracedSlots w.memory p = .ok slots) (slot : a ∈ slots) : ∃ k, a = blockOf p + k ∧
      a + copyOf c.spaces.reserve w.memory l p - p = blockOf (copyOf c.spaces.reserve w.memory l p) + k :=
  Relocation.place_moved (departure compact.books compact.formed compact.engine).consistent
    ((first.moved.reach p).1 member) listed slot (Nat.le_add_left ..)

variable (second : Pass w₁ c₁ (l.map (copyOf c.spaces.reserve w.memory l)) w₂ c₂)

include second

theorem residents_back : c₂.resident.toList = c.resident.toList := by
  rw [second.moved.residents, compact.residents, List.map_map]
  exact (List.map_congr_left fun p member => compact.copyOf_back first member).trans (List.map_id' l)

theorem spaces_back : c₂.spaces = c.spaces := by
  have ledger := compact.books.ledger
  rw [compact.engine] at ledger
  rw [second.moved.spaces, first.sum_eq, first.moved.spaces, ← compact.used, ← ledger.1.empty]

theorem slot_back (i : Nat) : w₂.memory.slot (.cell i) = w.memory.slot (.cell i) := by
  have again := second.moved.relocation
  rw [first.roots] at again
  by_cases root : Slot.cell i ∈ w.heap.roots.slots
  · rw [again.root _ root, first.moved.relocation.root _ root]
    exact compact.relocated_back first fun value => (first.moved.reach _).2 (.root root value)
  · rw [again.cell i root, first.moved.relocation.cell i root]

-- A traced word has been rewritten twice, and leads back to where it led; every other byte has been copied twice.
/-- All bytes of the objects are back in their places. -/
theorem block_back {p i : Nat} (member : p ∈ l) (lt : i < w.memory.blockSize p) :
    w₂.memory.byte (blockOf p + i) = w.memory.byte (blockOf p + i) := by
  have compact₁ := first.compact
  have departure₀ := departure compact.books compact.formed compact.engine
  have departure₁ := departure compact₁.books compact₁.formed compact₁.engine
  have reach := (first.moved.reach p).1 member
  have member₁ := List.mem_map_of_mem (f := copyOf c.spaces.reserve w.memory l) member
  obtain ⟨slots, listed⟩ := departure₀.consistent.listed p reach
  have listed₁ := first.moved.relocation.slots p reach slots listed
  rw [← first.types] at listed₁
  have back := compact.copyOf_back first member
  by_cases traced : ∃ a ∈ slots, a ≤ blockOf p + i ∧ blockOf p + i < a + wordSize
  · obtain ⟨a, slot, low, high⟩ := traced
    obtain ⟨k, rfl, shifted⟩ := compact.place_copied first member listed slot
    obtain ⟨-, word⟩ := first.moved.word_eq departure₀ member listed slot
    obtain ⟨inside, word₂⟩ := second.moved.word_eq departure₁ member₁ listed₁ (List.mem_map.2 ⟨_, slot, shifted⟩)
    rw [back] at inside word₂
    rw [word, compact.relocated_back first fun value => (first.moved.reach _).2 (.step reach listed slot value)] at word₂
    have inside₀ := inside
    rw [second.moved.relocation.shape.holds, first.moved.relocation.shape.holds] at inside₀
    have byte := Memory.byte_eq_of_word compact.books.regular
      (compact₁.books.regular.of_sameShape second.moved.relocation.shape) inside₀ inside word₂ (i := i - k) (by omega)
    rwa [Nat.add_assoc, Nat.add_sub_cancel' (by omega)] at byte
  · have clear (a : Nat) (slot : a ∈ slots) : blockOf p + i < a ∨ a + wordSize ≤ blockOf p + i := by
      by_contra meet
      exact traced ⟨a, slot, by omega, by omega⟩
    have copied := first.moved.copied p member slots listed i lt clear
    have copied₂ := second.moved.copied _ member₁ _ listed₁ i (by rwa [first.moved.blockSize_eq member]) fun b slot₁ => by
      obtain ⟨a, slot, rfl⟩ := List.mem_map.1 slot₁
      obtain ⟨k, rfl, shifted⟩ := compact.place_copied first member listed slot
      have away := clear _ slot
      omega
    rw [back] at copied₂
    exact copied₂.trans copied

-- The three cases: what the objects lie in, what the first pass fills and the second one clears, and the rest.
/-- All bytes are as they were. -/
theorem byte_back (a : Nat) : w₂.memory.byte a = w.memory.byte a := by
  have used := compact.used
  have spaces := first.moved.spaces
  by_cases old : c.spaces.active.start ≤ a ∧ a < c.spaces.active.top
  · have tiled := compact.formed.fits
    rw [compact.engine] at tiled
    obtain ⟨p, member, low, high⟩ := Tiled.exists_block tiled old.1 old.2
    rw [compact.residents] at member
    have byte := compact.block_back first second member (i := a - blockOf p) (by omega)
    rwa [Nat.add_sub_cancel' low] at byte
  · by_cases new : c.spaces.reserve.start ≤ a ∧ a < c.spaces.reserve.start + c.spaces.active.cursor
    · rw [compact.clean a new.1 new.2]
      apply second.moved.zeroed a
      · rw [spaces]; exact new.1
      · rw [spaces]; exact used ▸ new.2
    · have spared := second.spared a
      unfold Space.top at *
      rw [first.sum_eq, spaces] at spared
      rw [spared (by simp only; omega) (by simp only; omega), first.spared a (by unfold Space.top; omega) (by omega)]

end Compact

end Copying

end TracingHeap
