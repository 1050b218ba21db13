import TracingHeap.Layout.Header

/-! What a write changes, byte by byte.

Every write alters one range of one arena. Outside the range all bytes stay, and no write changes how
many arenas and cells there are or how far they reach. -/

set_option autoImplicit false

namespace TracingHeap

namespace Memory

/-- No arena reaches the next one, and every address inside an arena is a word. -/
structure Regular (m : Memory) : Prop where
  extent_le : ∀ (k : Nat) (arena : Arena), m.arenas[k]? = some arena → arena.extent ≤ largestArena
  below : base m.arenas.size ≤ wordLimit

/-- Two memories with the same arenas and cells, whatever is in them. -/
structure SameShape (m m' : Memory) : Prop where
  extents : m'.arenas.map Arena.extent = m.arenas.map Arena.extent
  cells : m'.cells.size = m.cells.size

theorem SameShape.refl (m : Memory) : SameShape m m := ⟨rfl, rfl⟩

theorem SameShape.trans {m m' m'' : Memory} (first : SameShape m m') (second : SameShape m' m'') :
    SameShape m m'' :=
  ⟨second.extents.trans first.extents, second.cells.trans first.cells⟩

theorem SameShape.symm {m m' : Memory} (shape : SameShape m m') : SameShape m' m := ⟨shape.extents.symm, shape.cells.symm⟩

theorem holds_eq (m : Memory) (a n : Nat) :
    m.holds a n = decide (origin ≤ a ∧ ∃ extent, (m.arenas.map Arena.extent)[index a]? = some extent ∧
      offset a + n ≤ extent) := by
  unfold holds arena?
  by_cases low : origin ≤ a
  · rw [if_pos low]
    cases found : m.arenas[index a]? with
    | none => simp [found]
    | some arena => simp [found, low]
  · simp [low]

theorem SameShape.holds {m m' : Memory} (same : SameShape m m') (a n : Nat) : m'.holds a n = m.holds a n := by
  rw [holds_eq, holds_eq, same.extents]

theorem SameShape.size {m m' : Memory} (same : SameShape m m') : m'.arenas.size = m.arenas.size := by
  simpa using congrArg Array.size same.extents

theorem SameShape.holdsSlot {m m' : Memory} (same : SameShape m m') (s : Slot) :
    m'.holdsSlot s = m.holdsSlot s := by
  cases s with
  | cell i => simp only [Memory.holdsSlot, same.cells]
  | field a => exact same.holds a wordSize

theorem Regular.of_sameShape {m m' : Memory} (regular : Regular m) (same : SameShape m m') : Regular m' := by
  refine ⟨fun k arena found => ?_, same.size ▸ regular.below⟩
  have extent : (m'.arenas.map Arena.extent)[k]? = some arena.extent := by simp [found]
  rw [same.extents, Array.getElem?_map] at extent
  obtain ⟨other, foundOther, extentEq⟩ := Option.map_eq_some_iff.1 extent
  exact extentEq ▸ regular.extent_le k other foundOther

theorem sameShape_modifyArena (m : Memory) (a : Nat) (f : Arena → Arena)
    (keeps : ∀ arena, (f arena).extent = arena.extent) : SameShape m (m.modifyArena a f) := by
  unfold modifyArena
  split
  · refine ⟨?_, rfl⟩
    apply Array.ext_getElem?
    intro k
    simp only [Array.getElem?_map, Array.getElem?_modify]
    by_cases same : index a = k
    · simp [same, Function.comp_def, keeps]
    · simp [same]
  · exact .refl m

theorem cells_modifyArena (m : Memory) (a : Nat) (f : Arena → Arena) : (m.modifyArena a f).cells = m.cells := by
  unfold modifyArena
  split <;> rfl

/-- The arena of a range, and where the range lies in it. -/
theorem exists_arena {m : Memory} {a n : Nat} (inside : m.holds a n = true) :
    ∃ arena, m.arenas[index a]? = some arena ∧ origin ≤ a ∧ offset a + n ≤ arena.extent := by
  have low := holds_origin inside
  unfold holds arena? at inside
  rw [if_pos low] at inside
  split at inside
  · next arena found => exact ⟨arena, found, low, by simpa using inside⟩
  · cases inside

-- Arenas are a stride apart and none is as long as a stride, so that the division by the stride finds the arena
-- of every address of a range and the remainder its offset. `i = n` is the end of the range: a range without
-- bytes has a place too.
theorem offset_add {m : Memory} (regular : Regular m) {a n i : Nat} (inside : m.holds a n = true) (lt : i ≤ n) :
    index (a + i) = index a ∧ offset (a + i) = offset a + i ∧ origin ≤ a + i := by
  obtain ⟨arena, found, low, fits⟩ := exists_arena inside
  have small := regular.extent_le _ _ found
  simp only [index, offset, origin, stride, largestArena] at *
  omega

theorem holds_sub {m : Memory} (regular : Regular m) {a n : Nat} (inside : m.holds a n = true) (i k : Nat)
    (fits : i + k ≤ n) : m.holds (a + i) k = true := by
  obtain ⟨arena, found, low, room⟩ := exists_arena inside
  obtain ⟨sameIndex, place, above⟩ := offset_add regular inside (i := i) (by omega)
  rw [holds_eq, decide_eq_true_iff]
  refine ⟨above, arena.extent, ?_, by omega⟩
  rw [sameIndex]; simp [found]

theorem holds_of_range {m : Memory} (regular : Regular m) {a n b k : Nat} (inside : m.holds a n = true)
    (first : a ≤ b) (last : b + k ≤ a + n) : m.holds b k = true := by
  have part := holds_sub regular inside (b - a) k (by omega)
  rwa [Nat.add_sub_of_le first] at part

/-- Behind a range inside the arenas there is room for another arena. -/
theorem holds_limit {m : Memory} (regular : Regular m) {a n : Nat} (inside : m.holds a n = true) :
    a + n + largestArena ≤ wordLimit := by
  obtain ⟨arena, found, low, room⟩ := exists_arena inside
  have small := regular.extent_le _ _ found
  have below := regular.below
  have bound := (Array.getElem?_eq_some_iff.1 found).1
  simp only [index, offset, base, origin, stride, largestArena, wordLimit] at *
  omega

/-- Ranges inside the arenas end before the last word. -/
theorem holds_lt {m : Memory} (regular : Regular m) {a n : Nat} (inside : m.holds a n = true) :
    a + n < wordLimit :=
  Nat.lt_of_lt_of_le (Nat.lt_add_of_pos_right (by decide)) (holds_limit regular inside)

theorem holds_le {m : Memory} (regular : Regular m) {a n : Nat} (inside : m.holds a n = true) : n ≤ largestArena := by
  obtain ⟨arena, found, -, room⟩ := exists_arena inside
  exact Nat.le_trans (Nat.le_of_add_left_le room) (regular.extent_le _ _ found)

/-- The addresses of a range are in one arena. -/
theorem index_eq_of_range {m : Memory} (regular : Regular m) {a n b : Nat} (inside : m.holds a n = true)
    (first : a ≤ b) (last : b ≤ a + n) : index b = index a := by
  have place := (offset_add regular inside (i := b - a) (by omega)).1
  rwa [Nat.add_sub_of_le first] at place

/-- Ranges of different arenas do not meet. -/
theorem index_eq_of_overlap {m : Memory} (regular : Regular m) {a n b k : Nat} (first : m.holds a n = true)
    (second : m.holds b k = true) (meet : a < b + k ∧ b < a + n) : index a = index b := by
  by_cases order : a ≤ b
  · exact (index_eq_of_range regular first order (Nat.le_of_lt meet.2)).symm
  · exact index_eq_of_range regular second (Nat.le_of_not_le order) (Nat.le_of_lt meet.1)

theorem byte_eq_arena {m : Memory} {a : Nat} {arena : Arena} (low : origin ≤ a)
    (found : m.arenas[index a]? = some arena) : m.byte a = arena.byte (offset a) := by
  unfold byte arena?
  rw [if_pos low, found]

/-- A change of an arena that leaves alone what lies outside a range of it leaves alone what lies
outside the range in memory. -/
theorem byte_modifyArena_of_outside {m : Memory} {a n : Nat} (inside : m.holds a n = true)
    {f : Arena → Arena} (local' : ∀ arena i, i < offset a ∨ offset a + n ≤ i → (f arena).byte i = arena.byte i)
    {b : Nat} (out : b < a ∨ a + n ≤ b) : (m.modifyArena a f).byte b = m.byte b := by
  obtain ⟨arena, found, low, room⟩ := exists_arena inside
  unfold byte
  rw [arena?_modifyArena m a b f low]
  by_cases near : origin ≤ b ∧ index b = index a
  · rw [if_pos near]
    -- Both addresses are in one arena, where the range in memory is the range of the offsets.
    cases m.arena? b with
    | none => rfl
    | some other =>
      refine local' other (offset b) ?_
      simp only [index, offset, origin, stride] at *
      omega
  · rw [if_neg near]

/-- What is read at a place of the changed range is read from the changed arena. -/
theorem byte_modifyArena_of_inside {m : Memory} (regular : Regular m) {a n i : Nat} (inside : m.holds a n = true)
    (lt : i ≤ n) {f : Arena → Arena} : ∃ arena, m.arenas[index a]? = some arena ∧
      (m.modifyArena a f).byte (a + i) = (f arena).byte (offset a + i) := by
  obtain ⟨arena, found, low, room⟩ := exists_arena inside
  obtain ⟨sameIndex, place, above⟩ := offset_add regular inside lt
  refine ⟨arena, found, ?_⟩
  unfold byte
  rw [arena?_modifyArena m a (a + i) f low, if_pos ⟨above, sameIndex⟩]
  simp [arena?, above, sameIndex, found, place]

/-! ### The writes -/

-- The place is a variable here: the kernel would try to compute the remainder in `offset a`.
theorem sameShape_modifyByte (m : Memory) (a i : Nat) (v : UInt8) :
    SameShape m (m.modifyArena a fun arena => arena.setByte i v) :=
  sameShape_modifyArena m a _ fun arena => arena.extent_setByte i v

theorem sameShape_setByte (m : Memory) (a : Nat) (v : UInt8) : SameShape m (m.setByte a v) :=
  sameShape_modifyByte m a (offset a) v

theorem sameShape_setWord (m : Memory) (a v : Nat) : SameShape m (m.setWord a v) := by
  unfold setWord
  exact sameShape_modifyArena m a _ fun arena => arena.extent_setLittleEndian _ v _

theorem sameShape_clear (m : Memory) (a n : Nat) : SameShape m (m.clear a n) := by
  unfold clear
  exact sameShape_modifyArena m a _ fun arena => arena.extent_clear _ n

theorem sameShape_store (m : Memory) (a : Nat) (source : ByteArray) : SameShape m (m.store a source) := by
  unfold store
  exact sameShape_modifyArena m a _ fun arena => arena.extent_store _ source

theorem sameShape_setHeader (m : Memory) (block : Nat) (h : Header) : SameShape m (m.setHeader block h) := by
  unfold setHeader
  exact sameShape_modifyArena m block _ fun arena => by simp [Arena.setHeader]

theorem sameShape_setSlot (m : Memory) (s : Slot) (v : Nat) : SameShape m (m.setSlot s v) := by
  cases s with
  | cell i => exact ⟨rfl, Array.size_setIfInBounds⟩
  | field a => exact sameShape_setWord m a v

/-- Whether or not the byte exists, no other one is written. -/
theorem byte_setByte_of_ne (m : Memory) {a b : Nat} (v : UInt8) (other : b ≠ a) : (m.setByte a v).byte b = m.byte b := by
  by_cases low : origin ≤ a
  · unfold byte setByte
    rw [arena?_modifyArena m a b _ low]
    by_cases near : origin ≤ b ∧ index b = index a
    · have apart : offset b ≠ offset a := fun same => other (eq_of_index_of_offset near.1 low near.2 same)
      rw [if_pos near]
      cases m.arena? b with
      | none => rfl
      | some arena => simp only [Option.map_some, Arena.byte_setByte, apart, if_false]
    · rw [if_neg near]
  · rw [setByte, modifyArena, if_neg low]

theorem byte_setWord_of_outside {m : Memory} {a : Nat} (v : Nat)
    (inside : m.holds a wordSize = true) {b : Nat} (out : b < a ∨ a + wordSize ≤ b) :
    (m.setWord a v).byte b = m.byte b :=
  byte_modifyArena_of_outside inside
    (fun arena i far => arena.byte_setLittleEndian_of_outside _ v wordSize i far) out

theorem byte_setHeader_of_outside {m : Memory} {block : Nat} (h : Header)
    (inside : m.holds block headerSize = true) {b : Nat} (out : b < block ∨ block + headerSize ≤ b) :
    (m.setHeader block h).byte b = m.byte b := by
  refine byte_modifyArena_of_outside inside (fun arena i far => ?_) out
  unfold headerSize at far
  simp only [Arena.setHeader]
  rw [Arena.byte_setLittleEndian_of_outside _ _ _ _ _ (by omega),
    Arena.byte_setLittleEndian_of_outside _ _ _ _ _ (by omega),
    Arena.byte_setLittleEndian_of_outside _ _ _ _ _ (by omega), Arena.byte_setByte, if_neg (by omega),
    Arena.byte_setByte, if_neg (by omega), Arena.byte_setLittleEndian_of_outside _ _ _ _ _ (by omega)]

theorem byte_clear {m : Memory} (regular : Regular m) {a n : Nat} (inside : m.holds a n = true) (b : Nat) :
    (m.clear a n).byte b = if a ≤ b ∧ b < a + n then 0 else m.byte b := by
  split
  · next within =>
    obtain ⟨arena, -, read⟩ := byte_modifyArena_of_inside regular inside (i := b - a) (by omega)
      (f := fun arena => arena.clear (offset a) n)
    rw [Nat.add_sub_of_le within.1] at read
    rw [clear, read, Arena.byte_clear, if_pos (by omega)]
  · next without =>
    refine byte_modifyArena_of_outside inside (fun arena i far => ?_) (by omega)
    rw [Arena.byte_clear, if_neg (by omega)]

theorem byte_store {m : Memory} (regular : Regular m) {a : Nat} {source : ByteArray}
    (inside : m.holds a source.size = true) (b : Nat) :
    (m.store a source).byte b = if a ≤ b ∧ b < a + source.size then source[b - a]?.getD 0 else m.byte b := by
  split
  · next within =>
    obtain ⟨arena, -, read⟩ := byte_modifyArena_of_inside regular inside (i := b - a) (by omega)
      (f := fun arena => arena.store (offset a) source)
    rw [Nat.add_sub_of_le within.1] at read
    rw [store, read, Arena.byte_store, if_pos (by omega), Nat.add_sub_cancel_left]
  · next without =>
    refine byte_modifyArena_of_outside inside (fun arena i far => ?_) (by omega)
    rw [Arena.byte_store, if_neg (by omega)]

theorem size_load {m : Memory} {a n : Nat} (inside : m.holds a n = true) : (m.load a n).size = n := by
  obtain ⟨arena, found, low, -⟩ := exists_arena inside
  unfold load arena?
  rw [if_pos low, found]
  exact arena.size_load _ n

theorem getElem?_load {m : Memory} (regular : Regular m) {a n : Nat} (inside : m.holds a n = true) {j : Nat}
    (lt : j < n) : (m.load a n)[j]?.getD 0 = m.byte (a + j) := by
  obtain ⟨arena, found, low, -⟩ := exists_arena inside
  obtain ⟨sameIndex, place, above⟩ := offset_add regular inside (i := j) (by omega)
  have foundThere : m.arenas[index (a + j)]? = some arena := by rw [sameIndex]; exact found
  rw [byte_eq_arena above foundThere, place]
  unfold load arena?
  rw [if_pos low, found]
  exact arena.getElem?_load lt

end Memory

end TracingHeap
