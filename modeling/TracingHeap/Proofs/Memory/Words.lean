import TracingHeap.Proofs.Memory.Bytes

/-! Words and headers as the bytes that spell them.

A word or a header depends on its own bytes alone and not on where they lie. So it is carried along by a
copy, and it outlives every write somewhere else. -/

set_option autoImplicit false

namespace TracingHeap

theorem littleEndian_shift {f g : Nat → UInt8} {i j n : Nat} (same : ∀ k, k < n → f (i + k) = g (j + k)) :
    littleEndian f i n = littleEndian g j n := by
  induction n generalizing i j with
  | zero => rfl
  | succ n ih =>
    have rest : littleEndian f (i + 1) n = littleEndian g (j + 1) n := by
      apply ih
      intro k lt
      have next := same (k + 1) (by omega)
      rwa [Nat.add_assoc, Nat.add_comm 1, Nat.add_assoc, Nat.add_comm 1]
    have first : f i = g j := same 0 (Nat.succ_pos n)
    rw [littleEndian, littleEndian, rest, first]

/-- A number names its bytes. -/
theorem byte_eq_of_littleEndian {f g : Nat → UInt8} {i j n : Nat} (same : littleEndian f i n = littleEndian g j n) :
    ∀ k, k < n → f (i + k) = g (j + k) := by
  induction n generalizing i j with
  | zero => exact fun k lt => absurd lt (Nat.not_lt_zero k)
  | succ n ih =>
    rw [littleEndian, littleEndian] at same
    have low := (f i).toNat_lt
    have low' := (g j).toNat_lt
    have first : f i = g j := UInt8.toNat_inj.1 (by omega)
    have rest := ih (i := i + 1) (j := j + 1) (by omega)
    intro k lt
    cases k with
    | zero => exact first
    | succ k =>
      rw [Nat.add_comm k, ← Nat.add_assoc, ← Nat.add_assoc]
      exact rest k (Nat.lt_of_succ_lt_succ lt)

theorem littleEndian_eq_zero {f : Nat → UInt8} {i n : Nat} (zero : ∀ k, k < n → f (i + k) = 0) :
    littleEndian f i n = 0 := by
  induction n generalizing i with
  | zero => rfl
  | succ n ih =>
    have first : f i = 0 := zero 0 (Nat.succ_pos n)
    have rest : littleEndian f (i + 1) n = 0 := by
      apply ih
      intro k lt
      rw [Nat.add_assoc, Nat.add_comm 1]
      exact zero (k + 1) (Nat.succ_lt_succ lt)
    rw [littleEndian, rest, first]
    rfl

/-- The parts of a header in its first sixteen bytes, and the target behind them. -/
theorem Header.read_congr {f g : Nat → UInt8} {i j : Nat} (same : ∀ k, k < 16 → f (i + k) = g (j + k)) :
    Header.read f i = { Header.read g j with forward := littleEndian f (i + 16) 8 } := by
  have type : littleEndian f i 4 = littleEndian g j 4 := littleEndian_shift fun k lt => same k (by omega)
  have reserved : littleEndian f (i + 6) 2 = littleEndian g (j + 6) 2 := by
    apply littleEndian_shift
    intro k lt
    rw [Nat.add_assoc, Nat.add_assoc]; exact same (6 + k) (by omega)
  have size : littleEndian f (i + 8) 8 = littleEndian g (j + 8) 8 := by
    apply littleEndian_shift
    intro k lt
    rw [Nat.add_assoc, Nat.add_assoc]; exact same (8 + k) (by omega)
  simp only [Header.read, type, reserved, size, same 4 (by omega), same 5 (by omega)]

namespace Arena

theorem littleEndian_setLittleEndian_of_outside (x : Arena) {i v n j k : Nat} (out : j + k ≤ i ∨ i + n ≤ j) :
    littleEndian (x.setLittleEndian i v n).byte j k = littleEndian x.byte j k :=
  littleEndian_congr fun _ _ _ => byte_setLittleEndian_of_outside _ _ _ _ _ (by omega)

theorem littleEndian_setByte_of_outside (x : Arena) {i j k : Nat} {v : UInt8} (out : j + k ≤ i ∨ i < j) :
    littleEndian (x.setByte i v).byte j k = littleEndian x.byte j k :=
  littleEndian_congr fun _ _ _ => by rw [byte_setByte, if_neg (by omega)]

-- The six parts are written one after the other. Each is read back from its own write, past the later ones,
-- which lie beside it.
theorem read_setHeader (x : Arena) (i : Nat) {h : Header} (size : h.size < wordLimit) (forward : h.forward < wordLimit) :
    Header.read (x.setHeader i h).byte i = h := by
  have type : littleEndian (x.setHeader i h).byte i 4 = h.typeId.raw.toNat := by
    simp (disch := omega) only [setHeader, littleEndian_setLittleEndian_of_outside, littleEndian_setByte_of_outside,
      littleEndian_setLittleEndian]
    exact Nat.mod_eq_of_lt h.typeId.raw.toNat_lt
  have reserved : littleEndian (x.setHeader i h).byte (i + 6) 2 = h.reserved.toNat := by
    simp (disch := omega) only [setHeader, littleEndian_setLittleEndian_of_outside, littleEndian_setLittleEndian]
    exact Nat.mod_eq_of_lt h.reserved.toNat_lt
  have sizeRead : littleEndian (x.setHeader i h).byte (i + 8) 8 = h.size := by
    simp (disch := omega) only [setHeader, littleEndian_setLittleEndian_of_outside, littleEndian_setLittleEndian]
    exact Nat.mod_eq_of_lt size
  have forwardRead : littleEndian (x.setHeader i h).byte (i + 16) 8 = h.forward := by
    simp only [setHeader, littleEndian_setLittleEndian]
    exact Nat.mod_eq_of_lt forward
  have magic : (x.setHeader i h).byte (i + 4) = h.magic := by
    simp (disch := omega) only [setHeader, byte_setLittleEndian_of_outside, byte_setByte, if_neg, if_true]
  have state : (x.setHeader i h).byte (i + 5) = h.state := by
    simp (disch := omega) only [setHeader, byte_setLittleEndian_of_outside, byte_setByte, if_true]
  simp only [Header.read, type, reserved, sizeRead, forwardRead, magic, state, UInt32.ofNat_toNat, UInt16.ofNat_toNat]

end Arena

namespace Memory

variable {m m' : Memory} {a b n v : Nat}

/-- The bytes of a range, read from its arena. -/
theorem exists_bytes (regular : Regular m) (inside : m.holds a n = true) : ∃ arena, m.arena? a = some arena ∧
    ∀ i, i < n → arena.byte (offset a + i) = m.byte (a + i) := by
  obtain ⟨arena, found, low, -⟩ := exists_arena inside
  refine ⟨arena, by rw [arena?, if_pos low, found], fun i lt => ?_⟩
  obtain ⟨sameIndex, place, above⟩ := offset_add regular inside (i := i) (by omega)
  have foundThere : m.arenas[index (a + i)]? = some arena := by rw [sameIndex]; exact found
  rw [byte_eq_arena above foundThere, place]

theorem word_eq (regular : Regular m) (inside : m.holds a wordSize = true) :
    m.word a = littleEndian m.byte a wordSize := by
  obtain ⟨arena, found, bytes⟩ := exists_bytes regular inside
  rw [word, found]
  exact littleEndian_shift bytes

theorem header_eq (regular : Regular m) (inside : m.holds b headerSize = true) :
    m.header b = Header.read m.byte b := by
  obtain ⟨arena, found, bytes⟩ := exists_bytes regular inside
  have forward : littleEndian arena.byte (offset b + 16) 8 = littleEndian m.byte (b + 16) 8 := by
    apply littleEndian_shift
    intro k lt
    rw [Nat.add_assoc, Nat.add_assoc]; exact bytes (16 + k) (by unfold headerSize; omega)
  have front := Header.read_congr (f := arena.byte) (g := m.byte) (i := offset b) (j := b)
    fun k lt => bytes k (by unfold headerSize; omega)
  simp only [header, found, front, forward]
  rfl

theorem word_congr (regular : Regular m) (regular' : Regular m') (inside : m.holds a wordSize = true)
    (inside' : m'.holds b wordSize = true) (same : ∀ i, i < wordSize → m'.byte (b + i) = m.byte (a + i)) :
    m'.word b = m.word a := by
  rw [word_eq regular inside, word_eq regular' inside']
  exact littleEndian_shift same

/-- The bytes of two words that are equal. -/
theorem byte_eq_of_word (regular : Regular m) (regular' : Regular m') (inside : m.holds a wordSize = true)
    (inside' : m'.holds b wordSize = true) (same : m'.word b = m.word a) {i : Nat} (lt : i < wordSize) :
    m'.byte (b + i) = m.byte (a + i) := by
  rw [word_eq regular inside, word_eq regular' inside'] at same
  exact byte_eq_of_littleEndian same i lt

-- The target is told apart from the rest of the header because its eight bytes may also be a traced word: a
-- declared offset just below 2^64 leads there.
/-- A header with the same sixteen bytes in front differs in its target at most. -/
theorem header_congr_front {c : Nat} (regular : Regular m) (regular' : Regular m')
    (inside : m.holds b headerSize = true) (inside' : m'.holds c headerSize = true)
    (same : ∀ i, i < 16 → m'.byte (c + i) = m.byte (b + i)) :
    m'.header c = { m.header b with forward := m'.word (c + 16) } := by
  have inWord := holds_sub regular' inside' 16 wordSize (by decide)
  rw [header_eq regular inside, header_eq regular' inside', word_eq regular' inWord]
  exact Header.read_congr same

theorem header_size (regular : Regular m) (inside : m.holds b headerSize = true) : (m.header b).size = m.word (b + 8) := by
  rw [header_eq regular inside, word_eq regular (holds_sub regular inside 8 wordSize (by decide))]
  rfl

theorem header_forward (regular : Regular m) (inside : m.holds b headerSize = true) :
    (m.header b).forward = m.word (b + 16) := by
  rw [header_eq regular inside, word_eq regular (holds_sub regular inside 16 wordSize (by decide))]
  rfl

theorem header_congr {c : Nat} (regular : Regular m) (regular' : Regular m') (inside : m.holds b headerSize = true)
    (inside' : m'.holds c headerSize = true) (same : ∀ i, i < headerSize → m'.byte (c + i) = m.byte (b + i)) :
    m'.header c = m.header b := by
  have target : m'.word (c + 16) = m.word (b + 16) := by
    apply word_congr regular regular' (holds_sub regular inside 16 wordSize (by decide))
      (holds_sub regular' inside' 16 wordSize (by decide))
    intro i lt
    unfold wordSize at lt
    rw [Nat.add_assoc, Nat.add_assoc]
    exact same (16 + i) (by unfold headerSize; omega)
  rw [header_congr_front regular regular' inside inside' fun i lt => same i (by unfold headerSize; omega), target,
    ← header_forward regular inside]

section

variable (regular : Regular m) (shape : m.SameShape m')

include regular shape

/-- A word stays where its bytes stay. -/
theorem word_stay (inside : m.holds a wordSize = true)
    (same : ∀ i, i < wordSize → m'.byte (a + i) = m.byte (a + i)) : m'.word a = m.word a :=
  word_congr regular (regular.of_sameShape shape) inside (shape.holds _ _ ▸ inside) same

theorem header_stay (inside : m.holds b headerSize = true)
    (same : ∀ i, i < headerSize → m'.byte (b + i) = m.byte (b + i)) : m'.header b = m.header b :=
  header_congr regular (regular.of_sameShape shape) inside (shape.holds _ _ ▸ inside) same

theorem header_stay_front (inside : m.holds b headerSize = true)
    (same : ∀ i, i < 16 → m'.byte (b + i) = m.byte (b + i)) :
    m'.header b = { m.header b with forward := m'.word (b + 16) } :=
  header_congr_front regular (regular.of_sameShape shape) inside (shape.holds _ _ ▸ inside) same

end

/-! ### Reading back what was written -/

theorem word_setWord (inside : m.holds a wordSize = true) : (m.setWord a v).word a = v % wordLimit := by
  obtain ⟨arena, found, low, -⟩ := exists_arena inside
  unfold word setWord
  rw [arena?_modifyArena m a a _ low, if_pos ⟨low, rfl⟩, arena?, if_pos low, found]
  exact arena.littleEndian_setLittleEndian _ v wordSize

theorem word_setWord_of_outside (regular : Regular m) (inside : m.holds a wordSize = true)
    (within : m.holds b wordSize = true) (out : b + wordSize ≤ a ∨ a + wordSize ≤ b) :
    (m.setWord a v).word b = m.word b := by
  have same := sameShape_setWord m a v
  apply word_stay regular same within
  intro i lt
  exact byte_setWord_of_outside v inside (by omega)

theorem header_setState (regular : Regular m) (inside : m.holds b headerSize = true) (s : UInt8) :
    (m.setByte (b + 5) s).header b = { m.header b with state := s } := by
  -- The state is the sixth byte, and the other five parts are read from bytes beside it.
  obtain ⟨arena, found, low, -⟩ := exists_arena inside
  have place := offset_add regular inside (i := 5) (by decide)
  have reach : (m.setByte (b + 5) s).arena? b = some (arena.setByte (offset b + 5) s) := by
    unfold setByte
    rw [arena?_modifyArena m (b + 5) b _ place.2.2, if_pos ⟨low, place.1.symm⟩, place.2.1, arena?, if_pos low, found]
    rfl
  have before : m.arena? b = some arena := by rw [arena?, if_pos low, found]
  have elsewhere (i n : Nat) (out : offset b + 5 < i ∨ i + n ≤ offset b + 5) :
      littleEndian (arena.setByte (offset b + 5) s).byte i n = littleEndian arena.byte i n := by
    apply littleEndian_congr
    intro j first last
    rw [Arena.byte_setByte, if_neg (by omega)]
  simp only [header, reach, before, Header.read]
  rw [elsewhere _ _ (by omega), elsewhere _ _ (by omega), elsewhere _ _ (by omega), elsewhere _ _ (by omega),
    Arena.byte_setByte, if_neg (by omega), Arena.byte_setByte, if_pos rfl]

theorem header_setForward (regular : Regular m) (inside : m.holds b headerSize = true) (v : Nat) :
    (m.setWord (b + 16) v).header b = { m.header b with forward := v % wordLimit } := by
  have same := sameShape_setWord m (b + 16) v
  have inWord := holds_sub regular inside 16 wordSize (by decide)
  rw [header_stay_front regular same inside, word_setWord inWord]
  intro i lt
  exact byte_setWord_of_outside v inWord (by omega)

theorem header_setHeader (inside : m.holds b headerSize = true) (h : Header) (size : h.size < wordLimit)
    (forward : h.forward < wordLimit) : (m.setHeader b h).header b = h := by
  obtain ⟨arena, found, low, -⟩ := exists_arena inside
  unfold header setHeader
  rw [arena?_modifyArena m b b _ low, if_pos ⟨low, rfl⟩, arena?, if_pos low, found]
  exact arena.read_setHeader _ size forward

end Memory

end TracingHeap
