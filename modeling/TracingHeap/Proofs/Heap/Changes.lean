import TracingHeap.Proofs.Heap.WellFormed

/-! Changes that a well-formed heap survives.

An object stays in order as long as none of its bytes changes and everything that was held still is. So each
change has to account for the objects that it writes to, and for the roots. -/

set_option autoImplicit false

namespace TracingHeap

namespace World

abbrev Held (w : World) (p : Nat) : Prop := w.heap.collector.engine.Held p

/-- What a well-formed heap asks of one object. -/
structure Intact (w : World) (p : Nat) : Prop where
  unmarked : (w.memory.header (blockOf p)).check = .ok .unmarked
  typed : ∃ d, w.heap.types.get? (w.memory.header (blockOf p)).typeId = some d ∧
    d.fixedSize ≤ w.memory.payloadSize p ∧ w.memory.payloadSize p ≤ largestPayload
  references : ∃ slots, w.heap.types.tracedSlots w.memory p = .ok slots ∧ ∀ a ∈ slots, w.IsReference (w.memory.word a)

theorem WellFormed.of_intact {w : World} (intact : ∀ p, w.Held p → w.Intact p)
    (fits : w.heap.collector.engine.Fits w.memory)
    (roots : ∀ s ∈ w.heap.roots.slots, (∃ i, s = .cell i ∧ i < w.memory.cells.size) ∧ w.IsReference (w.memory.slot s)) :
    w.WellFormed :=
  ⟨fun p holds => (intact p holds).unmarked, fun p holds => (intact p holds).typed, fits,
    fun p holds => (intact p holds).references, fun s root => (roots s root).1, fun s root => (roots s root).2⟩

theorem WellFormed.root {w : World} (formed : w.WellFormed) {s : Slot} (root : s ∈ w.heap.roots.slots) :
    (∃ i, s = .cell i ∧ i < w.memory.cells.size) ∧ w.IsReference (w.memory.slot s) :=
  ⟨formed.outside s root, formed.roots s root⟩

variable {w w' : World} {p : Nat}

-- The types may grow and more may be held than before: this serves allocation and registration as well as writes.
theorem WellFormed.intact_of_same (formed : w.WellFormed) (books : w.Books)
    (types : ∀ id d, w.heap.types.get? id = some d → w'.heap.types.get? id = some d)
    (shape : w.memory.SameShape w'.memory) (held : ∀ q, w.Held q → w'.Held q) (holds : w.Held p)
    (same : ∀ i, i < headerSize + w.memory.payloadSize p → w'.memory.byte (blockOf p + i) = w.memory.byte (blockOf p + i)) :
    w'.Intact p := by
  have consistent := formed.consistent books
  have regular' := books.regular.of_sameShape shape
  obtain ⟨d, count, o, listed⟩ := consistent.tracedSlots_eq holds
  obtain ⟨o', header, word⟩ := o.stay books.regular shape same
  have unmarked := formed.unmarked p holds
  rw [← header] at unmarked
  refine ⟨unmarked, ?_, _, (o'.retype (types _ _)).tracedSlots_eq regular' unmarked (by decide), fun a member => ?_⟩
  · obtain ⟨d, type, fixed, small⟩ := formed.typed p holds
    unfold Memory.payloadSize
    rw [header]
    exact ⟨d, types _ _ type, fixed, small⟩
  · obtain ⟨k, place, rfl⟩ := List.mem_map.1 member
    rw [word k (o.bounds books.regular place).2.1]
    exact (consistent.words p holds _ listed _ member).imp_right (held _)

end World

/-- Only the sizes in the headers matter. -/
theorem Engine.Fits.congr {e : Engine} {m m' : Memory} (fits : e.Fits m)
    (same : ∀ p, e.Held p → m'.payloadSize p = m.payloadSize p) : e.Fits m' := by
  have size (p : Nat) (holds : e.Held p) : m'.blockSize p = m.blockSize p := congrArg footprint (same p holds)
  cases e with
  | markSweep c =>
    intro b n record
    have size := size (payloadOf b) (MarkSweep.owns_payloadOf record)
    unfold Memory.blockSize at size
    rw [blockOf_payloadOf] at size
    rw [size]
    exact fits b n record
  | copying c => exact Tiled.congr fits fun p member => size p (Std.TreeSet.mem_toList.1 member)
  | leaky c => exact Tiled.congr fits fun p member => size p (Std.TreeSet.mem_toList.1 member)

namespace World.WellFormed

variable {w : World} {p : Nat}

/-- A held object may be written to behind the first half of its header, as long as what is traced in it afterwards
are references. -/
theorem write (formed : w.WellFormed) (books : w.Books) {m' : Memory} (holds : w.Held p)
    (shape : w.memory.SameShape m') (cells : m'.cells = w.memory.cells)
    (outside : ∀ a, a < blockOf p + 16 ∨ p + w.memory.payloadSize p ≤ a → m'.byte a = w.memory.byte a)
    {slots : List Nat} (listed : w.heap.types.tracedSlots m' p = .ok slots)
    (references : ∀ a ∈ slots, w.IsReference (m'.word a)) :
    WellFormed { w with memory := m' } ∧ ∀ q, w.Held q → m'.payloadSize q = w.memory.payloadSize q := by
  have consistent := formed.consistent books
  have regular := books.regular
  have low := consistent.low holds
  have payload : p = blockOf p + headerSize := (payloadOf_blockOf low).symm
  have others (q : Nat) (held : w.Held q) (different : q ≠ p) (i : Nat) (lt : i < headerSize + w.memory.payloadSize q) :
      m'.byte (blockOf q + i) = w.memory.byte (blockOf q + i) := by
    have separate := consistent.separate held holds different lt
    exact outside _ (by omega)
  -- The last word of a header may be written to, as a declared word can lie there, and nothing is read from it.
  have header (q : Nat) (held : w.Held q) :
      m'.header (blockOf q) = { w.memory.header (blockOf q) with forward := m'.word (blockOf q + 16) } := by
    have front := consistent.holds_header held
    apply Memory.header_stay_front regular shape front
    intro i lt
    by_cases same : q = p
    · subst same
      exact outside _ (.inl (by omega))
    · exact others q held same i (by unfold headerSize; omega)
  have size (q : Nat) (held : w.Held q) : m'.payloadSize q = w.memory.payloadSize q := by
    rw [Memory.payloadSize, header q held]
    rfl
  refine ⟨.of_intact (fun q held => ?_) (formed.fits.congr size) fun s root => ?_, size⟩
  · by_cases same : q = p
    · subst same
      refine ⟨?_, ?_, slots, listed, references⟩
      · rw [header q held]
        exact Header.check_eq_ok.2 (Header.check_eq_ok.1 (formed.unmarked q held))
      · show ∃ d, w.heap.types.get? (m'.header (blockOf q)).typeId = some d ∧ d.fixedSize ≤ m'.payloadSize q ∧ _
        rw [size q held, header q held]
        exact formed.typed q held
    · exact formed.intact_of_same books (fun _ _ type => type) shape (fun _ held => held) held (others q held same)
  · obtain ⟨⟨i, rfl, below⟩, reference⟩ := formed.root root
    refine ⟨⟨i, rfl, cells ▸ below⟩, ?_⟩
    show w.IsReference (m'.cells[i]?.getD 0)
    rw [cells]
    exact reference

theorem setCell (formed : w.WellFormed) (books : w.Books) {i v : Nat}
    (reference : Slot.cell i ∈ w.heap.roots.slots → w.IsReference v) :
    WellFormed { w with memory := w.memory.setSlot (.cell i) v } := by
  have shape := Memory.sameShape_setSlot w.memory (.cell i) v
  refine .of_intact (fun q held => ?_) (formed.fits.congr fun _ _ => rfl) fun s root => ?_
  · exact formed.intact_of_same books (fun _ _ type => type) shape (fun _ held => held) held fun _ _ => rfl
  · obtain ⟨⟨j, rfl, below⟩, old⟩ := formed.root root
    refine ⟨⟨j, rfl, shape.cells ▸ below⟩, ?_⟩
    show w.IsReference ((w.memory.cells.setIfInBounds i v)[j]?.getD 0)
    by_cases same : i = j
    · subst same
      rw [Array.getElem?_setIfInBounds_self_of_lt below]
      exact reference root
    · rw [Array.getElem?_setIfInBounds_ne same]
      exact old

/-- Types may be added, and slots that hold references may become roots. -/
theorem replace (formed : w.WellFormed) (books : w.Books) {types : TypeTable} {roots : RootStack}
    (grown : ∀ id d, w.heap.types.get? id = some d → types.get? id = some d)
    (fine : ∀ s ∈ roots.slots, s ∈ w.heap.roots.slots ∨
      (∃ i, s = .cell i ∧ i < w.memory.cells.size) ∧ w.IsReference (w.memory.slot s)) :
    WellFormed { w with heap := { w.heap with types := types, roots := roots } } := by
  refine .of_intact (fun q held => ?_) formed.fits fun s root => ?_
  · exact formed.intact_of_same books grown (.refl _) (fun _ held => held) held fun _ _ => rfl
  · rcases fine s root with old | new
    · exact formed.root old
    · exact new

end World.WellFormed

/-! ### Writing one word -/

/-- The memory after a word of an object has been written, behind the first half of its header. -/
structure World.Patched (w : World) (p k v : Nat) (m' : Memory) : Prop where
  inside : w.memory.holds (blockOf p + k) wordSize = true
  shape : w.memory.SameShape m'
  cells : m'.cells = w.memory.cells
  outside : ∀ a, a < blockOf p + k ∨ blockOf p + k + wordSize ≤ a → m'.byte a = w.memory.byte a
  front : m'.header (blockOf p) = { w.memory.header (blockOf p) with forward := m'.word (blockOf p + 16) }
  word : ∀ k', 16 ≤ k' → wordSize ∣ k' → k' + wordSize ≤ headerSize + w.memory.payloadSize p →
    m'.word (blockOf p + k') = patch k v (fun k' => w.memory.word (blockOf p + k')) k'
  others : ∀ q, w.Held q → q ≠ p → ∀ i, i < headerSize + w.memory.payloadSize q →
    m'.byte (blockOf q + i) = w.memory.byte (blockOf q + i)

section

variable {w : World} {p k v : Nat} {m' : Memory}

theorem World.WellFormed.patched (formed : w.WellFormed) (books : w.Books) (holds : w.Held p) (above : 16 ≤ k)
    (whole : wordSize ∣ k) (within : k + wordSize ≤ headerSize + w.memory.payloadSize p) (isWord : v < wordLimit) :
    w.Patched p k v (w.memory.setWord (blockOf p + k) v) := by
  have consistent := formed.consistent books
  have regular := books.regular
  have object := consistent.inside holds
  have inWord : w.memory.holds (blockOf p + k) wordSize = true := Memory.holds_sub regular object k wordSize within
  have shape := Memory.sameShape_setWord w.memory (blockOf p + k) v
  have outside (a : Nat) (out : a < blockOf p + k ∨ blockOf p + k + wordSize ≤ a) :=
    Memory.byte_setWord_of_outside v inWord out
  constructor
  case inside => exact inWord
  case shape => exact shape
  case cells => exact Memory.cells_modifyArena ..
  case outside => exact outside
  case front =>
    have inHeader := consistent.holds_header holds
    exact Memory.header_stay_front regular shape inHeader fun i lt => outside _ (.inl (by omega))
  case word =>
    intro k' above' whole' within'
    unfold patch
    split
    · next same => rw [same, Memory.word_setWord inWord, Nat.mod_eq_of_lt isWord]
    · next other =>
      have readable : w.memory.holds (blockOf p + k') wordSize = true :=
        Memory.holds_sub regular object k' wordSize within'
      refine Memory.word_setWord_of_outside regular inWord readable ?_
      simp only [wordSize] at *
      omega
  case others =>
    intro q held different i lt
    have separate := consistent.separate held holds different lt
    exact outside _ (by omega)

namespace World.Patched

variable {d : Descriptor} {n : Nat} (patched : w.Patched p k v m') (regular : w.memory.Regular)
  (o : Outline w.heap.types w.memory p d n)

include patched regular o

/-- The count is taken from the words as they are now. -/
theorem outline
    (fits : d.CountFits (patch k v fun k' => w.memory.word (blockOf p + k')) (w.memory.payloadSize p)) :
    Outline w.heap.types m' p d (d.elements (patch k v fun k' => w.memory.word (blockOf p + k'))) := by
  have below := o.lt regular
  have low := o.low
  have object : m'.holds (blockOf p) (headerSize + (w.memory.header (blockOf p)).size) = true := by
    rw [patched.shape.holds]
    exact o.inside
  refine ⟨⟨low, ?_, ?_, o.sound, ?_⟩, ?_⟩
  · rw [patched.front]
    exact object
  · rw [patched.front]
    exact o.type
  · rw [patched.front]
    exact o.fixed
  · have same (r : Region) (region : d.region = some r) :
        m'.word (blockOf p + placeOf r.countOffset) =
          patch k v (fun k' => w.memory.word (blockOf p + k')) (placeOf r.countOffset) := by
      obtain ⟨first, last, aligned, -⟩ := o.sound.count r region
      exact patched.word _ first aligned (Nat.le_trans last (Nat.add_le_add_left o.fixed _))
    obtain ⟨count, fitting⟩ := Descriptor.elements_congr (w.memory.payloadSize p)
      (patch k v fun k' => w.memory.word (blockOf p + k')) (fun k' => m'.word (blockOf p + k')) same
    rw [patched.front]
    refine (Descriptor.tracedCount_eq_ok low o.sound o.fixed (by simp only [blockOf] at *; omega) fun k' room => ?_).2
      ⟨fitting.2 fits, count.symm⟩
    exact Memory.holds_sub (regular.of_sameShape patched.shape) object k' wordSize room

omit regular o in
theorem unmarked (old : (w.memory.header (blockOf p)).check = .ok .unmarked) :
    (m'.header (blockOf p)).check = .ok .unmarked := by
  rw [patched.front]
  exact Header.check_eq_ok.2 (Header.check_eq_ok.1 old)

omit regular o in
/-- A heap stays well-formed if the words that are traced now are references. -/
theorem wellFormed (formed : w.WellFormed) (books : w.Books) (holds : w.Held p) (above : 16 ≤ k)
    (within : k + wordSize ≤ headerSize + w.memory.payloadSize p) (o : Outline w.heap.types w.memory p d n)
    (fits : d.CountFits (patch k v fun k' => w.memory.word (blockOf p + k')) (w.memory.payloadSize p))
    (references : ∀ k' ∈ d.places (d.elements (patch k v fun k' => w.memory.word (blockOf p + k'))),
      w.IsReference (patch k v (fun k' => w.memory.word (blockOf p + k')) k')) :
    WellFormed { w with memory := m' } ∧ ∀ q, w.Held q → m'.payloadSize q = w.memory.payloadSize q := by
  have regular' := books.regular.of_sameShape patched.shape
  have o' := patched.outline books.regular o fits
  have payload := payloadOf_blockOf o.low
  apply formed.write books holds patched.shape patched.cells
    (fun a out => patched.outside a (by simp only [payloadOf] at payload; omega))
    (o'.tracedSlots_eq regular' (patched.unmarked (formed.unmarked p holds)) (by decide))
  intro a member
  obtain ⟨k', place, rfl⟩ := List.mem_map.1 member
  obtain ⟨above', within', whole'⟩ := o'.bounds regular' place
  rw [patched.front] at within'
  rw [patched.word k' above' whole' within']
  exact references k' place

end World.Patched

end

/-! ### Changes of the roots and the types -/

namespace RootStack

variable {r r' : RootStack} {h : RootHandle} {s t : Slot}

theorem mem_slots : s ∈ r.slots ↔ (∃ frame ∈ r.frames, s ∈ frame.slots) ∨ s ∈ r.globals := by
  simp [slots]

theorem mem_slots_push : s ∈ r.push.2.slots ↔ s ∈ r.slots := by
  simp [push, mem_slots, or_and_right, exists_or]

theorem mem_of_mem_pop {frames : Array RootFrame} {frame : RootFrame} (member : frame ∈ frames.pop) : frame ∈ frames := by
  obtain ⟨i, below, rfl⟩ := Array.mem_iff_getElem.1 member
  rw [Array.getElem_pop]
  exact Array.getElem_mem _

theorem mem_slots_pop (popped : r.pop h = .ok r') (member : s ∈ r'.slots) : s ∈ r.slots := by
  unfold pop at popped
  split at popped
  · cases popped
  · split at popped
    · cases popped
      rcases mem_slots.1 member with ⟨frame, within, found⟩ | global
      · exact mem_slots.2 (.inl ⟨frame, mem_of_mem_pop within, found⟩)
      · exact mem_slots.2 (.inr global)
    · cases popped

theorem mem_slots_add (added : r.add h t = .ok r') (member : s ∈ r'.slots) : s = t ∨ s ∈ r.slots := by
  unfold add at added
  split at added
  · cases added
    rcases mem_slots.1 member with ⟨frame, within, found⟩ | global
    · obtain ⟨i, below, rfl⟩ := Array.mem_iff_getElem.1 within
      rw [Array.getElem_modify] at found
      split at found
      · rcases List.mem_cons.1 found with same | old
        · exact .inl same
        · exact .inr (mem_slots.2 (.inl ⟨_, Array.getElem_mem _, old⟩))
      · exact .inr (mem_slots.2 (.inl ⟨_, Array.getElem_mem _, found⟩))
    · exact .inr (mem_slots.2 (.inr global))
  · cases added

theorem mem_slots_addGlobal (member : s ∈ (r.addGlobal t).slots) : s = t ∨ s ∈ r.slots := by
  rw [slots_addGlobal] at member
  split at member
  · exact .inr member
  · exact (List.mem_append.1 member).symm.imp_left List.mem_singleton.1

end RootStack

theorem TypeTable.get?_register {t t' : TypeTable} {d d' : Descriptor} {id id' : TypeId}
    (registered : t.register d = .ok (id, t')) (found : t.get? id' = some d') : t'.get? id' = some d' := by
  obtain ⟨-, -, -, -, rfl⟩ := TypeTable.register_eq_ok.1 registered
  unfold TypeTable.get? at *
  split at found
  · cases found
  · next value =>
    rw [if_neg value]
    obtain ⟨below, same⟩ := Array.getElem?_eq_some_iff.1 found
    rw [Array.getElem?_push, if_neg (Nat.ne_of_lt below)]
    exact found

end TracingHeap
