import TracingHeap.Proofs.Audit.Verify
import TracingHeap.Proofs.Heap.Runs

/-! Heaps in which nothing is out of place.

The headers are intact and span their blocks, the objects have registered types and room for their elements,
and every reference is null or leads to a held object. With the books in order this makes the memory
consistent, whichever collector is at work. -/

set_option autoImplicit false

namespace TracingHeap

namespace World

/-- Null, or the payload address of a held object. -/
def IsReference (w : World) (word : Nat) : Prop := word = 0 ∨ w.heap.collector.engine.Held word

-- Said of the world alone, without the books: a program that overwrites a header or leaves a stale reference loses
-- it, and keeps the books.
structure WellFormed (w : World) : Prop where
  unmarked : ∀ p, w.heap.collector.engine.Held p → (w.memory.header (blockOf p)).check = .ok .unmarked
  typed : ∀ p, w.heap.collector.engine.Held p → ∃ d, w.heap.types.get? (w.memory.header (blockOf p)).typeId = some d ∧
    d.fixedSize ≤ w.memory.payloadSize p ∧ w.memory.payloadSize p ≤ largestPayload
  fits : w.heap.collector.engine.Fits w.memory
  /-- The count of every region is within its capacity, or the slots could not be listed. -/
  references : ∀ p, w.heap.collector.engine.Held p → ∃ slots, w.heap.types.tracedSlots w.memory p = .ok slots ∧
    ∀ a ∈ slots, w.IsReference (w.memory.word a)
  outside : ∀ s ∈ w.heap.roots.slots, ∃ i, s = .cell i ∧ i < w.memory.cells.size
  roots : ∀ s ∈ w.heap.roots.slots, w.IsReference (w.memory.slot s)

/-- The headers are in order, and the roots are cells. The words in the objects and in the roots may be anything. -/
structure Headed (w : World) : Prop where
  unmarked : ∀ p, w.heap.collector.engine.Held p → (w.memory.header (blockOf p)).check = .ok .unmarked
  typed : ∀ p, w.heap.collector.engine.Held p → ∃ d, w.heap.types.get? (w.memory.header (blockOf p)).typeId = some d ∧
    d.fixedSize ≤ w.memory.payloadSize p ∧ w.memory.payloadSize p ≤ largestPayload
  fits : w.heap.collector.engine.Fits w.memory
  outside : ∀ s ∈ w.heap.roots.slots, ∃ i, s = .cell i ∧ i < w.memory.cells.size

/-- The headers are in order. The roots may be anywhere, and the words in the roots and in the objects may be anything. -/
structure Labelled (w : World) : Prop where
  unmarked : ∀ p, w.heap.collector.engine.Held p → (w.memory.header (blockOf p)).check = .ok .unmarked
  typed : ∀ p, w.heap.collector.engine.Held p → ∃ d, w.heap.types.get? (w.memory.header (blockOf p)).typeId = some d ∧
    d.fixedSize ≤ w.memory.payloadSize p ∧ w.memory.payloadSize p ≤ largestPayload
  fits : w.heap.collector.engine.Fits w.memory

/-- The words that a collection meets on its way through held objects. -/
def Met (w : World) : Nat → Prop :=
  TracingHeap.Met w.heap.types w.heap.roots.slots w.heap.collector.engine.Held w.memory

theorem WellFormed.headed {w : World} (formed : w.WellFormed) : w.Headed :=
  ⟨formed.unmarked, formed.typed, formed.fits, formed.outside⟩

theorem Headed.labelled {w : World} (headed : w.Headed) : w.Labelled := ⟨headed.unmarked, headed.typed, headed.fits⟩

end World

namespace Engine

variable {e : Engine} {m : Memory} {p q : Nat}

theorem fits_inside (standing : e.Standing m) (regular : m.Regular) (fits : e.Fits m) (holds : e.Held p) :
    headerSize ≤ p ∧ m.holds (blockOf p) (m.blockSize p) = true := by
  cases e with
  | markSweep c =>
    obtain ⟨low, n, record⟩ := MarkSweep.owns_iff.1 holds
    obtain ⟨-, first, last⟩ := standing.1.record _ _ record
    refine ⟨low, Memory.holds_of_range regular standing.2 first ?_⟩
    exact Nat.le_trans (Nat.add_le_add_left (fits _ _ record).1 _) last
  | copying c =>
    obtain ⟨room, arena⟩ := standing
    obtain ⟨first, last⟩ := Tiled.bounds fits (Std.TreeSet.mem_toList.2 holds)
    unfold payloadOf Space.top blockOf at *
    refine ⟨by omega, Memory.holds_of_range regular arena (by omega) (by omega)⟩
  | leaky c =>
    obtain ⟨room, arena⟩ := standing
    obtain ⟨first, last⟩ := Tiled.bounds fits (Std.TreeSet.mem_toList.2 holds)
    unfold payloadOf Space.top blockOf at *
    refine ⟨by omega, Memory.holds_of_range regular arena (by omega) (by omega)⟩

theorem fits_apart (standing : e.Standing m) (fits : e.Fits m) (first : e.Held p) (second : e.Held q) (less : p < q) :
    blockOf p + m.blockSize p ≤ blockOf q := by
  cases e with
  | markSweep c =>
    obtain ⟨low, n, record⟩ := MarkSweep.owns_iff.1 first
    obtain ⟨low', n', record'⟩ := MarkSweep.owns_iff.1 second
    have gap := standing.1.apart _ _ _ _ record record' (by unfold blockOf; omega)
    exact Nat.le_trans (Nat.add_le_add_left (fits _ _ record).1 _) gap
  | copying c => exact Tiled.apart fits (Std.TreeSet.mem_toList.2 first) (Std.TreeSet.mem_toList.2 second) less
  | leaky c => exact Tiled.apart fits (Std.TreeSet.mem_toList.2 first) (Std.TreeSet.mem_toList.2 second) less

/-- The held objects. -/
def list : Engine → List Nat
  | markSweep c => c.objects
  | copying c => c.resident.toList
  | leaky c => c.held.toList

theorem mem_list {e : Engine} {p : Nat} : p ∈ e.list ↔ e.Held p := by
  cases e with
  | markSweep c =>
    show p ∈ c.records.keys.map payloadOf ↔ c.owns p = true
    simp only [List.mem_map, Std.TreeMap.mem_keys, MarkSweep.owns, Bool.and_eq_true, decide_eq_true_eq]
    constructor
    · rintro ⟨b, record, rfl⟩
      exact ⟨Nat.le_add_left .., by rwa [blockOf_payloadOf]⟩
    · rintro ⟨low, record⟩
      exact ⟨blockOf p, record, payloadOf_blockOf low⟩
  | copying c => exact Std.TreeSet.mem_toList
  | leaky c => exact Std.TreeSet.mem_toList

end Engine

/-- The header can be read, whatever state it gives. It names a type, and there is room for an object of it. -/
structure Memory.Legible (types : TypeTable) (m : Memory) (p : Nat) : Prop where
  readable : ∃ state, (m.header (blockOf p)).check = .ok state
  typed : ∃ d, types.get? (m.header (blockOf p)).typeId = some d ∧ d.fixedSize ≤ m.payloadSize p ∧
    m.payloadSize p ≤ largestPayload

namespace Engine

-- More is not left of a heap after a collection that has failed.
/-- The headers of the held objects can be read, and they span their blocks. -/
structure Charted (types : TypeTable) (e : Engine) (m : Memory) : Prop where
  regular : m.Regular
  standing : e.Standing m
  legible : ∀ p, e.Held p → m.Legible types p
  fits : e.Fits m

namespace Charted

variable {e : Engine} {m : Memory} {p q : Nat} {types : TypeTable} (charted : e.Charted types m)

include charted

theorem spans (holds : e.Held p) : headerSize + m.payloadSize p ≤ m.blockSize p := by
  obtain ⟨d, -, -, small⟩ := (charted.legible p holds).typed
  exact le_footprint small

theorem large (holds : e.Held p) : headerSize ≤ m.blockSize p :=
  Nat.le_trans (Nat.le_add_right _ _) (charted.spans holds)

theorem positive (p : Nat) (member : p ∈ e.list) : 0 < m.blockSize p :=
  Nat.lt_of_lt_of_le (by decide) (charted.large (mem_list.1 member))

theorem low (holds : e.Held p) : headerSize ≤ p :=
  (fits_inside charted.standing charted.regular charted.fits holds).1

theorem holds_object (holds : e.Held p) : m.holds (blockOf p) (headerSize + m.payloadSize p) = true :=
  Memory.holds_of_range charted.regular (fits_inside charted.standing charted.regular charted.fits holds).2
    (Nat.le_refl _) (Nat.add_le_add_left (charted.spans holds) _)

theorem holds_header (holds : e.Held p) : m.holds (blockOf p) headerSize = true :=
  Memory.holds_of_range charted.regular (charted.holds_object holds) (Nat.le_refl _)
    (Nat.add_le_add_left (Nat.le_add_right _ _) _)

theorem readable (p : Nat) (member : p ∈ e.list) : m.holds (blockOf p) wordSize = true :=
  Memory.holds_of_range charted.regular (charted.holds_header (mem_list.1 member)) (Nat.le_refl _)
    (Nat.add_le_add_left (by decide) _)

/-- An object has the layout that its header names, whatever state the header gives. -/
theorem framed (checked : types.Checked) (holds : e.Held p) : ∃ d, Framed types m p d := by
  obtain ⟨d, type, fixed, small⟩ := (charted.legible p holds).typed
  exact ⟨d, charted.low holds, charted.holds_object holds, type, checked.sound type (Nat.le_trans fixed small), fixed⟩

/-- If the states are in order too, so are the objects. -/
theorem intact (checked : types.Checked) (unmarked : ∀ p, e.Held p → m.Unmarked p) : Intact types e.Held m := by
  refine ⟨charted.regular, fun p holds => charted.framed checked holds, unmarked, fun p q first second less => ?_⟩
  have gap := fits_apart charted.standing charted.fits first second less
  have span := charted.spans first
  have low := charted.low first
  unfold blockOf at *
  omega

/-- The walk over a heap finds what the books have. -/
theorem objects_eq : e.objects m = .ok e.list := by
  have fits := charted.fits
  have positive := charted.positive
  have readable := charted.readable
  cases e with
  | markSweep c => rfl
  | copying c => exact Tiled.walkFrom_eq fits readable positive _ (Nat.le_refl _) []
  | leaky c => exact Tiled.walkFrom_eq fits readable positive _ (Nat.le_refl _) []

end Charted

end Engine

namespace World

variable {w : World}

theorem Headed.spans (headed : w.Headed) {p : Nat} (holds : w.heap.collector.engine.Held p) :
    headerSize + w.memory.payloadSize p ≤ w.memory.blockSize p := by
  obtain ⟨d, -, -, small⟩ := headed.typed p holds
  exact le_footprint small

theorem WellFormed.spans (formed : w.WellFormed) {p : Nat} (holds : w.heap.collector.engine.Held p) :
    headerSize + w.memory.payloadSize p ≤ w.memory.blockSize p := formed.headed.spans holds

theorem Labelled.charted (labelled : w.Labelled) (books : w.Books) :
    w.heap.collector.engine.Charted w.heap.types w.memory where
  regular := books.regular
  standing := books.ledger.standing
  legible := fun p holds => ⟨⟨_, labelled.unmarked p holds⟩, labelled.typed p holds⟩
  fits := labelled.fits

theorem Headed.charted (headed : w.Headed) (books : w.Books) :
    w.heap.collector.engine.Charted w.heap.types w.memory := headed.labelled.charted books

theorem Headed.intact (headed : w.Headed) (books : w.Books) :
    TracingHeap.Intact w.heap.types w.heap.collector.engine.Held w.memory :=
  (headed.charted books).intact books.types headed.unmarked

theorem WellFormed.consistent_of_intact (formed : w.WellFormed)
    (intact : TracingHeap.Intact w.heap.types w.heap.collector.engine.Held w.memory) :
    Consistent w.heap.types w.heap.roots.slots w.heap.collector.engine.Held w.memory := by
  refine ⟨intact, ?listed, ?words, formed.outside, formed.roots⟩
  case listed =>
    intro p holds
    obtain ⟨slots, listed, -⟩ := formed.references p holds
    exact ⟨slots, listed⟩
  case words =>
    intro p holds slots listed a member
    obtain ⟨slots', listed', references⟩ := formed.references p holds
    obtain rfl : slots = slots' := Except.ok.inj (listed.symm.trans listed')
    exact references a member

theorem WellFormed.consistent (formed : w.WellFormed) (books : w.Books) :
    Consistent w.heap.types w.heap.roots.slots w.heap.collector.engine.Held w.memory :=
  formed.consistent_of_intact (formed.headed.intact books)

theorem Headed.objects_eq (headed : w.Headed) (books : w.Books) :
    w.heap.collector.engine.objects w.memory = .ok w.heap.collector.engine.list := (headed.charted books).objects_eq

end World

/-! ### Deciding it -/

instance decidableIsOk {ε α : Type} (x : Except ε α) : Decidable (∃ a, x = .ok a) :=
  match x with
  | .ok a => isTrue ⟨a, rfl⟩
  | .error _ => isFalse fun ⟨_, same⟩ => nomatch same

instance decidableExistsOk {ε α : Type} (x : Except ε α) (P : α → Prop) [∀ a, Decidable (P a)] :
    Decidable (∃ a, x = .ok a ∧ P a) :=
  match x with
  | .ok a => decidable_of_iff (P a) ⟨fun holds => ⟨a, rfl, holds⟩, fun ⟨_, same, holds⟩ => Except.ok.inj same ▸ holds⟩
  | .error _ => isFalse fun ⟨_, same, _⟩ => nomatch same

instance decidableExistsSome {α : Type} (x : Option α) (P : α → Prop) [∀ a, Decidable (P a)] :
    Decidable (∃ a, x = some a ∧ P a) :=
  match x with
  | some a => decidable_of_iff (P a) ⟨fun holds => ⟨a, rfl, holds⟩, fun ⟨_, same, holds⟩ => Option.some.inj same ▸ holds⟩
  | none => isFalse fun ⟨_, same, _⟩ => nomatch same

instance decidableForallOk {ε α : Type} (x : Except ε α) (P : α → Prop) [∀ a, Decidable (P a)] :
    Decidable (∀ a, x = .ok a → P a) :=
  match x with
  | .ok a => decidable_of_iff (P a) ⟨fun holds _ same => Except.ok.inj same ▸ holds, fun all => all a rfl⟩
  | .error _ => isTrue fun _ same => nomatch same

instance decidableForallSome {α : Type} (x : Option α) (P : α → Prop) [∀ a, Decidable (P a)] :
    Decidable (∀ a, x = some a → P a) :=
  match x with
  | some a => decidable_of_iff (P a) ⟨fun holds _ same => Option.some.inj same ▸ holds, fun all => all a rfl⟩
  | none => isTrue fun _ same => nomatch same

/-- The slot is a cell that exists. -/
def Memory.isCell (m : Memory) : Slot → Bool
  | .cell i => i < m.cells.size
  | .field _ => false

theorem Memory.isCell_iff {m : Memory} {s : Slot} : m.isCell s = true ↔ ∃ i, s = .cell i ∧ i < m.cells.size := by
  cases s <;> simp [isCell]

def Tiled.decide (m : Memory) (stop : Nat) : (block : Nat) → (objects : List Nat) → Decidable (Tiled m stop block objects)
  | block, [] => inferInstanceAs (Decidable (block = stop))
  | block, p :: rest =>
    have := Tiled.decide m stop (block + (m.header block).footprint) rest
    inferInstanceAs (Decidable (p = payloadOf block ∧ _))

instance (m : Memory) (stop block : Nat) (objects : List Nat) : Decidable (Tiled m stop block objects) :=
  Tiled.decide m stop block objects

namespace Engine

instance (e : Engine) (p : Nat) : Decidable (e.Held p) :=
  match e with
  | markSweep c => inferInstanceAs (Decidable (c.owns p = true))
  | copying c => inferInstanceAs (Decidable (c.resident.contains p = true))
  | leaky c => inferInstanceAs (Decidable (c.held.contains p = true))

instance (e : Engine) (m : Memory) : Decidable (e.Fits m) :=
  match e with
  | markSweep c =>
    decidable_of_iff (∀ record ∈ c.records.toList, (m.header record.1).footprint ≤ record.2 ∧
      record.2 < (m.header record.1).footprint + smallestBlock)
      ⟨fun fits b n record => fits (b, n) (Std.TreeMap.mem_toList_iff_getElem?_eq_some.2 record),
        fun fits record member => fits record.1 record.2 (Std.TreeMap.mem_toList_iff_getElem?_eq_some.1 member)⟩
  | copying c => inferInstanceAs (Decidable (Tiled m c.spaces.active.top c.spaces.active.start c.resident.toList))
  | leaky c => inferInstanceAs (Decidable (Tiled m c.space.top c.space.start c.held.toList))

end Engine

namespace World

variable (w : World)

instance (word : Nat) : Decidable (w.IsReference word) := inferInstanceAs (Decidable (_ ∨ _))

instance : Decidable w.Labelled :=
  decidable_of_iff
    ((∀ p ∈ w.heap.collector.engine.list, (w.memory.header (blockOf p)).isIntact .unmarked = true ∧
        ∃ d, w.heap.types.get? (w.memory.header (blockOf p)).typeId = some d ∧
          d.fixedSize ≤ w.memory.payloadSize p ∧ w.memory.payloadSize p ≤ largestPayload) ∧
      w.heap.collector.engine.Fits w.memory)
    (by
      constructor
      · rintro ⟨objects, fits⟩
        refine ⟨fun p holds => ?_, fun p holds => ?_, fits⟩
        · exact Header.isIntact_iff.1 (objects p (Engine.mem_list.2 holds)).1
        · exact (objects p (Engine.mem_list.2 holds)).2
      · intro labelled
        refine ⟨fun p member => ?_, labelled.fits⟩
        have holds := Engine.mem_list.1 member
        exact ⟨Header.isIntact_iff.2 (labelled.unmarked p holds), labelled.typed p holds⟩)

instance : Decidable w.Headed :=
  decidable_of_iff (w.Labelled ∧ ∀ s ∈ w.heap.roots.slots, w.memory.isCell s = true)
    (by
      constructor
      · exact fun ⟨labelled, cells⟩ => { labelled with outside := fun s root => Memory.isCell_iff.1 (cells s root) }
      · exact fun headed => ⟨headed.labelled, fun s root => Memory.isCell_iff.2 (headed.outside s root)⟩)

instance : Decidable w.WellFormed :=
  decidable_of_iff
    (w.Headed ∧
      (∀ p ∈ w.heap.collector.engine.list, ∃ slots, w.heap.types.tracedSlots w.memory p = .ok slots ∧
        ∀ a ∈ slots, w.IsReference (w.memory.word a)) ∧
      ∀ s ∈ w.heap.roots.slots, w.IsReference (w.memory.slot s))
    (by
      constructor
      · rintro ⟨headed, references, roots⟩
        exact { headed with references := fun p holds => references p (Engine.mem_list.2 holds), roots }
      · exact fun formed => ⟨formed.headed, fun p member => formed.references p (Engine.mem_list.1 member), formed.roots⟩)

end World

end TracingHeap
