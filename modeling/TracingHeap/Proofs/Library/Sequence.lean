import TracingHeap.Library.Sequence
import TracingHeap.Proofs.Heap.Carriage

/-! What a list is in memory.

A list is an object with a length and a reference to a slab, whose first elements are the items of the list. The words
of the two objects are given by their places in their blocks. -/

set_option autoImplicit false

namespace TracingHeap

/-- The address of a word inside an object, by its place in the block. -/
theorem Framed.slotAt_eq {types : TypeTable} {m : Memory} {p offset : Nat} {d : Descriptor} (regular : m.Regular)
    (f : Framed types m p d) (within : offset + wordSize ≤ m.payloadSize p) :
    slotAt p offset = blockOf p + (headerSize + offset) := by
  have below := f.lt regular
  have low := f.low
  unfold Memory.payloadSize at within
  rw [slotAt, Word.wrap_of_lt] <;> unfold blockOf headerSize wordSize at * <;> omega

namespace Library

/-- The types that lists are made of are registered. -/
structure Known (lib : Library) (types : TypeTable) : Prop where
  slab : types.get? lib.slab = some slabType
  list : types.get? lib.list = some listType

instance (lib : Library) (types : TypeTable) : Decidable (lib.Known types) :=
  decidable_of_iff (types.get? lib.slab = some slabType ∧ types.get? lib.list = some listType)
    ⟨fun ⟨slab, list⟩ => ⟨slab, list⟩, fun known => ⟨known.slab, known.list⟩⟩

theorem Known.mono {lib : Library} {types types' : TypeTable} (known : lib.Known types)
    (grown : ∀ id d, types.get? id = some d → types'.get? id = some d) : lib.Known types' :=
  ⟨grown _ _ known.slab, grown _ _ known.list⟩

theorem Known.ne {lib : Library} {types : TypeTable} (known : lib.Known types) : lib.list ≠ lib.slab := by
  intro same
  have list := known.list
  rw [same, known.slab] at list
  exact absurd (congrArg Descriptor.name (Option.some.inj list)) (by decide)

/-- Where a list has its length, and a slab its size. -/
def countPlace : Nat := headerSize

/-- Where a list has the reference to its slab. -/
def slabPlace : Nat := headerSize + wordSize

/-- Where a slab has an element. -/
def elementPlace (index : Nat) : Nat := headerSize + wordSize + index * wordSize

theorem elementPlace_ne_countPlace (index : Nat) : elementPlace index ≠ countPlace := by
  unfold elementPlace countPlace wordSize
  omega

theorem elementPlace_inj {i j : Nat} : elementPlace i = elementPlace j ↔ i = j := by
  unfold elementPlace wordSize
  omega

/-- There is a slab of some size at an address. -/
structure SlabAt (lib : Library) (w : World) (q capacity : Nat) : Prop where
  usable : w.Usable
  known : lib.Known w.heap.types
  held : w.Held q
  type : (w.memory.header (blockOf q)).typeId = lib.slab
  count : w.memory.word (blockOf q + countPlace) = capacity

/-- There is a list of some length at an address, and its slab is at another. -/
structure ListAt (lib : Library) (w : World) (p q length : Nat) : Prop where
  usable : w.Usable
  known : lib.Known w.heap.types
  held : w.Held p
  type : (w.memory.header (blockOf p)).typeId = lib.list
  count : w.memory.word (blockOf p + countPlace) = length
  pointer : w.memory.word (blockOf p + slabPlace) = q

/-- A list with its items. -/
structure Holds (lib : Library) (w : World) (p q capacity : Nat) (items : List Nat) : Prop where
  list : lib.ListAt w p q items.length
  slab : lib.SlabAt w q capacity
  room : items.length ≤ capacity
  element : ∀ j item, items[j]? = some item → w.memory.word (blockOf q + elementPlace j) = item

variable {lib : Library} {w w' : World} {p q capacity length i : Nat} {items : List Nat} {f : Nat → Nat}
  {written : Nat → Nat → Prop}

theorem liveAt_ok {s : Slot} (anchors : w.Anchors s p) (usable : w.Usable) (here : p ≠ 0) :
    liveAt s w.memory = .ok p w.memory := by
  unfold liveAt
  rw [run_bind (anchors.load usable), live, if_neg here]
  rfl

/-! ### Slabs -/

/-- A slab is never empty, so a heap that moves its objects can be asked for one of any size. -/
theorem allocSlab_answers (usable : w.Usable) (known : lib.Known w.heap.types) (count : Nat) :
    w.Answers lib.slab (wordSize + count * wordSize) (patch countPlace count fun _ => 0) (lib.allocSlab count w) :=
  Heap.allocateArray_answers usable known.slab rfl fun _ => by
    show 0 < wordSize + count * _
    unfold wordSize
    omega

theorem SlabAt.of_enters {count : Nat} (known : lib.Known w.heap.types) (carries : w.Carries w' f)
    (enters : w.Enters w' f lib.slab (wordSize + count * wordSize) (patch countPlace count fun _ => 0) q) :
    lib.SlabAt w' q count where
  usable := carries.usable
  known := known.mono fun id d type => (carries.types id).trans type
  held := enters.held
  type := enters.type
  count := (enters.word countPlace (by decide) (by decide) (by unfold countPlace; omega)).trans (if_pos rfl)

namespace SlabAt

theorem outline (slab : lib.SlabAt w q capacity) : Outline w.heap.types w.memory q slabType capacity := by
  obtain ⟨d, n, o⟩ := slab.usable.consistent.outline q slab.held
  have type := o.type
  rw [slab.type, slab.known.slab] at type
  cases type
  have counted : n = w.memory.word (blockOf q + countPlace) := (o.count_eq slab.usable.regular).2
  rw [counted, slab.count] at o
  exact o

variable (slab : lib.SlabAt w q capacity)

include slab

theorem low : headerSize ≤ q := slab.outline.low

theorem pos : q ≠ 0 := by
  have low := slab.low
  unfold headerSize at low
  omega

theorem fits : wordSize + capacity * wordSize ≤ w.memory.payloadSize q := slab.outline.elements_le slab.usable.regular

/-- There is no slab of which a size twice as large would not be a word. -/
theorem double_lt : 2 * capacity < wordLimit := by
  have fits := slab.fits
  have below := slab.outline.lt slab.usable.regular
  unfold Memory.payloadSize at fits
  unfold wordSize wordLimit at *
  omega

omit slab in
theorem mem_places (lt : i < capacity) : elementPlace i ∈ slabType.places capacity :=
  List.mem_append_right _ (List.mem_map.2 ⟨i, List.mem_range.2 lt, rfl⟩)

theorem bounds (lt : i < capacity) : 16 ≤ elementPlace i ∧ wordSize ∣ elementPlace i ∧
    elementPlace i + wordSize ≤ headerSize + w.memory.payloadSize q := by
  obtain ⟨above, within, whole⟩ := slab.outline.bounds slab.usable.regular (mem_places lt)
  exact ⟨above, whole, within⟩

theorem elementAt_eq (lt : i < capacity) : elementAt q i = blockOf q + elementPlace i := by
  have within := (slab.bounds lt).2.2
  rw [elementAt, slab.outline.slotAt_eq slab.usable.regular, elementPlace, Nat.add_assoc]
  unfold elementPlace at within
  omega

theorem tracedSlots_eq :
    w.heap.types.tracedSlots w.memory q = .ok ((slabType.places capacity).map (blockOf q + ·)) :=
  slab.outline.tracedSlots_eq slab.usable.regular (slab.usable.consistent.unmarked q slab.held) (by decide)

/-- The elements of a slab are references. -/
theorem isReference (lt : i < capacity) : w.IsReference (w.memory.word (blockOf q + elementPlace i)) :=
  slab.usable.consistent.words q slab.held _ slab.tracedSlots_eq _ (List.mem_map_of_mem (mem_places lt))

theorem reaches (reach : w.Reaches q) (lt : i < capacity) (value : w.memory.word (blockOf q + elementPlace i) ≠ 0) :
    w.Reaches (w.memory.word (blockOf q + elementPlace i)) :=
  .step reach slab.tracedSlots_eq (List.mem_map_of_mem (mem_places lt)) value

theorem keep (keeps : w.Keeps w' written) (free : ¬ written q countPlace) : lib.SlabAt w' q capacity where
  usable := keeps.usable
  known := slab.known.mono keeps.types
  held := keeps.held q slab.held
  type := (keeps.type q slab.held).trans slab.type
  count := by
    have fits := slab.fits
    rw [keeps.word q slab.held countPlace (by decide) (by decide) (by unfold countPlace; omega) free, slab.count]

theorem carry (carries : w.Carries w' f) (reach : w.Reaches q) : lib.SlabAt w' (f q) capacity where
  usable := carries.usable
  known := slab.known.mono fun id d type => (carries.types id).trans type
  held := carries.held q reach
  type := (carries.relocation.type q reach).trans slab.type
  count := by
    have fits := slab.fits
    have inside := carries.usable.consistent.inside (carries.held q reach)
    rw [carries.relocation.size q reach] at inside
    have region : slabType.region = some (Region.references 0) := rfl
    have free : countPlace ∉ slabType.places capacity :=
      Descriptor.count_notMem_places slab.outline.sound region capacity
    rw [carries.relocation.word_untraced slab.usable.consistent reach slab.outline inside free (by decide)
      (by unfold countPlace; omega), slab.count]

theorem element_carry (carries : w.Carries w' f) (reach : w.Reaches q) (lt : i < capacity) :
    w'.memory.word (blockOf (f q) + elementPlace i) = relocated f (w.memory.word (blockOf q + elementPlace i)) :=
  carries.relocation.word_traced slab.usable.consistent reach slab.outline (carries.low q reach) (mem_places lt)

theorem load (lt : i < capacity) : Access.loadWord (elementAt q i) w.memory =
    .ok (w.memory.word (blockOf q + elementPlace i)) w.memory := by
  rw [slab.elementAt_eq lt]
  exact Access.loadWord_ok (slab.outline.holds_place slab.usable.regular (mem_places lt))

/-- An element may be set to any reference. -/
theorem put (lt : i < capacity) {v : Nat} (reference : w.IsReference v) : ∃ m',
    Access.storeWord (elementAt q i) v w.memory = .ok () m' ∧
      w.Puts { w with memory := m' } q (elementPlace i) v := by
  obtain ⟨above, whole, within⟩ := slab.bounds lt
  have other (r : Region) (region : slabType.region = some r) : placeOf r.countOffset ≠ elementPlace i := by
    cases region
    exact (elementPlace_ne_countPlace i).symm
  obtain ⟨inside, puts⟩ := slab.usable.put slab.held slab.outline above whole within (slab.usable.isWord reference) other
    fun _ => reference
  rw [slab.elementAt_eq lt]
  exact ⟨_, Access.guarded_ok inside, puts⟩

end SlabAt

/-! ### Lists -/

namespace ListAt

theorem outline (list : lib.ListAt w p q length) : Outline w.heap.types w.memory p listType 0 := by
  obtain ⟨d, n, o⟩ := list.usable.consistent.outline p list.held
  have type := o.type
  rw [list.type, list.known.list] at type
  cases type
  have counted : n = 0 := (o.count_eq list.usable.regular).2
  rwa [counted] at o

variable (list : lib.ListAt w p q length)

include list

theorem low : headerSize ≤ p := list.outline.low

theorem pos : p ≠ 0 := by
  have low := list.low
  unfold headerSize at low
  omega

theorem fits : 2 * wordSize ≤ w.memory.payloadSize p := list.outline.fixed

theorem eq_count : p = blockOf p + countPlace := (payloadOf_blockOf list.low).symm

theorem slotAt_eq : slotAt p wordSize = blockOf p + slabPlace :=
  list.outline.slotAt_eq list.usable.regular (by have fits := list.fits; unfold wordSize at *; omega)

theorem inside (k : Nat) (within : k + wordSize ≤ headerSize + 2 * wordSize) :
    w.memory.holds (blockOf p + k) wordSize = true := by
  have fits := list.fits
  exact Memory.holds_sub list.usable.regular (list.usable.consistent.inside list.held) k wordSize (by omega)

/-- A list is not a slab. -/
theorem ne_slab {slab size : Nat} (other : lib.SlabAt w slab size) : p ≠ slab := fun same =>
  list.known.ne (list.type.symm.trans (same ▸ other.type))

theorem loadCount : Access.loadWord p w.memory = .ok length w.memory := by
  have read := Access.loadWord_ok (list.inside countPlace (by decide))
  rwa [list.count, ← list.eq_count] at read

theorem loadSlab : Access.loadWord (slotAt p wordSize) w.memory = .ok q w.memory := by
  have read := Access.loadWord_ok (list.inside slabPlace (by decide))
  rwa [list.pointer, ← list.slotAt_eq] at read

theorem keep (keeps : w.Keeps w' written) (free : ¬ written p countPlace) (free' : ¬ written p slabPlace) :
    lib.ListAt w' p q length := by
  have fits := list.fits
  constructor
  case usable => exact keeps.usable
  case known => exact list.known.mono keeps.types
  case held => exact keeps.held p list.held
  case type => exact (keeps.type p list.held).trans list.type
  case count =>
    rw [keeps.word p list.held countPlace (by decide) (by decide) (by unfold countPlace wordSize at *; omega) free,
      list.count]
  case pointer =>
    rw [keeps.word p list.held slabPlace (by decide) (by decide) (by unfold slabPlace wordSize at *; omega) free',
      list.pointer]

theorem reaches (reach : w.Reaches p) (value : q ≠ 0) : w.Reaches q := by
  have consistent := list.usable.consistent
  have listed := list.outline.tracedSlots_eq consistent.regular (consistent.unmarked p list.held) (by decide)
  have pointer := list.pointer
  have next : w.Reaches (w.memory.word (blockOf p + slabPlace)) := .step reach listed
    (List.mem_map_of_mem (by decide)) (pointer ▸ value)
  rwa [pointer] at next

theorem carry (carries : w.Carries w' f) (reach : w.Reaches p) : lib.ListAt w' (f p) (relocated f q) length := by
  have fits := list.fits
  have consistent := list.usable.consistent
  have inside := carries.usable.consistent.inside (carries.held p reach)
  rw [carries.relocation.size p reach] at inside
  constructor
  case usable => exact carries.usable
  case known => exact list.known.mono fun id d type => (carries.types id).trans type
  case held => exact carries.held p reach
  case type => exact (carries.relocation.type p reach).trans list.type
  case count =>
    rw [carries.relocation.word_untraced consistent reach list.outline inside (by decide) (by decide)
      (by unfold countPlace wordSize at *; omega), list.count]
  case pointer =>
    rw [carries.relocation.word_traced consistent reach list.outline (carries.low p reach) (by decide), list.pointer]

theorem putCount {n : Nat} (isWord : n < wordLimit) : ∃ m', Access.storeWord p n w.memory = .ok () m' ∧
    lib.ListAt { w with memory := m' } p q n ∧ w.Puts { w with memory := m' } p countPlace n := by
  have fits := list.fits
  obtain ⟨inside, puts⟩ := list.usable.put (k := countPlace) list.held list.outline (by decide) (by decide)
    (by unfold countPlace wordSize at *; omega) isWord nofun fun place => absurd place (by decide)
  rw [← list.eq_count] at inside
  have pointer := puts.keeps.word p list.held slabPlace (by decide) (by decide)
    (by unfold slabPlace wordSize at *; omega) fun written => absurd written.2 (by decide)
  have list' : lib.ListAt { w with memory := w.memory.setWord (blockOf p + countPlace) n } p q n :=
    ⟨puts.keeps.usable, list.known, list.held, (puts.keeps.type p list.held).trans list.type, puts.word,
      pointer.trans list.pointer⟩
  rw [← list.eq_count] at puts list'
  exact ⟨_, Access.guarded_ok inside, list', puts⟩

theorem putSlab {q' : Nat} (held : w.Held q') : ∃ m', Access.storeWord (slotAt p wordSize) q' w.memory = .ok () m' ∧
    lib.ListAt { w with memory := m' } p q' length ∧ w.Puts { w with memory := m' } p slabPlace q' := by
  have fits := list.fits
  obtain ⟨inside, puts⟩ := list.usable.put (k := slabPlace) list.held list.outline (by decide) (by decide)
    (by unfold slabPlace wordSize at *; omega) (list.usable.isWord (.inr held)) nofun fun _ => .inr held
  have count := puts.keeps.word p list.held countPlace (by decide) (by decide)
    (by unfold countPlace wordSize at *; omega) fun written => absurd written.2 (by decide)
  rw [list.slotAt_eq]
  exact ⟨_, Access.guarded_ok inside, ⟨puts.keeps.usable, list.known, list.held,
    (puts.keeps.type p list.held).trans list.type, count.trans list.count, puts.word⟩, puts⟩

end ListAt

/-! ### Lists and their items -/

namespace SlabAt

variable (slab : lib.SlabAt w q capacity)

include slab

theorem loadCount : Access.loadWord q w.memory = .ok capacity w.memory := by
  have fits := slab.fits
  have here : blockOf q + countPlace = q := payloadOf_blockOf slab.low
  have inside : w.memory.holds (blockOf q + countPlace) wordSize = true :=
    Memory.holds_sub slab.usable.regular (slab.usable.consistent.inside slab.held) countPlace wordSize
      (by unfold countPlace; omega)
  have read := Access.loadWord_ok inside
  rwa [slab.count, here] at read

theorem element_keep (keeps : w.Keeps w' written) (lt : i < capacity) (free : ¬ written q (elementPlace i)) :
    w'.memory.word (blockOf q + elementPlace i) = w.memory.word (blockOf q + elementPlace i) := by
  obtain ⟨above, whole, within⟩ := slab.bounds lt
  exact keeps.word q slab.held _ above whole within free

end SlabAt

namespace Holds

variable (holds : lib.Holds w p q capacity items)

include holds

theorem lt_capacity {j item : Nat} (found : items[j]? = some item) : j < capacity :=
  Nat.lt_of_lt_of_le (List.getElem?_eq_some_iff.1 found).1 holds.room

theorem isReference {item : Nat} (member : item ∈ items) : w.IsReference item := by
  obtain ⟨j, found⟩ := List.mem_iff_getElem?.1 member
  rw [← holds.element j item found]
  exact holds.slab.isReference (holds.lt_capacity found)

theorem reaches (reach : w.Reaches p) {item : Nat} (member : item ∈ items) (value : item ≠ 0) : w.Reaches item := by
  obtain ⟨j, found⟩ := List.mem_iff_getElem?.1 member
  have element := holds.element j item found
  have behind := holds.list.reaches reach holds.slab.pos
  have next := holds.slab.reaches behind (holds.lt_capacity found) (element ▸ value)
  rwa [element] at next

theorem listLength_eq : listLength p w.memory = .ok items.length w.memory := holds.list.loadCount

theorem listCapacity_eq : listCapacity p w.memory = .ok capacity w.memory := by
  unfold listCapacity
  rw [run_bind holds.list.loadSlab, if_neg holds.slab.pos]
  exact holds.slab.loadCount

/-- An element is read from the slab. -/
theorem listGet_eq (index : Nat) : listGet p index w.memory = .ok (items[index]?.filter (· ≠ 0)) w.memory := by
  unfold listGet
  rw [run_bind holds.listLength_eq]
  by_cases behind : items.length ≤ index
  · rw [if_pos behind, List.getElem?_eq_none behind]
    rfl
  · have lt : index < items.length := Nat.lt_of_not_le behind
    have element := holds.element index _ (List.getElem?_eq_getElem lt)
    have read := holds.slab.load (Nat.lt_of_lt_of_le lt holds.room)
    rw [element] at read
    simp only [if_neg behind]
    rw [run_bind holds.list.loadSlab]
    simp only [if_neg holds.slab.pos]
    rw [run_bind read, List.getElem?_eq_getElem lt]
    by_cases null : items[index] = 0
    · simp only [null, if_true]
      rfl
    · simp only [null, if_false, Option.filter, ne_eq, not_false_eq_true, decide_true, if_true]
      rfl

theorem keep (keeps : w.Keeps w' written) (apart : ∀ k, ¬ written p k) (apart' : ∀ k, ¬ written q k) :
    lib.Holds w' p q capacity items where
  list := holds.list.keep keeps (apart _) (apart _)
  slab := holds.slab.keep keeps (apart' _)
  room := holds.room
  element := fun j item found =>
    (holds.slab.element_keep keeps (holds.lt_capacity found) (apart' _)).trans (holds.element j item found)

/-- A list is carried with its slab, and its items are what they have become. -/
theorem carry (carries : w.Carries w' f) (reach : w.Reaches p) :
    lib.Holds w' (f p) (f q) capacity (items.map (relocated f)) := by
  have list := holds.list.carry carries reach
  have behind := holds.list.reaches reach holds.slab.pos
  rw [relocated_of_ne holds.slab.pos] at list
  constructor
  case list =>
    rw [List.length_map]
    exact list
  case slab => exact holds.slab.carry carries behind
  case room =>
    rw [List.length_map]
    exact holds.room
  case element =>
    intro j item found
    rw [List.getElem?_map] at found
    obtain ⟨old, known, rfl⟩ := Option.map_eq_some_iff.1 found
    rw [holds.slab.element_carry carries behind (holds.lt_capacity known), holds.element j old known]

end Holds

end Library

end TracingHeap
