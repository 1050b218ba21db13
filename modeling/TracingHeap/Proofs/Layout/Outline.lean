import TracingHeap.Proofs.Computation
import TracingHeap.Proofs.Layout.Places
import TracingHeap.Proofs.Memory.Words

/-! The traced words of one object.

Which words of an object are traced depends on its type, its size and its count word. None of these is
itself a traced word, so a collector may rewrite all traced words of an object and still finds the same ones. -/

set_option autoImplicit false

namespace TracingHeap

/-- The words of an object, given by their places, after one of them has been written. -/
def patch {α : Type} (k : Nat) (v : α) (word : Nat → α) : Nat → α := fun k' => if k' = k then v else word k'

-- Nothing is said of the words in it: neither the count nor the references need be in order.
/-- The object has a registered type, and there is memory for all of it. -/
structure Framed (types : TypeTable) (m : Memory) (p : Nat) (d : Descriptor) : Prop where
  low : headerSize ≤ p
  inside : m.holds (blockOf p) (headerSize + (m.header (blockOf p)).size) = true
  type : types.get? (m.header (blockOf p)).typeId = some d
  sound : d.Sound
  fixed : d.fixedSize ≤ (m.header (blockOf p)).size

/-- The region of the object moreover has `count` elements to trace. -/
structure Outline (types : TypeTable) (m : Memory) (p : Nat) (d : Descriptor) (count : Nat) : Prop
    extends Framed types m p d where
  counted : d.tracedCount m p (m.header (blockOf p)).size = .ok count

theorem payloadOf_blockOf {p : Nat} (low : headerSize ≤ p) : payloadOf (blockOf p) = p := Nat.sub_add_cancel low

theorem blockOf_payloadOf (b : Nat) : blockOf (payloadOf b) = b := Nat.add_sub_cancel b headerSize

namespace Descriptor

variable {m : Memory} {d : Descriptor} {p size count : Nat}

/-- The number of traced elements, when the words of the object are given by their places. -/
def elements (d : Descriptor) (word : Nat → Nat) : Nat :=
  match d.region with
  | none => 0
  | some r => if r.kind = .traced then word (placeOf r.countOffset) else 0

/-- The count of a region is within its capacity. -/
def CountFits (d : Descriptor) (word : Nat → Nat) (size : Nat) : Prop :=
  ∀ r, d.region = some r → word (placeOf r.countOffset) ≤ d.capacity r size

theorem slotAt_count (low : headerSize ≤ p) (sound : d.Sound) (fixed : d.fixedSize ≤ size)
    (small : p + size < wordLimit) {r : Region} (region : d.region = some r) :
    slotAt p r.countOffset = blockOf p + placeOf r.countOffset := by
  have bounds := (sound.count r region).2.1
  have split : slotAt (payloadOf (blockOf p)) r.countOffset = blockOf p + placeOf r.countOffset :=
    slotAt_payloadOf (by simp only [blockOf, wordSize] at *; omega)
  rwa [payloadOf_blockOf low] at split

/-- A count that is above the capacity, and the capacity. -/
def excess (d : Descriptor) (word : Nat → Nat) (size : Nat) : Option (Nat × Nat) :=
  match d.region with
  | none => none
  | some r =>
    if word (placeOf r.countOffset) > d.capacity r size then some (word (placeOf r.countOffset), d.capacity r size)
    else none

theorem excess_eq_none {word : Nat → Nat} : d.excess word size = none ↔ d.CountFits word size := by
  unfold excess CountFits
  cases d.region with
  | none => simp
  | some r => simp

-- The capacity is compared first, whatever the kind of the region: a count of untraced elements is refused like one
-- of references.
/-- The count is read where a count that is too large is refused. -/
theorem tracedCount_eq (low : headerSize ≤ p) (sound : d.Sound) (fixed : d.fixedSize ≤ size)
    (small : p + size < wordLimit)
    (readable : ∀ k, k + wordSize ≤ headerSize + size → m.holds (blockOf p + k) wordSize = true) :
    d.tracedCount m p size = match d.excess (fun k => m.word (blockOf p + k)) size with
      | some (count, capacity) => .error (.corrupted p (.regionOverflow count capacity))
      | none => .ok (d.elements fun k => m.word (blockOf p + k)) := by
  unfold tracedCount excess elements
  cases region : d.region with
  | none => rfl
  | some r =>
    have bounds := (sound.count r region).2.1
    have read : m.readWord (slotAt p r.countOffset) = .ok (m.word (blockOf p + placeOf r.countOffset)) := by
      rw [slotAt_count low sound fixed small region, Memory.readWord, if_pos (readable _ (by omega))]
    simp only [bind, Except.bind, read]
    by_cases large : m.word (blockOf p + placeOf r.countOffset) > d.capacity r size
    · simp only [large, if_true]
      rfl
    · simp only [large, if_false]
      cases r.kind <;> rfl

theorem tracedCount_eq_ok (low : headerSize ≤ p) (sound : d.Sound) (fixed : d.fixedSize ≤ size)
    (small : p + size < wordLimit)
    (readable : ∀ k, k + wordSize ≤ headerSize + size → m.holds (blockOf p + k) wordSize = true) :
    d.tracedCount m p size = .ok count ↔
      d.CountFits (fun k => m.word (blockOf p + k)) size ∧ count = d.elements fun k => m.word (blockOf p + k) := by
  rw [tracedCount_eq low sound fixed small readable, ← excess_eq_none]
  cases d.excess (fun k => m.word (blockOf p + k)) size with
  | none => simp [eq_comm]
  | some pair => simp

/-- A count within the capacity leaves room for the elements. -/
theorem elements_le {word : Nat → Nat} (sound : d.Sound) (fixed : d.fixedSize ≤ size) (fits : d.CountFits word size) :
    d.fixedSize + d.elements word * wordSize ≤ size := by
  unfold elements
  cases region : d.region with
  | none => simpa using fixed
  | some r =>
    have within := fits r region
    cases kind : r.kind with
    | scalar => simpa [kind] using fixed
    | traced =>
      have unit := (sound.element r region).2 kind
      simp only [kind, if_true]
      simp only [capacity, unit, wordSize] at within ⊢
      omega

/-- The count is the same wherever the count word is the same. -/
theorem elements_congr (size : Nat) (word word' : Nat → Nat)
    (same : ∀ r, d.region = some r → word' (placeOf r.countOffset) = word (placeOf r.countOffset)) :
    d.elements word' = d.elements word ∧ (d.CountFits word' size ↔ d.CountFits word size) := by
  unfold elements CountFits
  cases region : d.region with
  | none => simp
  | some r =>
    have count := same r region
    simp only [count, Option.some.injEq, forall_eq']
    exact ⟨trivial, trivial⟩

theorem excess_congr (size : Nat) (word word' : Nat → Nat)
    (same : ∀ r, d.region = some r → word' (placeOf r.countOffset) = word (placeOf r.countOffset)) :
    d.excess word' size = d.excess word size := by
  unfold excess
  cases region : d.region with
  | none => rfl
  | some r => simp only [same r region]

/-- The number of elements that are followed: none where the count is too large. -/
def followed (d : Descriptor) (word : Nat → Nat) (size : Nat) : Nat :=
  match d.excess word size with
  | some _ => 0
  | none => d.elements word

theorem followed_of_fits {word : Nat → Nat} (fits : d.CountFits word size) : d.followed word size = d.elements word := by
  rw [followed, excess_eq_none.2 fits]

theorem followed_congr (size : Nat) (word word' : Nat → Nat)
    (same : ∀ r, d.region = some r → word' (placeOf r.countOffset) = word (placeOf r.countOffset)) :
    d.excess word' size = d.excess word size ∧ d.followed word' size = d.followed word size := by
  have excess := excess_congr size word word' same
  exact ⟨excess, by rw [followed, followed, excess, (elements_congr size word word' same).1]⟩

theorem followed_le {word : Nat → Nat} (sound : d.Sound) (fixed : d.fixedSize ≤ size) :
    d.fixedSize + d.followed word size * wordSize ≤ size := by
  unfold followed
  cases excess : d.excess word size with
  | some pair => simpa using fixed
  | none => exact elements_le sound fixed (excess_eq_none.1 excess)

end Descriptor

namespace Framed

variable {types : TypeTable} {m m' : Memory} {p p' n : Nat} {d : Descriptor}

theorem lt (regular : m.Regular) (f : Framed types m p d) :
    blockOf p + (headerSize + (m.header (blockOf p)).size) < wordLimit := Memory.holds_lt regular f.inside

theorem holds_header (regular : m.Regular) (f : Framed types m p d) : m.holds (blockOf p) headerSize = true :=
  Memory.holds_of_range regular f.inside (Nat.le_refl _) (by omega)

theorem holds_front (regular : m.Regular) (f : Framed types m p d) : m.holds (blockOf p) wordSize = true :=
  Memory.holds_of_range regular f.inside (Nat.le_refl _) (by unfold wordSize headerSize; omega)

theorem readHeader_eq (regular : m.Regular) (f : Framed types m p d) :
    m.readHeader (blockOf p) = .ok (m.header (blockOf p)) := by
  rw [Memory.readHeader, if_pos (f.holds_front regular)]

theorem readObject_eq (regular : m.Regular) (f : Framed types m p d) {s : ObjectState}
    (check : (m.header (blockOf p)).check = .ok s) : m.readObject p = .ok (m.header (blockOf p), s) := by
  simp only [Memory.readObject, f.readHeader_eq regular, bind, Except.bind, check]

theorem shape_eq (regular : m.Regular) (f : Framed types m p d) {s : ObjectState}
    (check : (m.header (blockOf p)).check = .ok s) (stays : s ≠ .forwarded) :
    types.shape m p = .ok (m.header (blockOf p), d) := by
  simp only [TypeTable.shape, f.readObject_eq regular check, bind, Except.bind, stays, if_false,
    TypeTable.get_eq_ok.2 f.type]
  rfl

theorem tracedCount_eq (regular : m.Regular) (f : Framed types m p d) :
    d.tracedCount m p (m.header (blockOf p)).size =
      match d.excess (fun k => m.word (blockOf p + k)) (m.header (blockOf p)).size with
      | some (count, capacity) => .error (.corrupted p (.regionOverflow count capacity))
      | none => .ok (d.elements fun k => m.word (blockOf p + k)) := by
  have below := f.lt regular
  have low := f.low
  refine Descriptor.tracedCount_eq low f.sound f.fixed (by simp only [blockOf] at *; omega) fun k fits => ?_
  exact Memory.holds_sub regular f.inside k wordSize fits

section

variable (regular : m.Regular) (f : Framed types m p d)
  (room : d.fixedSize + n * wordSize ≤ (m.header (blockOf p)).size)

include f room

theorem bounds {k : Nat} (member : k ∈ d.places n) :
    16 ≤ k ∧ k + wordSize ≤ headerSize + (m.header (blockOf p)).size ∧ wordSize ∣ k :=
  Descriptor.places_bounds f.sound room member

include regular

theorem holds_place {k : Nat} (member : k ∈ d.places n) : m.holds (blockOf p + k) wordSize = true :=
  Memory.holds_sub regular f.inside k wordSize (f.bounds room member).2.1

omit room in
theorem fieldSlots_eq : d.fieldSlots p = (d.tracedOffsets.map placeOf).map (blockOf p + ·) := by
  have fixed := f.fixed
  have below := f.lt regular
  have split : d.fieldSlots (payloadOf (blockOf p)) = (d.tracedOffsets.map placeOf).map (blockOf p + ·) :=
    Descriptor.fieldSlots_eq f.sound (by omega)
  rwa [payloadOf_blockOf f.low] at split

theorem elementSlots_eq : d.elementSlots p n = (d.elementPlaces n).map (blockOf p + ·) := by
  have split := Descriptor.elementSlots_eq room (f.lt regular)
  rwa [payloadOf_blockOf f.low] at split

/-- The slots of an object, in the order in which the collectors follow them. -/
theorem slots_eq : d.fieldSlots p ++ d.elementSlots p n = (d.places n).map (blockOf p + ·) := by
  rw [f.fieldSlots_eq regular, f.elementSlots_eq regular room, Descriptor.places, List.map_append]

end

theorem congr (f : Framed types m p d) (low : headerSize ≤ p')
    (inside : m'.holds (blockOf p') (headerSize + (m.header (blockOf p)).size) = true)
    (type : (m'.header (blockOf p')).typeId = (m.header (blockOf p)).typeId)
    (size : (m'.header (blockOf p')).size = (m.header (blockOf p)).size) : Framed types m' p' d :=
  ⟨low, by rw [size]; exact inside, by rw [type]; exact f.type, f.sound, by rw [size]; exact f.fixed⟩

-- The count word is aligned like the traced words and is none of them, so all its bytes stay where only traced words
-- are written.
/-- The count of an object stays where all bytes but the traced ones stay. -/
theorem count_congr (regular : m.Regular) (regular' : m'.Regular) (f : Framed types m p d)
    (inside : m'.holds (blockOf p') (headerSize + (m.header (blockOf p)).size) = true)
    (room : d.fixedSize + n * wordSize ≤ (m.header (blockOf p)).size)
    (bytes : ∀ i, 16 ≤ i → i < headerSize + (m.header (blockOf p)).size →
      (∀ k ∈ d.places n, i < k ∨ k + wordSize ≤ i) → m'.byte (blockOf p' + i) = m.byte (blockOf p + i))
    (r : Region) (region : d.region = some r) :
    m'.word (blockOf p' + placeOf r.countOffset) = m.word (blockOf p + placeOf r.countOffset) := by
  obtain ⟨first, last, aligned, -⟩ := f.sound.count r region
  have apart := Descriptor.count_notMem_places f.sound region n
  have within : placeOf r.countOffset + wordSize ≤ headerSize + (m.header (blockOf p)).size :=
    Nat.le_trans last (Nat.add_le_add_left f.fixed _)
  apply Memory.word_congr regular regular' (Memory.holds_sub regular f.inside _ _ within)
    (Memory.holds_sub regular' inside _ _ within)
  intro i lt
  rw [Nat.add_assoc, Nat.add_assoc]
  apply bytes _ (by omega) (by omega)
  intro k member
  have aligned' := (f.bounds room member).2.2
  have different : k ≠ placeOf r.countOffset := fun same => apart (same ▸ member)
  simp only [wordSize] at *
  omega

end Framed

/-- The slots of an object that a collector follows. -/
def TypeTable.visited (types : TypeTable) (m : Memory) (p : Nat) : List Nat :=
  match types.get? (m.header (blockOf p)).typeId with
  | none => []
  | some d => (d.places (d.followed (fun k => m.word (blockOf p + k)) (m.header (blockOf p)).size)).map (blockOf p + ·)

/-- The count of an object that is above the capacity, and the capacity. -/
def TypeTable.excess (types : TypeTable) (m : Memory) (p : Nat) : Option (Nat × Nat) :=
  match types.get? (m.header (blockOf p)).typeId with
  | none => none
  | some d => d.excess (fun k => m.word (blockOf p + k)) (m.header (blockOf p)).size

namespace Framed

variable {types : TypeTable} {m : Memory} {p : Nat} {d : Descriptor}

theorem excess_eq (f : Framed types m p d) :
    types.excess m p = d.excess (fun k => m.word (blockOf p + k)) (m.header (blockOf p)).size := by
  have type := f.type
  unfold TypeTable.excess
  simp only [type]

theorem visited_eq (f : Framed types m p d) : types.visited m p =
    (d.places (d.followed (fun k => m.word (blockOf p + k)) (m.header (blockOf p)).size)).map (blockOf p + ·) := by
  have type := f.type
  unfold TypeTable.visited
  simp only [type]

theorem followed_le (f : Framed types m p d) (word : Nat → Nat) :
    d.fixedSize + d.followed word (m.header (blockOf p)).size * wordSize ≤ (m.header (blockOf p)).size :=
  Descriptor.followed_le f.sound f.fixed

/-- A slot that is followed is at a place in the object. -/
theorem mem_visited (f : Framed types m p d) {a : Nat} (member : a ∈ types.visited m p) :
    ∃ k, a = blockOf p + k ∧ 16 ≤ k ∧ k + wordSize ≤ headerSize + (m.header (blockOf p)).size ∧ wordSize ∣ k := by
  rw [f.visited_eq] at member
  obtain ⟨k, place, rfl⟩ := List.mem_map.1 member
  exact ⟨k, rfl, f.bounds (f.followed_le _) place⟩

section

variable (regular : m.Regular) (f : Framed types m p d) {s : ObjectState}
  (check : (m.header (blockOf p)).check = .ok s) (stays : s ≠ .forwarded)

include regular f check stays

/-- The slots of an object are listed unless its count is too large. -/
theorem tracedSlots_eq : types.tracedSlots m p = match types.excess m p with
    | some (count, capacity) => .error (.corrupted p (.regionOverflow count capacity))
    | none => .ok (types.visited m p) := by
  simp only [TypeTable.tracedSlots, f.shape_eq regular check stays, bind, Except.bind, f.tracedCount_eq regular, f.excess_eq]
  cases excess : d.excess (fun k => m.word (blockOf p + k)) (m.header (blockOf p)).size with
  | some pair => rfl
  | none =>
    have fits := Descriptor.excess_eq_none.1 excess
    have room := Descriptor.elements_le f.sound f.fixed fits
    rw [f.visited_eq, Descriptor.followed_of_fits fits, ← f.slots_eq regular room]
    rfl

theorem tracedWords_eq : types.tracedWords m p = match types.excess m p with
    | some (count, capacity) => .error (.corrupted p (.regionOverflow count capacity))
    | none => .ok ((types.visited m p).map m.word) := by
  rw [TypeTable.tracedWords, f.tracedSlots_eq regular check stays]
  cases types.excess m p with
  | some pair => rfl
  | none =>
    apply mapM_eq_ok
    intro a member
    rw [f.visited_eq] at member
    obtain ⟨k, place, rfl⟩ := List.mem_map.1 member
    rw [Memory.readWord, if_pos (f.holds_place regular (f.followed_le _) place)]

end

end Framed

namespace Outline

variable {types : TypeTable} {m m' : Memory} {p p' count : Nat} {d : Descriptor}

/-- The count of an outline is what the count word says. -/
theorem count_eq (regular : m.Regular) (o : Outline types m p d count) :
    d.CountFits (fun k => m.word (blockOf p + k)) (m.header (blockOf p)).size ∧
      count = d.elements fun k => m.word (blockOf p + k) := by
  have below := o.lt regular
  have low := o.low
  refine (Descriptor.tracedCount_eq_ok low o.sound o.fixed (by simp only [blockOf] at *; omega) fun k fits => ?_).1 o.counted
  exact Memory.holds_sub regular o.inside k wordSize fits

theorem elements_le (regular : m.Regular) (o : Outline types m p d count) :
    d.fixedSize + count * wordSize ≤ (m.header (blockOf p)).size := by
  obtain ⟨fits, same⟩ := o.count_eq regular
  rw [same]
  exact Descriptor.elements_le o.sound o.fixed fits

theorem bounds (regular : m.Regular) (o : Outline types m p d count) {k : Nat} (member : k ∈ d.places count) :
    16 ≤ k ∧ k + wordSize ≤ headerSize + (m.header (blockOf p)).size ∧ wordSize ∣ k :=
  Descriptor.places_bounds o.sound (o.elements_le regular) member

theorem holds_place (regular : m.Regular) (o : Outline types m p d count) {k : Nat} (member : k ∈ d.places count) :
    m.holds (blockOf p + k) wordSize = true :=
  Memory.holds_sub regular o.inside k wordSize (o.bounds regular member).2.1

theorem slots_eq (regular : m.Regular) (o : Outline types m p d count) :
    d.fieldSlots p ++ d.elementSlots p count = (d.places count).map (blockOf p + ·) :=
  o.toFramed.slots_eq regular (o.elements_le regular)

theorem tracedSlots_eq (regular : m.Regular) (o : Outline types m p d count) {s : ObjectState}
    (check : (m.header (blockOf p)).check = .ok s) (stays : s ≠ .forwarded) :
    types.tracedSlots m p = .ok ((d.places count).map (blockOf p + ·)) := by
  rw [← o.slots_eq regular]
  simp only [TypeTable.tracedSlots, o.shape_eq regular check stays, bind, Except.bind, o.counted]
  rfl

/-- An outline stays where the type, the size and all bytes but the traced ones stay. -/
theorem congr (regular : m.Regular) (regular' : m'.Regular) (o : Outline types m p d count) (low : headerSize ≤ p')
    (inside : m'.holds (blockOf p') (headerSize + (m.header (blockOf p)).size) = true)
    (type : (m'.header (blockOf p')).typeId = (m.header (blockOf p)).typeId)
    (size : (m'.header (blockOf p')).size = (m.header (blockOf p)).size)
    (bytes : ∀ i, 16 ≤ i → i < headerSize + (m.header (blockOf p)).size →
      (∀ k ∈ d.places count, i < k ∨ k + wordSize ≤ i) → m'.byte (blockOf p' + i) = m.byte (blockOf p + i)) :
    Outline types m' p' d count := by
  refine ⟨o.toFramed.congr low inside type size, ?_⟩
  rw [size]
  have below' := Memory.holds_lt regular' inside
  obtain ⟨fits, counted⟩ := o.count_eq regular
  have same := o.toFramed.count_congr regular regular' inside (o.elements_le regular) bytes
  obtain ⟨elements, fitting⟩ := Descriptor.elements_congr (m.header (blockOf p)).size
    (fun k => m.word (blockOf p + k)) (fun k => m'.word (blockOf p' + k)) same
  refine (Descriptor.tracedCount_eq_ok low o.sound o.fixed (by simp only [blockOf] at *; omega) fun k room => ?_).2 ?_
  · exact Memory.holds_sub regular' inside k wordSize room
  · exact ⟨fitting.2 fits, counted.trans elements.symm⟩

/-- Where every byte of an object stays, all that is read from it stays. -/
theorem stay (regular : m.Regular) (o : Outline types m p d count) (shape : m.SameShape m')
    (same : ∀ i, i < headerSize + (m.header (blockOf p)).size → m'.byte (blockOf p + i) = m.byte (blockOf p + i)) :
    Outline types m' p d count ∧ m'.header (blockOf p) = m.header (blockOf p) ∧
      ∀ k, k + wordSize ≤ headerSize + (m.header (blockOf p)).size → m'.word (blockOf p + k) = m.word (blockOf p + k) := by
  have regular' := regular.of_sameShape shape
  have front := o.holds_header regular
  have header : m'.header (blockOf p) = m.header (blockOf p) :=
    Memory.header_stay regular shape front fun i lt => same i (by omega)
  refine ⟨?_, header, fun k fits => ?_⟩
  · exact o.congr regular regular' o.low (shape.holds _ _ ▸ o.inside) (by rw [header]) (by rw [header])
      fun i _ last _ => same i last
  · have readable := Memory.holds_sub regular o.inside k wordSize fits
    apply Memory.word_stay regular shape readable
    intro i lt
    rw [Nat.add_assoc]
    exact same (k + i) (by omega)

/-- Only what the table says about the types matters. -/
theorem retype {types' : TypeTable} (o : Outline types m p d count)
    (same : types.get? (m.header (blockOf p)).typeId = some d → types'.get? (m.header (blockOf p)).typeId = some d) :
    Outline types' m p d count :=
  ⟨⟨o.low, o.inside, same o.type, o.sound, o.fixed⟩, o.counted⟩

end Outline

theorem check_of_readObject {m : Memory} {p : Nat} {h : Header} {s : ObjectState}
    (read : m.readObject p = .ok (h, s)) : h = m.header (blockOf p) ∧ h.check = .ok s := by
  obtain ⟨header, found, rest⟩ := bind_eq_ok.1 read
  have same : header = m.header (blockOf p) := by
    unfold Memory.readHeader at found
    split at found
    · injection found with same; exact same.symm
    · cases found
  cases check : header.check with
  | error e => rw [check] at rest; cases rest
  | ok state =>
    rw [check] at rest
    cases rest
    exact ⟨same, check⟩

/-- An object whose slots could be listed has an intact header, and has not moved. -/
theorem check_of_tracedSlots {types : TypeTable} {m : Memory} {p : Nat} {slots : List Nat}
    (listed : types.tracedSlots m p = .ok slots) :
    ∃ state, (m.header (blockOf p)).check = .ok state ∧ state ≠ .forwarded := by
  obtain ⟨⟨_, _⟩, shape, _⟩ := bind_eq_ok.1 listed
  obtain ⟨⟨header, state⟩, read, rest⟩ := bind_eq_ok.1 shape
  obtain ⟨rfl, check⟩ := check_of_readObject read
  refine ⟨state, check, fun moved => ?_⟩
  simp only [moved, if_true] at rest
  cases rest

/-- An object whose slots could be listed has an outline. -/
theorem outline_of_tracedSlots {types : TypeTable} {m : Memory} {p : Nat} {d : Descriptor} {slots : List Nat}
    (low : headerSize ≤ p) (inside : m.holds (blockOf p) (headerSize + (m.header (blockOf p)).size) = true)
    (type : types.get? (m.header (blockOf p)).typeId = some d) (sound : d.Sound)
    (fixed : d.fixedSize ≤ (m.header (blockOf p)).size) (listed : types.tracedSlots m p = .ok slots) :
    ∃ count, Outline types m p d count := by
  obtain ⟨⟨header, found⟩, shape, rest⟩ := bind_eq_ok.1 listed
  obtain ⟨count, counted, -⟩ := bind_eq_ok.1 rest
  obtain ⟨⟨header', state⟩, read, rest⟩ := bind_eq_ok.1 shape
  obtain ⟨rfl, check⟩ := check_of_readObject read
  have same : header = m.header (blockOf p) ∧ found = d := by
    by_cases moved : state = .forwarded
    · simp only [moved, if_true] at rest; cases rest
    · simp only [moved, if_false, TypeTable.get_eq_ok.2 type] at rest
      cases rest
      exact ⟨rfl, rfl⟩
  obtain ⟨rfl, rfl⟩ := same
  exact ⟨count, ⟨low, inside, type, sound, fixed⟩, counted⟩

end TracingHeap
