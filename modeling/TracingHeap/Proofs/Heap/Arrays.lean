import TracingHeap.Proofs.Heap.Demand
import TracingHeap.Proofs.Heap.NewObjects
import TracingHeap.Proofs.Heap.Views

/-! New arrays.

The size of an array is computed with saturation, and a size that no object may have is refused. So the size of an
array that is handed out is exact, and there is memory for all its elements. -/

set_option autoImplicit false

namespace TracingHeap

/-- The payload of an array with `count` elements, in exact arithmetic. -/
abbrev Descriptor.arraySize (d : Descriptor) (r : Region) (count : Nat) : Nat := d.fixedSize + count * r.elementSize

/-- The traced slots of an array with `count` elements. -/
def Descriptor.arraySlots (d : Descriptor) (r : Region) (obj count : Nat) : List Nat :=
  d.fieldSlots obj ++ d.elementSlots obj (if r.kind = .traced then count else 0)

/-- The object is an array of `count` elements, and its references are null. -/
structure Memory.HasArray (m : Memory) (types : TypeTable) (d : Descriptor) (r : Region) (count obj : Nat) : Prop where
  size : m.payloadSize obj = d.arraySize r count
  room : m.holds (blockOf obj) (footprint (d.arraySize r count)) = true
  intact : m.readObject obj = .ok (m.header (blockOf obj), .unmarked)
  counted : m.readWord (slotAt obj r.countOffset) = .ok count
  traced : types.tracedSlots m obj = .ok (d.arraySlots r obj count)
  null : ∀ a ∈ d.arraySlots r obj count, m.readWord a = .ok 0

namespace Memory

variable {m : Memory} {types : TypeTable} {block count : Nat} {id : TypeId} {d : Descriptor} {r : Region}

/-- A new object whose words are zero, except for the count, is an array. -/
theorem hasArray_of_words (regular : m.Regular) (small : d.fixedSize + count * r.elementSize ≤ largestPayload)
    (room : m.holds block (footprint (d.fixedSize + count * r.elementSize)) = true) {forward : Nat}
    (header : m.header block = { Header.fresh id (d.fixedSize + count * r.elementSize) with forward })
    (word : ∀ k, 16 ≤ k → wordSize ∣ k → k + wordSize ≤ headerSize + (d.fixedSize + count * r.elementSize) →
      m.word (block + k) = patch (placeOf r.countOffset) count (fun _ => 0) k)
    (type : types.get? id = some d) (sound : d.Sound) (region : d.region = some r) :
    m.HasArray types d r count (payloadOf block) := by
  rw [← blockOf_payloadOf block] at header room word
  generalize payloadOf_eq : payloadOf block = p at *
  have low : headerSize ≤ p := payloadOf_eq ▸ Nat.le_add_left _ _
  obtain ⟨first, last, aligned, -⟩ := sound.count r region
  have whole : m.holds (blockOf p) (headerSize + (d.fixedSize + count * r.elementSize)) = true :=
    holds_of_range regular room (Nat.le_refl _) (Nat.add_le_add_left (le_footprint small) _)
  have below := holds_lt regular whole
  have size : (m.header (blockOf p)).size = d.fixedSize + count * r.elementSize := by rw [header]; rfl
  have check : (m.header (blockOf p)).check = .ok .unmarked := by
    rw [header]
    exact Header.check_eq_ok.2 ⟨rfl, rfl⟩
  have framed : Framed types m p d := by
    refine ⟨low, ?_, ?_, sound, ?_⟩ <;> rw [header]
    · exact whole
    · exact type
    · exact Nat.le_add_right _ _
  have address : slotAt p r.countOffset = blockOf p + placeOf r.countOffset :=
    Descriptor.slotAt_count low sound (Nat.le_add_right _ (count * r.elementSize)) (by
      simp only [blockOf] at below
      omega) region
  have place : m.word (blockOf p + placeOf r.countOffset) = count := by
    rw [word _ first aligned (by omega), patch, if_pos rfl]
  have fits : d.CountFits (fun k => m.word (blockOf p + k)) (m.header (blockOf p)).size := by
    intro r' region'
    cases region.symm.trans region'
    rw [size, Descriptor.capacity_of_array sound region]
    exact Nat.le_of_eq place
  have elements : d.elements (fun k => m.word (blockOf p + k)) = if r.kind = .traced then count else 0 := by
    simp only [Descriptor.elements, region, place]
  have fit := Descriptor.elements_le framed.sound framed.fixed fits
  rw [elements] at fit
  have slots := framed.slots_eq regular fit
  constructor
  case size => exact size
  case room => exact room
  case intact => exact framed.readObject_eq regular check
  case counted => rw [address, readWord, if_pos (holds_sub regular whole _ _ (by omega)), place]
  case traced =>
    rw [framed.tracedSlots_eq regular check (by decide), framed.excess_eq, Descriptor.excess_eq_none.2 fits,
      framed.visited_eq, Descriptor.followed_of_fits fits, elements, ← slots, Descriptor.arraySlots]
  case null =>
    intro a member
    rw [Descriptor.arraySlots, slots] at member
    obtain ⟨k, traced, rfl⟩ := List.mem_map.1 member
    obtain ⟨above, within, aligned'⟩ := framed.bounds fit traced
    rw [size] at within
    rw [readWord, if_pos (framed.holds_place regular fit traced), word k above aligned' within, patch, if_neg]
    rintro rfl
    exact Descriptor.count_notMem_places sound region _ traced

/-- The count word of a new object can be written, and the object is an array then. -/
theorem hasArray_fresh (regular : m.Regular) (small : d.fixedSize + count * r.elementSize ≤ largestPayload)
    (room : m.holds block (footprint (d.fixedSize + count * r.elementSize)) = true) (type : types.get? id = some d)
    (sound : d.Sound) (region : d.region = some r) :
    let new := m.fresh block id (d.fixedSize + count * r.elementSize)
    new.holds (slotAt (payloadOf block) r.countOffset) wordSize = true ∧
      (new.setWord (slotAt (payloadOf block) r.countOffset) count).HasArray types d r count (payloadOf block) := by
  intro new
  have shape := sameShape_fresh m block id (d.fixedSize + count * r.elementSize)
  have regular' : new.Regular := regular.of_sameShape shape
  have room' : new.holds block (footprint (d.fixedSize + count * r.elementSize)) = true := (shape.holds ..).trans room
  have whole : new.holds block (headerSize + (d.fixedSize + count * r.elementSize)) = true :=
    holds_of_range regular' room' (Nat.le_refl _) (Nat.add_le_add_left (le_footprint small) _)
  have inHeader : new.holds block headerSize = true :=
    holds_of_range regular' whole (Nat.le_refl _) (Nat.add_le_add_left (Nat.le_add_right _ _) _)
  have below := holds_lt regular' whole
  obtain ⟨first, last, aligned, -⟩ := sound.count r region
  have isWord := Descriptor.count_lt_wordLimit sound region small
  have inWord : new.holds (block + placeOf r.countOffset) wordSize = true := holds_sub regular' whole _ _ (by omega)
  have address : slotAt (payloadOf block) r.countOffset = block + placeOf r.countOffset := slotAt_payloadOf (by omega)
  rw [address]
  have set := sameShape_setWord new (block + placeOf r.countOffset) count
  have header := header_stay_front regular' set inHeader fun i lt =>
    byte_setWord_of_outside count inWord (.inl (by omega))
  rw [header_fresh regular room small] at header
  refine ⟨inWord, hasArray_of_words (regular'.of_sameShape set) small ((set.holds ..).trans room') header ?_ type sound
    region⟩
  intro k above aligned' within
  rw [patch]
  split
  · next same => rw [same, word_setWord inWord, Nat.mod_eq_of_lt isWord]
  · next other =>
    rw [word_setWord_of_outside regular' inWord (holds_sub regular' whole k wordSize within)
      (by unfold wordSize at *; omega)]
    exact word_fresh regular room small above aligned' within

end Memory

variable {w w' : World} {id : TypeId} {d : Descriptor} {r : Region} {count obj : Nat}

/-- A collection that a request has waited for leaves the books in order. -/
theorem World.Prepared.books {w₁ : World} {size : Nat} (prepared : w.Prepared w₁ size) (books : w.Books) :
    w₁.Books ∧ w₁.heap.types = w.heap.types := by
  rcases prepared with ⟨-, report, collected⟩ | ⟨-, rfl⟩
  · obtain ⟨e, m, ran, rfl⟩ := Heap.runCollection_eq_ok collected
    exact ⟨books.afterCollection ran, rfl⟩
  · exact ⟨books, rfl⟩

namespace Heap

theorem payloadSize_eq {state : ObjectState} (owns : w.heap.contains obj = true)
    (intact : w.memory.readObject obj = .ok (w.memory.header (blockOf obj), state)) :
    payloadSize obj w = .ok (w.memory.payloadSize obj) w := by
  have read : w.heap.header w.memory obj = .ok (w.memory.header (blockOf obj)) := by
    simp only [header, owns, intact]
    rfl
  simp only [payloadSize, look, read, bind, Except.bind]
  rfl

/-- An array is an object of its size, in which the count is stored. -/
theorem allocateArray_eq (registered : w.heap.types.get? id = some d) (region : d.region = some r) :
    allocateArray id count w = (do
      let obj ← allocate id (Word.saturate (count * r.elementSize))
      access (Access.storeWord (slotAt obj r.countOffset) count)
      return obj) w := by
  unfold allocateArray
  rw [run_bind (requireType_ok registered)]
  simp only [region]

/-- A product that has been cut off at the last word is too large for an object. -/
theorem saturate_eq_of_small {fixed bytes : Nat} (small : fixed + Word.saturate bytes ≤ largestPayload) :
    Word.saturate bytes = bytes := by
  unfold Word.saturate wordLimit largestPayload at *
  omega

theorem healthy_of_allocateArray (registered : w.heap.types.get? id = some d) (region : d.region = some r)
    (ran : allocateArray id count w = .ok obj w') : w.heap.poisoned = none := by
  rw [allocateArray_eq registered region] at ran
  cases served : allocate id (Word.saturate (count * r.elementSize)) w with
  | error x w₁ => cases ran.symm.trans (run_bind_error served)
  | ok p w₁ => exact (allocate_eq_ok served).1

/-- What a request for an array has done that is served. -/
theorem allocateArray_eq_ok (books : w.Books) (registered : w.heap.types.get? id = some d) (region : d.region = some r)
    (ran : allocateArray id count w = .ok obj w') :
    d.arraySize r count ≤ largestPayload ∧
    (∃ w₁ e, w.closed.Prepared w₁ (footprint (d.arraySize r count)) ∧
      w₁.heap.collector.engine.allocate (footprint (d.arraySize r count)) = some (blockOf obj, e)) ∧
    w'.memory.HasArray w'.heap.types d r count obj ∧
    ((w'.heap.strategy = .copying → 0 < d.arraySize r count) → w'.heap.contains obj = true) := by
  rw [allocateArray_eq registered region] at ran
  cases served : allocate id (Word.saturate (count * r.elementSize)) w with
  | error x w₁ => cases ran.symm.trans (run_bind_error served)
  | ok p w₂ =>
    rw [run_bind served] at ran
    obtain ⟨healthy, d', registered', small⟩ := allocate_eq_ok served
    cases registered.symm.trans registered'
    obtain ⟨w₁, block, e, prepared, allocated, obtained⟩ := allocate_prepared registered served
    have bytes := saturate_eq_of_small small
    rw [bytes] at served small prepared allocated obtained
    obtain ⟨books', types⟩ := prepared.books books.close
    have type : w₁.heap.types.get? id = some d := types ▸ registered
    have sound := books'.types.sound type (Nat.le_trans (Nat.le_add_right _ _) small)
    have large : headerSize ≤ footprint (d.fixedSize + count * r.elementSize) :=
      Nat.le_trans (Nat.le_add_right _ _) (le_footprint small)
    have room := (Engine.held_of_allocate books'.ledger books'.regular large allocated).1
    cases served.symm.trans (allocate_fresh healthy registered small books'.regular room obtained)
    obtain ⟨inside, array⟩ := Memory.hasArray_fresh books'.regular small room type sound region
    cases ran.symm.trans (run_bind (access_ok (Access.guarded_ok inside)))
    refine ⟨small, ⟨w₁, e, prepared, by rw [blockOf_payloadOf]; exact allocated⟩, array, fun full => ?_⟩
    refine Engine.owns_of_allocate books'.ledger books'.regular large allocated fun moves => ?_
    have payload := full moves
    have spans := le_footprint small
    simp only [Descriptor.arraySize] at payload
    omega

theorem saturate_add_saturate (fixed bytes : Nat) :
    Word.saturate (fixed + Word.saturate bytes) = Word.saturate (fixed + bytes) := by
  unfold Word.saturate wordLimit
  omega

/-- A request for an array that is too large is refused, also where the product or the sum is not a word. -/
theorem allocateArray_large (healthy : w.heap.poisoned = none) (registered : w.heap.types.get? id = some d)
    (region : d.region = some r) (large : largestPayload < d.arraySize r count) :
    allocateArray id count w = refuse (Word.saturate (d.arraySize r count)) w.closed := by
  have large' : ¬ d.fixedSize + Word.saturate (count * r.elementSize) ≤ largestPayload := by
    intro small
    rw [saturate_eq_of_small small] at small
    exact absurd large (Nat.not_lt.2 small)
  have refused := allocate_large healthy registered large'
  rw [saturate_add_saturate] at refused
  rw [allocateArray_eq registered region]
  exact run_bind_error refused

/-- An array has a payload, since its count lies in it, unless the end of the count word has wrapped. -/
theorem arraySize_pos (checked : w.heap.types.Checked) (registered : w.heap.types.get? id = some d)
    (region : d.region = some r) (unwrapped : r.countOffset + wordSize < wordLimit) (count : Nat) :
    0 < d.arraySize r count := by
  obtain ⟨-, -, regions⟩ := Descriptor.check_eq_ok.1 (checked d (TypeTable.mem_of_get? registered)).1
  obtain ⟨⟨-, fits⟩, -⟩ := Descriptor.checkRegion_eq_ok.1 (regions r region)
  rw [Word.wrap_of_lt unwrapped] at fits
  exact Nat.lt_of_lt_of_le (Nat.lt_of_lt_of_le (by decide) (Nat.le_add_left wordSize _))
    (Nat.le_trans fits (Nat.le_add_right _ _))

-- Nothing is asked of what stands in the memory or in the registries: the program may have written anything.
/-- In every state of a heap, an array that a request is answered with has exactly the size of its fixed part and its
elements, its count word holds the count, and tracing it lists the traced fields and the counted references, all of them
null. The collector has been asked for a block of that size, rounded up. The heap tells the size of the array, unless it
moves objects and this one has no payload, which takes a count word that wraps. What is too large in exact arithmetic is
refused and poisons the heap. -/
theorem allocateArray_exact (reached : Reached w) (registered : w.heap.types.get? id = some d)
    (region : d.region = some r) :
    (∀ obj w', allocateArray id count w = .ok obj w' →
      (d.arraySize r count ≤ largestPayload ∧
        footprint (d.arraySize r count) = (headerSize + d.arraySize r count + 7) / wordSize * wordSize) ∧
      (∃ w₁ e, w.closed.Prepared w₁ (footprint (d.arraySize r count)) ∧
        w₁.heap.collector.engine.allocate (footprint (d.arraySize r count)) = some (blockOf obj, e)) ∧
      w'.memory.HasArray w'.heap.types d r count obj ∧
      ((w'.heap.strategy = .copying → 0 < d.arraySize r count) →
        payloadSize obj w' = .ok (d.arraySize r count) w') ∧
      (r.countOffset + wordSize < wordLimit → 0 < d.arraySize r count)) ∧
    (w.heap.poisoned = none → largestPayload < d.arraySize r count →
      ∃ e w', e = .outOfMemory w.heap.strategy (Word.saturate (d.arraySize r count)) w.heap.availableBytes ∧
        allocateArray id count w = .error (.violation e) w' ∧ w'.heap.poisoned = some e) := by
  constructor
  case left =>
    intro obj w' ran
    have books := reached.orderly (healthy_of_allocateArray registered region ran)
    obtain ⟨small, block, array, owns⟩ := allocateArray_eq_ok books registered region ran
    refine ⟨⟨small, footprint_eq small⟩, block, array, fun full => ?_, fun unwrapped =>
      arraySize_pos books.types registered region unwrapped count⟩
    rw [← array.size]
    exact payloadSize_eq (owns full) array.intact
  case right =>
    intro healthy large
    refine ⟨_, _, rfl, allocateArray_large healthy registered region large, ?_⟩
    show (w.heap.poisoned <|> some _) = _
    rw [healthy]
    rfl

/-- An array of three references takes the place of one that the program has filled and dropped. One whose bytes exceed
the last word, so that they would be eight modulo 2^64, is refused. -/
theorem allocateArray_exact_of_three : ∃ w obj w', Reached w ∧ w.heap.types.get? ⟨1⟩ = some .references ∧
    allocateArray ⟨1⟩ 3 w = .ok obj w' ∧ payloadSize obj w' = .ok 32 w' ∧
    w'.memory.HasArray w'.heap.types .references (.references 0) 3 obj ∧
    ∃ e w', allocateArray ⟨1⟩ 2305843009213693952 w = .error (.violation e) w' ∧ w'.heap.poisoned = some e := by
  have ran : ((World.play (fun w _ => w.heap.poisoned = none) { mode := .stress, heapSize := 4096 } 1
      [.call (.register .references Descriptor.references_isWords), .call (.allocateArray ⟨1⟩ 2),
        .writeWord (Memory.origin + 24) 0 7, .writeWord (Memory.origin + 24) 16 9]).any fun w =>
      w.heap.types.get? ⟨1⟩ = some .references ∧ w.heap.poisoned = none ∧ ¬ Fails (allocateArray ⟨1⟩ 3 w)) = true := by
    decide +kernel
  obtain ⟨w, played, shown⟩ := (Option.any_eq_true _ _).1 ran
  obtain ⟨registered, healthy, served⟩ := of_decide_eq_true shown
  obtain ⟨obj, w', served⟩ := exists_of_not_fails served
  have reached := Reached.of_play played
  obtain ⟨-, -, array, told, -⟩ := (allocateArray_exact reached registered rfl).1 obj w' served
  obtain ⟨e, w'', -, refused, poisoned⟩ := (allocateArray_exact reached registered rfl).2 healthy
    (by decide : largestPayload < Descriptor.arraySize .references (.references 0) 2305843009213693952)
  exact ⟨w, obj, w', reached, registered, served, told fun _ => by decide, array, e, w'', refused, poisoned⟩

end Heap

/-- A type without payload whose count word lies in front of the object, where its end has wrapped. -/
def Descriptor.headless : Descriptor := ⟨"Headless", 0, [], some (.references 18446744073709551608)⟩

theorem Descriptor.headless_isWords : headless.IsWords :=
  ⟨by decide, by decide, fun r region => by cases region; decide⟩

/-- A heap that moves its objects hands out an empty array of such a type, and does not know it then. -/
theorem Heap.allocateArray_loses_headless : ∃ w obj w', Reached w ∧ w.heap.types.get? ⟨1⟩ = some .headless ∧
    allocateArray ⟨1⟩ 0 w = .ok obj w' ∧ payloadSize obj w' = .error (.corrupted obj .danglingReference) w' := by
  have ran : ((World.play (fun w _ => w.heap.poisoned = none) { strategy := .copying, heapSize := 4096 } 0
      [.call (.register .headless Descriptor.headless_isWords)]).any fun w =>
      w.heap.types.get? ⟨1⟩ = some .headless ∧
        w.onSuccess (allocateArray ⟨1⟩ 0) fun obj w' => w'.heap.contains obj = false) = true := by
    decide +kernel
  obtain ⟨w, played, shown⟩ := (Option.any_eq_true _ _).1 ran
  obtain ⟨registered, served⟩ := of_decide_eq_true shown
  obtain ⟨obj, w', ran, unknown⟩ := World.onSuccess_eq_true.1 served
  refine ⟨w, obj, w', Reached.of_play played, registered, ran, ?_⟩
  simp only [payloadSize, look, World.header_eq_error (of_decide_eq_true unknown), bind, Except.bind]

end TracingHeap
