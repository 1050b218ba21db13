import TracingHeap.Layout.Trace
import TracingHeap.Proofs.Computation

/-! Where the traced words of an object lie in its block.

A registered layout puts its words behind the first sixteen bytes of the header and inside the object,
each on its own. The last word of the header is not excluded: the end of a declared word is computed
modulo 2^64, so an offset just below it passes the check. -/

set_option autoImplicit false

namespace TracingHeap

/-- The place of a word in the block of an object, for its offset in the payload. -/
def placeOf (offset : Nat) : Nat := Word.wrap (headerSize + offset)

theorem slotAt_payloadOf {block offset : Nat} (small : block + placeOf offset < wordLimit) :
    slotAt (payloadOf block) offset = block + placeOf offset := by
  simp only [slotAt, payloadOf, placeOf, Word.wrap, headerSize, wordLimit] at *
  omega

namespace Descriptor

/-- The numbers of a layout are words. -/
structure IsWords (d : Descriptor) : Prop where
  fixedSize : d.fixedSize < wordLimit
  fields : ∀ field ∈ d.fields, field.offset < wordLimit
  region : ∀ region, d.region = some region → region.countOffset < wordLimit ∧ region.elementSize < wordLimit

theorem checkWord_eq_ok {role : WordRole} {offset fixedSize : Nat} : checkWord role offset fixedSize = .ok () ↔
    offset % wordSize = 0 ∧ Word.wrap (offset + wordSize) ≤ fixedSize := by
  unfold checkWord
  split
  · next odd => simp only [reduceCtorEq, false_iff, not_and]; exact fun even => absurd even odd
  · next even =>
    split
    · next outside => simp only [reduceCtorEq, false_iff, not_and]; exact fun _ => Nat.not_le_of_lt outside
    · next inside => exact ⟨fun _ => ⟨Decidable.of_not_not even, Nat.le_of_not_lt inside⟩, fun _ => rfl⟩

theorem checkFields_cons {fixedSize : Nat} {seen : List Nat} {field : Field} {rest : List Field} :
    checkFields fixedSize seen (field :: rest) = .ok () ↔
      (field.offset % wordSize = 0 ∧ Word.wrap (field.offset + wordSize) ≤ fixedSize) ∧ field.offset ∉ seen ∧
        checkFields fixedSize (field.offset :: seen) rest = .ok () := by
  simp only [checkFields, check_bind_eq_ok, guard_bind_eq_ok, checkWord_eq_ok]

-- By induction on the fields, for every list of offsets seen before them: a field joins that list before the
-- rest is checked.
/-- Fields pass the check if they are aligned, inside the fixed part, and at different offsets. -/
theorem checkFields_eq_ok {fixedSize : Nat} {seen : List Nat} {fields : List Field} :
    checkFields fixedSize seen fields = .ok () ↔
      (∀ field ∈ fields, field.offset % wordSize = 0 ∧ Word.wrap (field.offset + wordSize) ≤ fixedSize ∧
        field.offset ∉ seen) ∧ (fields.map Field.offset).Nodup := by
  induction fields generalizing seen with
  | nil => simp [checkFields]
  | cons field rest ih =>
    rw [checkFields_cons, ih, List.map_cons, List.nodup_cons]
    constructor
    · rintro ⟨⟨even, fits⟩, fresh, inside, distinct⟩
      refine ⟨fun other member => ?_, fun repeated => ?_, distinct⟩
      · rcases List.mem_cons.1 member with rfl | member
        · exact ⟨even, fits, fresh⟩
        · obtain ⟨even, fits, fresh⟩ := inside other member
          exact ⟨even, fits, fun old => fresh (List.mem_cons_of_mem _ old)⟩
      · obtain ⟨other, member, same⟩ := List.mem_map.1 repeated
        exact (inside other member).2.2 (same ▸ List.mem_cons_self)
    · rintro ⟨inside, once, distinct⟩
      obtain ⟨even, fits, fresh⟩ := inside field List.mem_cons_self
      refine ⟨⟨even, fits⟩, fresh, fun other member => ?_, distinct⟩
      obtain ⟨even, fits, fresh⟩ := inside other (List.mem_cons_of_mem _ member)
      refine ⟨even, fits, fun old => ?_⟩
      rcases List.mem_cons.1 old with same | old
      · exact once (List.mem_map.2 ⟨other, member, same⟩)
      · exact fresh old

/-- What a registered layout guarantees about the places of its words. -/
structure Sound (d : Descriptor) : Prop where
  traced : ∀ offset ∈ d.tracedOffsets, 16 ≤ placeOf offset ∧ placeOf offset + wordSize ≤ headerSize + d.fixedSize ∧
    wordSize ∣ placeOf offset
  nodup : (d.tracedOffsets.map placeOf).Nodup
  fixed : wordSize ∣ d.fixedSize
  count : ∀ region, d.region = some region → 16 ≤ placeOf region.countOffset ∧
    placeOf region.countOffset + wordSize ≤ headerSize + d.fixedSize ∧ wordSize ∣ placeOf region.countOffset ∧
    placeOf region.countOffset ∉ d.tracedOffsets.map placeOf
  element : ∀ region, d.region = some region →
    0 < region.elementSize ∧ (region.kind = .traced → region.elementSize = wordSize)

theorem checkRegion_eq_ok {d : Descriptor} {region : Region} : d.checkRegion region = .ok () ↔
    (region.countOffset % wordSize = 0 ∧ Word.wrap (region.countOffset + wordSize) ≤ d.fixedSize) ∧
      region.countOffset ∉ d.tracedOffsets ∧ 0 < region.elementSize ∧
      (region.kind = .traced → region.elementSize = wordSize) := by
  simp only [checkRegion, check_bind_eq_ok, guard_bind_eq_ok, guard_eq_ok, checkWord_eq_ok, Nat.pos_iff_ne_zero, ne_eq,
    not_and, Decidable.not_not]

theorem check_eq_ok {d : Descriptor} : d.check = .ok () ↔ d.fixedSize % wordSize = 0 ∧
    checkFields d.fixedSize [] d.fields = .ok () ∧ ∀ region, d.region = some region → d.checkRegion region = .ok () := by
  simp only [check, guard_bind_eq_ok, check_bind_eq_ok, ne_eq, Decidable.not_not]
  cases d.region with
  | none => simp [pure, Except.pure]
  | some region => simp

theorem place_bounds {offset fixedSize : Nat} (even : offset % wordSize = 0)
    (fits : Word.wrap (offset + wordSize) ≤ fixedSize) (small : fixedSize ≤ largestPayload) :
    16 ≤ placeOf offset ∧ placeOf offset + wordSize ≤ headerSize + fixedSize ∧ wordSize ∣ placeOf offset := by
  simp only [placeOf, Word.wrap, wordSize, headerSize, wordLimit, largestPayload] at *
  omega

theorem placeOf_inj {a b : Nat} (first : a < wordLimit) (second : b < wordLimit) (same : placeOf a = placeOf b) :
    a = b := by
  simp only [placeOf, Word.wrap, headerSize, wordLimit] at *
  omega

-- The check compares offsets, while a collector follows places. Offsets that are words and differ have places
-- that differ, so no slot is followed twice.
theorem sound_of_check {d : Descriptor} (ok : d.check = .ok ()) (words : d.IsWords)
    (small : d.fixedSize ≤ largestPayload) : d.Sound := by
  obtain ⟨even, fields, region⟩ := check_eq_ok.1 ok
  obtain ⟨inside, distinct⟩ := checkFields_eq_ok.1 fields
  have member (offset : Nat) (traced : offset ∈ d.tracedOffsets) : ∃ field ∈ d.fields, field.offset = offset := by
    obtain ⟨field, kept, same⟩ := List.mem_map.1 traced
    exact ⟨field, (List.mem_filter.1 kept).1, same⟩
  have isWord (offset : Nat) (traced : offset ∈ d.tracedOffsets) : offset < wordLimit := by
    obtain ⟨field, kept, rfl⟩ := member offset traced
    exact words.fields field kept
  have offsets : d.tracedOffsets.Nodup := distinct.sublist (List.filter_sublist.map Field.offset)
  constructor
  case traced =>
    intro offset traced
    obtain ⟨field, kept, rfl⟩ := member offset traced
    exact place_bounds (inside field kept).1 (inside field kept).2.1 small
  case nodup =>
    refine List.pairwise_map.2 (offsets.imp_of_mem ?_)
    intro a b first second different same
    exact different (placeOf_inj (isWord a first) (isWord b second) same)
  case fixed => exact Nat.dvd_of_mod_eq_zero even
  case count =>
    intro r found
    obtain ⟨⟨aligned, fits⟩, apart, -, -⟩ := checkRegion_eq_ok.1 (region r found)
    obtain ⟨low, high, whole⟩ := place_bounds aligned fits small
    refine ⟨low, high, whole, fun shared => apart ?_⟩
    obtain ⟨offset, traced, same⟩ := List.mem_map.1 shared
    exact placeOf_inj (isWord offset traced) (words.region r found).1 same ▸ traced
  case element =>
    intro r found
    exact (checkRegion_eq_ok.1 (region r found)).2.2

/-- The places of the elements of a region of references. -/
def elementPlaces (d : Descriptor) (count : Nat) : List Nat :=
  (List.range count).map fun i => headerSize + d.fixedSize + i * wordSize

/-- The places of the traced slots of an object with `count` traced elements, in the order of tracing. -/
def places (d : Descriptor) (count : Nat) : List Nat := d.tracedOffsets.map placeOf ++ d.elementPlaces count

theorem fieldSlots_eq {d : Descriptor} (sound : d.Sound) {block : Nat}
    (small : block + (headerSize + d.fixedSize) < wordLimit) :
    d.fieldSlots (payloadOf block) = (d.tracedOffsets.map placeOf).map (block + ·) := by
  rw [List.map_map]
  apply List.map_congr_left
  intro offset traced
  have bounds := sound.traced offset traced
  exact slotAt_payloadOf (by simp only [wordSize] at *; omega)

theorem elementSlots_eq {d : Descriptor} {block count size : Nat} (elements : d.fixedSize + count * wordSize ≤ size)
    (small : block + (headerSize + size) < wordLimit) :
    d.elementSlots (payloadOf block) count = (d.elementPlaces count).map (block + ·) := by
  unfold elementPlaces
  rw [List.map_map]
  apply List.map_congr_left
  intro i member
  have below := List.mem_range.1 member
  simp only [elementSlot, slotAt, payloadOf, Word.wrap, Function.comp_apply, headerSize, wordSize, wordLimit] at *
  omega

theorem places_bounds {d : Descriptor} (sound : d.Sound) {count size : Nat}
    (elements : d.fixedSize + count * wordSize ≤ size) {k : Nat} (member : k ∈ d.places count) :
    16 ≤ k ∧ k + wordSize ≤ headerSize + size ∧ wordSize ∣ k := by
  rcases List.mem_append.1 member with traced | element
  · obtain ⟨offset, declared, rfl⟩ := List.mem_map.1 traced
    have bounds := sound.traced offset declared
    exact ⟨bounds.1, by omega, bounds.2.2⟩
  · obtain ⟨i, below, rfl⟩ := List.mem_map.1 element
    have lt := List.mem_range.1 below
    have fixed := sound.fixed
    simp only [headerSize, wordSize] at *
    omega

theorem nodup_places {d : Descriptor} (sound : d.Sound) (count : Nat) : (d.places count).Nodup := by
  -- Declared words end inside the fixed part, and the elements begin behind it.
  refine List.nodup_append.2 ⟨sound.nodup, ?_, ?_⟩
  · refine List.pairwise_map.2 (List.nodup_range.imp ?_)
    intro i j different same
    simp only [wordSize] at same
    omega
  · intro a traced b element same
    obtain ⟨offset, declared, rfl⟩ := List.mem_map.1 traced
    obtain ⟨i, -, rfl⟩ := List.mem_map.1 element
    have bounds := sound.traced offset declared
    simp only [wordSize] at bounds
    omega

/-- The word that holds the number of elements is no traced slot. -/
theorem count_notMem_places {d : Descriptor} (sound : d.Sound) {region : Region} (found : d.region = some region)
    (count : Nat) : placeOf region.countOffset ∉ d.places count := by
  intro member
  obtain ⟨-, high, -, apart⟩ := sound.count region found
  rcases List.mem_append.1 member with traced | element
  · exact apart traced
  · obtain ⟨i, -, same⟩ := List.mem_map.1 element
    simp only [wordSize] at high
    omega

/-- The capacity is computed from the size, and of an array it comes out as the count. -/
theorem capacity_of_array {d : Descriptor} (sound : d.Sound) {region : Region} (found : d.region = some region)
    (count : Nat) : d.capacity region (d.fixedSize + count * region.elementSize) = count := by
  rw [capacity, Nat.add_sub_cancel_left, Nat.mul_div_cancel _ (sound.element region found).1]

/-- Elements have a size, so the count of an array that is not too large is a word. -/
theorem count_lt_wordLimit {d : Descriptor} (sound : d.Sound) {region : Region} (found : d.region = some region)
    {count : Nat} (small : d.fixedSize + count * region.elementSize ≤ largestPayload) : count < wordLimit := by
  have elements := Nat.le_mul_of_pos_right count (sound.element region found).1
  exact Nat.lt_of_le_of_lt (Nat.le_trans (Nat.le_trans elements (Nat.le_add_left _ _)) small) (by decide)

end Descriptor

end TracingHeap
