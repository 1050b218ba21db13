import Mathlib.Data.List.Nodup
import TracingHeap.Proofs.Layout.Outline
import TracingHeap.Proofs.Layout.Registration

/-! Tracing follows the declared layout.

The offsets that are followed are those of the traced fields and, behind the fixed part, those of the elements. They
are different words inside the object, and none of them is the count or a word declared as a scalar. -/

set_option autoImplicit false

namespace TracingHeap

/-- Two different offsets of words leave room for the lower one. -/
theorem apart_of_dvd {k k' : Nat} (aligned : wordSize ∣ k) (aligned' : wordSize ∣ k') (different : k ≠ k') :
    k + wordSize ≤ k' ∨ k' + wordSize ≤ k := by
  unfold wordSize at *
  omega

namespace Descriptor

variable {d : Descriptor} {m : Memory} {k k' n size p : Nat}

/-- The offsets of the words to follow in an object with `n` elements to follow. -/
def offsets (d : Descriptor) (n : Nat) : List Nat :=
  d.tracedOffsets ++ (List.range n).map fun i => d.fixedSize + i * wordSize

theorem mem_tracedOffsets : k ∈ d.tracedOffsets ↔ ∃ field ∈ d.fields, field.kind = .traced ∧ field.offset = k := by
  simp [tracedOffsets, and_assoc]

theorem mem_offsets : k ∈ d.offsets n ↔ k ∈ d.tracedOffsets ∨ ∃ i, i < n ∧ d.fixedSize + i * wordSize = k := by
  simp [offsets]

namespace Fitted

variable (fitted : d.Fitted)

include fitted

theorem traced_bounds (member : k ∈ d.tracedOffsets) : wordSize ∣ k ∧ k + wordSize ≤ d.fixedSize := by
  obtain ⟨field, declared, -, rfl⟩ := mem_tracedOffsets.1 member
  exact fitted.fields field declared

theorem offsets_bounds (room : d.fixedSize + n * wordSize ≤ size) (member : k ∈ d.offsets n) :
    wordSize ∣ k ∧ k + wordSize ≤ size := by
  rcases mem_offsets.1 member with traced | ⟨i, lt, rfl⟩
  · obtain ⟨aligned, fits⟩ := fitted.traced_bounds traced
    exact ⟨aligned, by omega⟩
  · refine ⟨Nat.dvd_add fitted.fixed (Nat.dvd_mul_left _ _), ?_⟩
    unfold wordSize at *
    omega

theorem nodup_offsets (n : Nat) : (d.offsets n).Nodup := by
  refine List.nodup_append.2 ⟨?fields, ?elements, ?between⟩
  case fields => exact fitted.distinct.sublist (List.filter_sublist.map Field.offset)
  case elements =>
    refine List.pairwise_map.2 (List.nodup_range.imp fun {i j} different same => ?_)
    unfold wordSize at same
    omega
  case between =>
    rintro a traced b element rfl
    obtain ⟨i, -, rfl⟩ := List.mem_map.1 element
    have fits := (fitted.traced_bounds traced).2
    unfold wordSize at fits
    omega

/-- No address of a slot wraps. -/
theorem slots_eq (room : d.fixedSize + n * wordSize ≤ size) (small : p + size < wordLimit) :
    d.fieldSlots p ++ d.elementSlots p n = (d.offsets n).map (p + ·) := by
  have slots : d.fieldSlots p ++ d.elementSlots p n = (d.offsets n).map (slotAt p) := by
    simp only [fieldSlots, elementSlots, offsets, List.map_append, List.map_map, Function.comp_def]
    rfl
  rw [slots]
  refine List.map_congr_left fun k member => Word.wrap_of_lt ?_
  have fits := (fitted.offsets_bounds room member).2
  omega

/-- A word of the fixed part that is no traced field is not touched. -/
theorem apart (aligned : wordSize ∣ k') (within : k' + wordSize ≤ d.fixedSize) (other : k' ∉ d.tracedOffsets)
    (member : k ∈ d.offsets n) : k + wordSize ≤ k' ∨ k' + wordSize ≤ k := by
  rcases mem_offsets.1 member with traced | ⟨i, -, rfl⟩
  · exact apart_of_dvd (fitted.traced_bounds traced).1 aligned fun same => other (same ▸ traced)
  · exact .inr (by omega)

/-- No two fields have one offset, so a scalar field is not also a traced one. -/
theorem scalar_notMem {field : Field} (declared : field ∈ d.fields) (scalar : field.kind = .scalar) :
    field.offset ∉ d.tracedOffsets := by
  intro member
  obtain ⟨other, declared', traced, same⟩ := mem_tracedOffsets.1 member
  have equal : other = field := List.inj_on_of_nodup_map fitted.distinct declared' declared same
  rw [equal, scalar] at traced
  cases traced

/-- The count word lies in the object where the layout says. -/
theorem place_count (low : headerSize ≤ p) (small : d.fixedSize ≤ largestPayload) {region : Region}
    (found : d.region = some region) : blockOf p + placeOf region.countOffset = p + region.countOffset := by
  have fits := (fitted.count region found).2.1
  simp only [placeOf, Word.wrap, blockOf, wordSize, headerSize, largestPayload, wordLimit] at *
  omega

end Fitted

theorem excess_eq_some {word : Nat → Nat} {count capacity : Nat} :
    d.excess word size = some (count, capacity) ↔ ∃ region, d.region = some region ∧
      count = word (placeOf region.countOffset) ∧ capacity = d.capacity region size ∧ capacity < count := by
  unfold excess
  cases d.region with
  | none => simp
  | some region =>
    simp only [Option.ite_none_right_eq_some, Option.some.injEq, Prod.mk.injEq, exists_eq_left']
    constructor
    · rintro ⟨large, rfl, rfl⟩
      exact ⟨rfl, rfl, large⟩
    · rintro ⟨rfl, rfl, large⟩
      exact ⟨large, rfl, rfl⟩

/-- The number of elements that the count word of the object at `p` gives, if they are to be followed. -/
def counted (d : Descriptor) (m : Memory) (p : Nat) : Nat :=
  match d.region with
  | none => 0
  | some region => if region.kind = .traced then m.word (p + region.countOffset) else 0

/-- The slots are those that the layout declares, for an object of `size` bytes at `p`. -/
structure Follows (d : Descriptor) (m : Memory) (p size : Nat) (slots : List Nat) : Prop where
  listed : slots = (d.fields.filter fun field => field.kind = .traced).map (fun field => p + field.offset) ++
    (List.range (d.counted m p)).map fun i => p + (d.fixedSize + i * wordSize)
  nodup : slots.Nodup
  aligned : ∀ a ∈ slots, a % wordSize = p % wordSize
  inside : ∀ a ∈ slots, p ≤ a ∧ a + wordSize ≤ p + size
  count : ∀ region, d.region = some region → ∀ a ∈ slots,
    a + wordSize ≤ p + region.countOffset ∨ p + region.countOffset + wordSize ≤ a
  scalars : ∀ field ∈ d.fields, field.kind = .scalar → ∀ a ∈ slots,
    a + wordSize ≤ p + field.offset ∨ p + field.offset + wordSize ≤ a
  /-- A region of scalars begins behind the fixed part. -/
  region : ∀ region, d.region = some region → region.kind = .scalar → ∀ a ∈ slots, a + wordSize ≤ p + d.fixedSize

theorem Fitted.follows (fitted : d.Fitted) (room : d.fixedSize + d.counted m p * wordSize ≤ size) :
    d.Follows m p size ((d.offsets (d.counted m p)).map (p + ·)) := by
  constructor
  case listed => simp only [offsets, tracedOffsets, List.map_append, List.map_map, Function.comp_def]
  case nodup => exact (fitted.nodup_offsets _).map fun _ _ same => Nat.add_left_cancel same
  all_goals simp only [List.forall_mem_map]
  case aligned =>
    intro k member
    have aligned := (fitted.offsets_bounds room member).1
    unfold wordSize at *
    omega
  case inside =>
    intro k member
    have fits := (fitted.offsets_bounds room member).2
    omega
  case count =>
    intro region found k member
    obtain ⟨aligned, within, other⟩ := fitted.count region found
    have apart := fitted.apart aligned within other member
    omega
  case scalars =>
    intro field declared scalar k member
    obtain ⟨aligned, within⟩ := fitted.fields field declared
    have apart := fitted.apart aligned within (fitted.scalar_notMem declared scalar) member
    omega
  case region =>
    intro region found scalar k member
    have none : d.counted m p = 0 := by simp [counted, found, scalar]
    rw [none] at member
    have fits := (fitted.offsets_bounds (Nat.le_of_eq (by rw [Nat.zero_mul, Nat.add_zero])) member).2
    omega

end Descriptor

namespace TypeTable

variable {types : TypeTable} {m : Memory} {p : Nat} {d : Descriptor} {s : ObjectState}

-- The proof of what the collectors do needs less than this: only places in the block, which may be in the header.
/-- An object of a registered type, whose declared words do not end beyond the last word, is traced by its layout: it
is refused if it has a region and its count is above the capacity, and otherwise its traced fields are listed in the
order of declaration and then the elements of a region of references in order. Each of these slots is a word of its
own inside the payload, aligned like it, and apart from the count and from everything declared as a scalar. -/
theorem tracing_follows_layout (grown : types.Grown) (regular : m.Regular) (low : headerSize ≤ p)
    (inside : m.holds (blockOf p) (headerSize + (m.header (blockOf p)).size) = true)
    (type : types.get? (m.header (blockOf p)).typeId = some d) (unwrapped : d.Unwrapped)
    (check : (m.header (blockOf p)).check = .ok s) (stays : s ≠ .forwarded)
    (fixed : d.fixedSize ≤ (m.header (blockOf p)).size) :
    (∀ count capacity, types.tracedSlots m p = .error (.corrupted p (.regionOverflow count capacity)) ↔
      ∃ region, d.region = some region ∧ count = m.word (p + region.countOffset) ∧
        capacity = ((m.header (blockOf p)).size - d.fixedSize) / region.elementSize ∧ capacity < count) ∧
    ((∀ region, d.region = some region →
        m.word (p + region.countOffset) ≤ ((m.header (blockOf p)).size - d.fixedSize) / region.elementSize) →
      ∃ slots, types.tracedSlots m p = .ok slots ∧ d.Follows m p (m.header (blockOf p)).size slots) := by
  have below := Memory.holds_lt regular inside
  have extent := Memory.holds_le regular inside
  have whole : blockOf p + headerSize = p := payloadOf_blockOf low
  have small : d.fixedSize ≤ largestPayload := by
    unfold Memory.largestArena largestPayload at *
    omega
  have fitted := Descriptor.fitted_of_check (grown.checked d (mem_of_get? type)).1 unwrapped
  have framed : Framed types m p d := ⟨low, inside, type, grown.checked.sound type small, fixed⟩
  have word (region : Region) (found : d.region = some region) :
      m.word (blockOf p + placeOf region.countOffset) = m.word (p + region.countOffset) := by
    rw [fitted.place_count low small found]
  rw [framed.tracedSlots_eq regular check stays, framed.excess_eq]
  constructor
  case left =>
    intro count capacity
    have overflows : d.excess (fun k => m.word (blockOf p + k)) (m.header (blockOf p)).size = some (count, capacity) ↔
        ∃ region, d.region = some region ∧ count = m.word (p + region.countOffset) ∧
          capacity = ((m.header (blockOf p)).size - d.fixedSize) / region.elementSize ∧ capacity < count := by
      refine Descriptor.excess_eq_some.trans (exists_congr fun region => and_congr_right fun found => ?_)
      rw [word region found, Descriptor.capacity]
    rw [← overflows]
    cases d.excess (fun k => m.word (blockOf p + k)) (m.header (blockOf p)).size with
    | none => simp
    | some pair => simp [Prod.ext_iff]
  case right =>
    intro fits
    have fits' : d.CountFits (fun k => m.word (blockOf p + k)) (m.header (blockOf p)).size := by
      intro region found
      simp only [word region found]
      exact fits region found
    have elements : d.elements (fun k => m.word (blockOf p + k)) = d.counted m p := by
      unfold Descriptor.elements Descriptor.counted
      cases found : d.region with
      | none => rfl
      | some region => simp only [word region found]
    have room := Descriptor.elements_le framed.sound fixed fits'
    rw [elements] at room
    rw [Descriptor.excess_eq_none.2 fits']
    refine ⟨_, rfl, ?_⟩
    have slots : types.visited m p = (d.offsets (d.counted m p)).map (p + ·) := by
      rw [framed.visited_eq, Descriptor.followed_of_fits fits', elements, ← framed.slots_eq regular room,
        fitted.slots_eq room (by omega)]
    rw [slots]
    exact fitted.follows room

end TypeTable

/-! ### Two objects of one type -/

/-- A scalar and a reference behind the count of further references. -/
def Descriptor.mixed : Descriptor := ⟨"Mixed", 24, [⟨16, .traced⟩, ⟨8, .scalar⟩], some (.references 0)⟩

theorem Descriptor.mixed_unwrapped : mixed.Unwrapped := by
  refine ⟨by decide, fun region found => ?_⟩
  cases found
  decide

/-- Two such objects with room for three further references. The first counts two and the second counts four. -/
def Memory.ofMixed : Memory :=
  let blank : Memory := { arenas := #[Arena.fresh 144] }
  let one := (blank.setHeader origin (.fresh ⟨1⟩ 48)).setWord (origin + 24) 2
  (one.setHeader (origin + 72) (.fresh ⟨1⟩ 48)).setWord (origin + 96) 4

theorem Memory.regular_ofMixed : ofMixed.Regular := by
  have blank : Memory.Regular { arenas := #[Arena.fresh 144] } := by
    refine ⟨fun k arena found => ?_, by decide⟩
    obtain ⟨lt, rfl⟩ := Array.getElem?_eq_some_iff.1 found
    obtain rfl : k = 0 := Nat.lt_one_iff.1 lt
    show 144 ≤ largestArena
    decide
  refine blank.of_sameShape ?_
  have header := (sameShape_setHeader { arenas := #[Arena.fresh 144] } origin (.fresh ⟨1⟩ 48)).trans
    (sameShape_setWord _ (origin + 24) 2)
  exact (header.trans (sameShape_setHeader _ _ _)).trans (sameShape_setWord _ _ _)

theorem TypeTable.grown_mixed : Grown { descriptors := #[.mixed], names := [("Mixed", ⟨1⟩)] } := by
  have registered : ({} : TypeTable).register .mixed =
      .ok (⟨1⟩, { descriptors := #[.mixed], names := [("Mixed", ⟨1⟩)] }) := by decide +kernel
  refine .register .empty ⟨by decide, by decide, fun region found => ?_⟩ registered
  cases found
  decide

/-- The first object is traced, and the second is refused. -/
theorem TypeTable.tracing_follows_layout_of_mixed : ∃ (types : TypeTable) (p q : Nat), types.Grown ∧
    (types.tracedSlots .ofMixed p = .ok [p + 16, p + 24, p + 32] ∧
      Descriptor.mixed.Follows .ofMixed p 48 [p + 16, p + 24, p + 32]) ∧
    types.tracedSlots .ofMixed q = .error (.corrupted q (.regionOverflow 4 3)) := by
  have traced := tracing_follows_layout (p := Memory.origin + 24) (d := .mixed) (s := .unmarked) grown_mixed
    Memory.regular_ofMixed (by decide) (by decide +kernel) (by decide +kernel) Descriptor.mixed_unwrapped
    (by decide +kernel) (by decide) (by decide +kernel)
  have refused := tracing_follows_layout (p := Memory.origin + 96) (d := .mixed) (s := .unmarked) grown_mixed
    Memory.regular_ofMixed (by decide) (by decide +kernel) (by decide +kernel) Descriptor.mixed_unwrapped
    (by decide +kernel) (by decide) (by decide +kernel)
  refine ⟨_, Memory.origin + 24, Memory.origin + 96, grown_mixed, ?traced, ?refused⟩
  case traced =>
    obtain ⟨slots, listed, follows⟩ := traced.2 fun region found => by
      cases found
      decide +kernel
    have size : (Memory.ofMixed.header (blockOf (Memory.origin + 24))).size = 48 := by decide +kernel
    have two : Descriptor.mixed.counted .ofMixed (Memory.origin + 24) = 2 := by decide +kernel
    rw [size] at follows
    have which : slots = [Memory.origin + 24 + 16, Memory.origin + 24 + 24, Memory.origin + 24 + 32] := by
      rw [follows.listed, two]
      rfl
    rw [which] at listed follows
    exact ⟨listed, follows⟩
  case refused => exact (refused.1 4 3).2 ⟨.references 0, rfl, by decide +kernel, by decide +kernel, by decide⟩

end TracingHeap
