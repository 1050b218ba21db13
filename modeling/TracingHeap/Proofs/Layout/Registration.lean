import TracingHeap.Layout.TypeTable
import TracingHeap.Proofs.Layout.Places

/-! What registration guarantees.

Every type in a table has passed the check of its layout. The check computes the ends of the declared words modulo
2^64. Where none of them leaves the range, it is exact: the words are aligned and lie inside the fixed part, and no
two of them overlap that may not. -/

set_option autoImplicit false

namespace TracingHeap

/-- Every type has passed the check, and its numbers are words. -/
def TypeTable.Checked (t : TypeTable) : Prop := ∀ d ∈ t.descriptors, d.check = .ok () ∧ d.IsWords

theorem TypeTable.mem_of_get? {t : TypeTable} {id : TypeId} {d : Descriptor} (found : t.get? id = some d) :
    d ∈ t.descriptors := by
  unfold get? at found
  split at found
  · cases found
  · exact Array.mem_of_getElem? found

theorem TypeTable.Checked.sound {t : TypeTable} (checked : t.Checked) {id : TypeId} {d : Descriptor}
    (found : t.get? id = some d) (small : d.fixedSize ≤ largestPayload) : d.Sound := by
  obtain ⟨ok, words⟩ := checked d (mem_of_get? found)
  exact Descriptor.sound_of_check ok words small

theorem TypeTable.Checked.register {t t' : TypeTable} (checked : t.Checked) {d : Descriptor} (words : d.IsWords)
    {id : TypeId} (registered : t.register d = .ok (id, t')) : t'.Checked := by
  obtain ⟨-, ok, -, -, rfl⟩ := register_eq_ok.1 registered
  intro other member
  rcases Array.mem_push.1 member with old | rfl
  · exact checked other old
  · exact ⟨ok, words⟩

/-- The index by names agrees with the numbering, and no two types have one name. -/
structure TypeTable.Indexed (t : TypeTable) : Prop where
  nodup : (t.descriptors.toList.map Descriptor.name).Nodup
  lookup : ∀ (name : String) (id : TypeId), t.lookup name = some id ↔
    ∃ (i : Nat) (d : Descriptor), t.descriptors[i]? = some d ∧ d.name = name ∧ id = ⟨UInt32.ofNat (i + 1)⟩

namespace TypeTable.Indexed

variable {t t' : TypeTable}

theorem empty : Indexed {} := ⟨.nil, fun name id => by simp [TypeTable.lookup]⟩

theorem lookup_eq_none (indexed : t.Indexed) {name : String} :
    t.lookup name = none ↔ ∀ d ∈ t.descriptors, d.name ≠ name := by
  constructor
  · intro fresh d member same
    obtain ⟨i, found⟩ := Array.mem_iff_getElem?.1 member
    cases fresh.symm.trans ((indexed.lookup name _).2 ⟨i, d, found, same, rfl⟩)
  · intro fresh
    refine Option.eq_none_iff_forall_ne_some.2 fun id taken => ?_
    obtain ⟨i, d, found, same, -⟩ := (indexed.lookup name id).1 taken
    exact fresh d (Array.mem_of_getElem? found) same

theorem register (indexed : t.Indexed) {d : Descriptor} {id : TypeId} (registered : t.register d = .ok (id, t')) :
    t'.Indexed := by
  obtain ⟨-, -, fresh, rfl, rfl⟩ := register_eq_ok.1 registered
  have absent := indexed.lookup_eq_none.1 fresh
  constructor
  case nodup =>
    rw [Array.toList_push, List.map_append, List.map_singleton]
    refine List.nodup_append.2 ⟨indexed.nodup, List.pairwise_singleton .., fun name old _ new => ?_⟩
    obtain ⟨other, member, rfl⟩ := List.mem_map.1 old
    rw [List.mem_singleton.1 new]
    exact absent other (Array.mem_toList_iff.1 member)
  case lookup =>
    intro name id
    simp only [TypeTable.lookup, List.lookup_cons, Array.getElem?_push]
    by_cases same : name = d.name
    · -- The new type alone has its name.
      subst same
      simp only [beq_self_eq_true, Option.some.injEq]
      constructor
      · rintro rfl
        exact ⟨_, d, if_pos rfl, rfl, rfl⟩
      · rintro ⟨i, other, found, called, rfl⟩
        split at found
        · next last => rw [last]; rfl
        · exact absurd called (absent other (Array.mem_of_getElem? found))
    · -- Another name is in the index if it was before.
      simp only [beq_false_of_ne same]
      refine (indexed.lookup name id).trans (exists_congr fun i => exists_congr fun other => ?_)
      refine and_congr_left fun called => ?_
      split
      · next last =>
        subst last
        simp only [Array.getElem?_size, reduceCtorEq, Option.some.injEq, false_iff]
        rintro rfl
        exact same called.1.symm
      · rfl

end TypeTable.Indexed

/-- Tables that registering and closing make of the empty one. -/
inductive TypeTable.Grown : TypeTable → Prop
  | empty : Grown {}
  | register {t t' : TypeTable} {d : Descriptor} {id : TypeId} (grown : Grown t) (words : d.IsWords)
    (registered : t.register d = .ok (id, t')) : Grown t'
  | close {t : TypeTable} (grown : Grown t) : Grown t.close

theorem TypeTable.Grown.checked {t : TypeTable} (grown : t.Grown) : t.Checked := by
  induction grown with
  | empty => exact fun d member => absurd member (Array.not_mem_empty d)
  | register _ words registered checked => exact checked.register words registered
  | close _ checked => exact checked

theorem TypeTable.Grown.indexed {t : TypeTable} (grown : t.Grown) : t.Indexed := by
  induction grown with
  | empty => exact .empty
  | register _ _ registered indexed => exact indexed.register registered
  | close _ indexed => exact ⟨indexed.nodup, indexed.lookup⟩

namespace Descriptor

variable {d : Descriptor}

/-- The ends of the declared words are words. -/
structure Unwrapped (d : Descriptor) : Prop where
  fields : ∀ field ∈ d.fields, field.offset + wordSize < wordLimit
  count : ∀ region, d.region = some region → region.countOffset + wordSize < wordLimit

/-- The declared words are aligned and lie inside the fixed part, no two fields are the same word, and the count is
no traced field. -/
structure Fitted (d : Descriptor) : Prop where
  fixed : wordSize ∣ d.fixedSize
  fields : ∀ field ∈ d.fields, wordSize ∣ field.offset ∧ field.offset + wordSize ≤ d.fixedSize
  distinct : (d.fields.map Field.offset).Nodup
  count : ∀ region, d.region = some region → wordSize ∣ region.countOffset ∧
    region.countOffset + wordSize ≤ d.fixedSize ∧ region.countOffset ∉ d.tracedOffsets
  element : ∀ region, d.region = some region →
    0 < region.elementSize ∧ (region.kind = .traced → region.elementSize = wordSize)

theorem fitted_of_check (ok : d.check = .ok ()) (unwrapped : d.Unwrapped) : d.Fitted := by
  obtain ⟨even, checked, regions⟩ := check_eq_ok.1 ok
  obtain ⟨inside, distinct⟩ := checkFields_eq_ok.1 checked
  constructor
  case fixed => exact Nat.dvd_of_mod_eq_zero even
  case fields =>
    intro field member
    obtain ⟨aligned, fits, -⟩ := inside field member
    rw [Word.wrap_of_lt (unwrapped.fields field member)] at fits
    exact ⟨Nat.dvd_of_mod_eq_zero aligned, fits⟩
  case distinct => exact distinct
  case count =>
    intro region found
    obtain ⟨⟨aligned, fits⟩, apart, -, -⟩ := checkRegion_eq_ok.1 (regions region found)
    rw [Word.wrap_of_lt (unwrapped.count region found)] at fits
    exact ⟨Nat.dvd_of_mod_eq_zero aligned, fits, apart⟩
  case element =>
    intro region found
    exact (checkRegion_eq_ok.1 (regions region found)).2.2

end Descriptor

end TracingHeap
