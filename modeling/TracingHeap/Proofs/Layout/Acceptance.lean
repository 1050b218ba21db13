import TracingHeap.Proofs.Layout.Tracing

/-! Which types are registered.

The check of a layout adds eight to the offset of every declared word, modulo 2^64. One offset wraps there, that of the
last word of all, and with it a word passes for one of any fixed part. Nothing else passes that should not: the other
layouts are taken exactly if they are what they should be, and then no two words of one are in each other's way. -/

set_option autoImplicit false

namespace TracingHeap

/-- The offset of the last word of all. The word ends at zero, modulo 2^64. -/
def lastWord : Nat := wordLimit - wordSize

namespace Descriptor

variable {d : Descriptor}

/-- The offsets of the fields in the order of declaration, and then that of the count. -/
def declared (d : Descriptor) : List Nat := d.fields.map Field.offset ++ (d.region.map Region.countOffset).toList

/-- A word that the check lets pass for one of the fixed part. -/
def Admits (d : Descriptor) (offset : Nat) : Prop :=
  wordSize ∣ offset ∧ (offset + wordSize ≤ d.fixedSize ∨ offset = lastWord)

/-- What the check of a layout comes to in exact arithmetic. -/
structure Admissible (d : Descriptor) : Prop where
  fixed : wordSize ∣ d.fixedSize
  fields : ∀ field ∈ d.fields, d.Admits field.offset
  distinct : (d.fields.map Field.offset).Nodup
  count : ∀ region, d.region = some region → d.Admits region.countOffset ∧ region.countOffset ∉ d.tracedOffsets
  element : ∀ region, d.region = some region →
    0 < region.elementSize ∧ (region.kind = .traced → region.elementSize = wordSize)

theorem mem_declared {offset : Nat} : offset ∈ d.declared ↔
    (∃ field ∈ d.fields, field.offset = offset) ∨ ∃ region, d.region = some region ∧ region.countOffset = offset := by
  simp [declared]

theorem admits_iff {offset : Nat} (isWord : offset < wordLimit) :
    (offset % wordSize = 0 ∧ Word.wrap (offset + wordSize) ≤ d.fixedSize) ↔ d.Admits offset := by
  simp only [Admits, Word.wrap, lastWord, wordLimit, wordSize] at *
  omega

theorem check_iff_admissible (words : d.IsWords) : d.check = .ok () ↔ d.Admissible := by
  rw [check_eq_ok, checkFields_eq_ok]
  constructor
  · rintro ⟨even, ⟨inside, distinct⟩, regions⟩
    refine ⟨Nat.dvd_of_mod_eq_zero even, fun field member => ?_, distinct, fun region found => ?_, fun region found => ?_⟩
    · obtain ⟨aligned, fits, -⟩ := inside field member
      exact (admits_iff (words.fields field member)).1 ⟨aligned, fits⟩
    · obtain ⟨fits, apart, -⟩ := checkRegion_eq_ok.1 (regions region found)
      exact ⟨(admits_iff (words.region region found).1).1 fits, apart⟩
    · exact (checkRegion_eq_ok.1 (regions region found)).2.2
  · intro admissible
    refine ⟨Nat.mod_eq_zero_of_dvd admissible.fixed, ⟨fun field member => ?_, admissible.distinct⟩, fun region found => ?_⟩
    · obtain ⟨aligned, fits⟩ := (admits_iff (words.fields field member)).2 (admissible.fields field member)
      exact ⟨aligned, fits, List.not_mem_nil⟩
    · obtain ⟨admits, apart⟩ := admissible.count region found
      exact checkRegion_eq_ok.2 ⟨(admits_iff (words.region region found).1).2 admits, apart, admissible.element region found⟩

theorem admits_of_ne {offset : Nat} (other : offset ≠ lastWord) :
    d.Admits offset ↔ wordSize ∣ offset ∧ offset + wordSize ≤ d.fixedSize := by
  simp only [Admits, other, or_false]

/-- Without the last word of all, what is let pass is what fits. -/
theorem admissible_iff_fitted (without : lastWord ∉ d.declared) : d.Admissible ↔ d.Fitted := by
  have field (f : Field) (member : f ∈ d.fields) : f.offset ≠ lastWord := fun last =>
    without (mem_declared.2 (.inl ⟨f, member, last⟩))
  have count (r : Region) (found : d.region = some r) : r.countOffset ≠ lastWord := fun last =>
    without (mem_declared.2 (.inr ⟨r, found, last⟩))
  constructor
  · intro admissible
    refine ⟨admissible.fixed, fun f member => (admits_of_ne (field f member)).1 (admissible.fields f member),
      admissible.distinct, fun r found => ?_, admissible.element⟩
    obtain ⟨admits, apart⟩ := admissible.count r found
    obtain ⟨aligned, fits⟩ := (admits_of_ne (count r found)).1 admits
    exact ⟨aligned, fits, apart⟩
  · intro fitted
    refine ⟨fitted.fixed, fun f member => (admits_of_ne (field f member)).2 (fitted.fields f member),
      fitted.distinct, fun r found => ?_, fitted.element⟩
    obtain ⟨aligned, fits, apart⟩ := fitted.count r found
    exact ⟨(admits_of_ne (count r found)).2 ⟨aligned, fits⟩, apart⟩

/-- The last word of all does not fit into any fixed part. -/
theorem Fitted.without_last (fitted : d.Fitted) (words : d.IsWords) : lastWord ∉ d.declared := by
  have outside : ¬ lastWord + wordSize ≤ d.fixedSize := Nat.not_le_of_lt words.fixedSize
  intro member
  rcases mem_declared.1 member with ⟨field, declared, last⟩ | ⟨region, found, last⟩
  · exact outside (last ▸ (fitted.fields field declared).2)
  · exact outside (last ▸ (fitted.count region found).2.1)

/-- Two words have no byte in common. -/
def Apart (a b : Nat) : Prop := a + wordSize ≤ b ∨ b + wordSize ≤ a

-- The count may also be declared as a scalar field, so that it is one word with two names.
/-- The declared words lie inside the fixed part and are not in each other's way. -/
structure Separate (d : Descriptor) : Prop where
  inside : ∀ offset ∈ d.declared, offset + wordSize ≤ d.fixedSize
  fields : (d.fields.map Field.offset).Pairwise Apart
  traced : ∀ region, d.region = some region → ∀ offset ∈ d.tracedOffsets, Apart offset region.countOffset
  scalars : ∀ region, d.region = some region → ∀ field ∈ d.fields,
    field.offset = region.countOffset ∨ Apart field.offset region.countOffset

theorem Fitted.separate (fitted : d.Fitted) : d.Separate := by
  constructor
  case inside =>
    intro offset member
    rcases mem_declared.1 member with ⟨field, declared, rfl⟩ | ⟨region, found, rfl⟩
    · exact (fitted.fields field declared).2
    · exact (fitted.count region found).2.1
  case fields =>
    refine fitted.distinct.imp_of_mem fun {a b} first second different => ?_
    obtain ⟨field, member, rfl⟩ := List.mem_map.1 first
    obtain ⟨field', member', rfl⟩ := List.mem_map.1 second
    exact apart_of_dvd (fitted.fields field member).1 (fitted.fields field' member').1 different
  case traced =>
    intro region found offset member
    obtain ⟨aligned, -, other⟩ := fitted.count region found
    exact apart_of_dvd (fitted.traced_bounds member).1 aligned fun same => other (same ▸ member)
  case scalars =>
    intro region found field member
    refine or_iff_not_imp_left.2 fun different => ?_
    exact apart_of_dvd (fitted.fields field member).1 (fitted.count region found).1 different

end Descriptor

namespace TypeTable

variable {t : TypeTable} {d : Descriptor}

/-- An open table takes a type exactly if its name is new and its layout passes. -/
theorem register_iff_check (grown : t.Grown) (opened : t.closed = false) :
    (∃ id t', t.register d = .ok (id, t')) ↔ (∀ other ∈ t.descriptors, other.name ≠ d.name) ∧ d.check = .ok () := by
  rw [← grown.indexed.lookup_eq_none]
  constructor
  · rintro ⟨id, t', registered⟩
    obtain ⟨-, ok, fresh, -⟩ := register_eq_ok.1 registered
    exact ⟨fresh, ok⟩
  · rintro ⟨fresh, ok⟩
    exact ⟨_, _, register_eq_ok.2 ⟨opened, ok, fresh, rfl, rfl⟩⟩

/-- An open table takes a type exactly if its name is new and its layout is admissible. For a layout that does not
declare the last word of all this means that the words are aligned and fit into the fixed part, that no two fields are
one word, that the count is no traced field, and that the elements have a size, which is that of a word if they are
references. The words of such a layout lie inside the fixed part and apart from each other. A layout that does declare
the last word does not fit, and is taken all the same if nothing else is wrong. -/
theorem register_exact (grown : t.Grown) (opened : t.closed = false) (words : d.IsWords) :
    ((∃ id t', t.register d = .ok (id, t')) ↔
      (∀ other ∈ t.descriptors, other.name ≠ d.name) ∧ d.Admissible) ∧
    (lastWord ∉ d.declared → ((∃ id t', t.register d = .ok (id, t')) ↔
      (∀ other ∈ t.descriptors, other.name ≠ d.name) ∧ d.Fitted)) ∧
    (lastWord ∉ d.declared → (∃ id t', t.register d = .ok (id, t')) → d.Separate) ∧
    (lastWord ∈ d.declared → ¬ d.Fitted) := by
  have exact := register_iff_check (d := d) grown opened
  rw [Descriptor.check_iff_admissible words] at exact
  have fitted (without : lastWord ∉ d.declared) : (∃ id t', t.register d = .ok (id, t')) ↔
      (∀ other ∈ t.descriptors, other.name ≠ d.name) ∧ d.Fitted := by
    rw [exact, Descriptor.admissible_iff_fitted without]
  exact ⟨exact, fitted, fun without registered => ((fitted without).1 registered).2.separate,
    fun last fits => fits.without_last words last⟩

end TypeTable

/-- As large as a type can be, with a reference in the last word that fits and a count in the first one. -/
def Descriptor.vast : Descriptor :=
  ⟨"Vast", 18446744073709551608, [⟨18446744073709551600, .traced⟩, ⟨0, .scalar⟩], some (.references 0)⟩

theorem Descriptor.vast_isWords : vast.IsWords :=
  ⟨by decide, by decide, fun r region => by cases region; decide⟩

theorem Descriptor.vast_fitted : vast.Fitted :=
  ⟨by decide, by decide, by decide, fun r region => by cases region; decide, fun r region => by cases region; decide⟩

/-- It is registered beside another type, and its words are apart. The other type is not taken twice. -/
theorem TypeTable.register_exact_of_vast : ∃ t : TypeTable, t.Grown ∧ t.closed = false ∧
    (∃ id t', t.register .vast = .ok (id, t')) ∧ Descriptor.vast.Separate ∧
    ¬ ∃ id t', t.register .mixed = .ok (id, t') := by
  obtain ⟨-, exact, separate, -⟩ := register_exact (d := .vast) grown_mixed rfl Descriptor.vast_isWords
  have without : lastWord ∉ Descriptor.vast.declared := by decide
  have registered := (exact without).2 ⟨by decide, Descriptor.vast_fitted⟩
  have words : Descriptor.mixed.IsWords := ⟨by decide, by decide, fun r region => by cases region; decide⟩
  obtain ⟨again, -⟩ := register_exact (d := .mixed) grown_mixed rfl words
  exact ⟨_, grown_mixed, rfl, registered, separate without registered, fun taken =>
    (again.1 taken).1 .mixed (Array.mem_singleton.2 rfl) rfl⟩

/-- A reference at the last word of all. In an object it is the word in front of the payload. -/
def Descriptor.wrapping : Descriptor := ⟨"Wrapping", 8, [⟨18446744073709551608, .traced⟩], none⟩

/-- An open table takes a type with a traced field that lies outside its fixed part. -/
theorem TypeTable.register_takes_wrapping : Grown {} ∧ ({} : TypeTable).closed = false ∧ Descriptor.wrapping.IsWords ∧
    (∃ id t', ({} : TypeTable).register .wrapping = .ok (id, t')) ∧
    (∃ field ∈ Descriptor.wrapping.fields, field.kind = .traced ∧ ¬ field.offset + wordSize ≤ Descriptor.wrapping.fixedSize) ∧
    ¬ Descriptor.wrapping.Fitted := by
  refine ⟨.empty, rfl, ⟨by decide, by decide, nofun⟩, ⟨_, _, rfl⟩, ⟨_, List.mem_singleton_self _, rfl, by decide⟩,
    fun fitted => ?_⟩
  exact absurd (fitted.fields _ (List.mem_singleton_self _)).2 (by decide)

end TracingHeap
