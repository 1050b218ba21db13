import TracingHeap.Proofs.Copying.Collection
import TracingHeap.Proofs.Copying.Rooted

/-! The books of a collection that moves, wherever its roots lie.

A root may be a word inside an object, also in a header or in a copy, and a collection that rewrites it changes what
it reads later. The size in a header is out of its reach: read as a reference it leads to no object, so a collection
that comes to it fails. The size in a copy is not, where a root lies in the reserve. A collection that succeeds has copied
every object once, and all of it. -/

set_option autoImplicit false

namespace TracingHeap

/-- References are read and written as whole words. -/
def Slot.Aligned : Slot → Prop
  | .cell _ => True
  | .field a => wordSize ∣ a

instance (s : Slot) : Decidable s.Aligned := by
  cases s <;> unfold Slot.Aligned <;> infer_instance

-- The roots may be anywhere, so the footing speaks about none.
/-- Objects with intact headers, which begin at whole words, and a reserve to move them to. -/
structure Ground (types : TypeTable) (resident : Std.TreeSet Nat) (space : Space) (m₀ : Memory) : Prop
    extends Footing types [] resident space m₀ (resident.contains · = true) where
  unmarked : ∀ p, resident.contains p = true → m₀.Unmarked p
  whole : ∀ p, resident.contains p = true → wordSize ∣ p

/-- The objects of `l` have been copied, one behind the other. -/
structure Accounts (resident : Std.TreeSet Nat) (space : Space) (m₀ : Memory) (l : List Nat) (e : Evacuation) : Prop where
  nodup : l.Nodup
  known : ∀ p ∈ l, resident.contains p = true
  shape : m₀.SameShape e.memory
  sizes : ∀ p, resident.contains p = true → e.memory.payloadSize p = m₀.payloadSize p
  reserve : e.reserve = { space with cursor := (l.map m₀.blockSize).sum }
  forwarded : ∀ p, e.forwarded.contains p = true ↔ p ∈ l
  copies : e.copies.size = l.length
  below : ∀ q, e.copies.contains q = true → q < payloadOf e.reserve.top
  objects : e.objectsMoved = l.length
  bytes : e.bytesMoved = (l.map m₀.blockSize).sum

/-- If the computation succeeds, some objects have been copied. -/
def Accounted {α : Type} (resident : Std.TreeSet Nat) (space : Space) (m₀ : Memory) :
    EStateM.Result Failure Evacuation α → Prop :=
  Leaves (fun _ e => ∃ l, Accounts resident space m₀ l e) fun _ => True

-- The states of the headers have no part in it, and neither have the types.
/-- Objects in blocks of their own, which begin at whole words, and a reserve beside them with room for all. -/
structure Site (resident : Std.TreeSet Nat) (space : Space) (m₀ : Memory) : Prop where
  regular : m₀.Regular
  low : ∀ p, resident.contains p = true → headerSize ≤ p
  whole : ∀ p, resident.contains p = true → wordSize ∣ p
  spans : ∀ p, resident.contains p = true → headerSize + m₀.payloadSize p ≤ m₀.blockSize p
  inside : ∀ p, resident.contains p = true → m₀.holds (blockOf p) (m₀.blockSize p) = true
  apart : ∀ p q, resident.contains p = true → resident.contains q = true → p < q →
    blockOf p + m₀.blockSize p ≤ blockOf q
  begins : wordSize ∣ space.start
  reserve : m₀.holds space.start space.size = true
  away : ∀ p, resident.contains p = true →
    blockOf p + m₀.blockSize p ≤ space.start ∨ space.start + space.size ≤ blockOf p
  total : ∀ l : List Nat, l.Nodup → (∀ p ∈ l, resident.contains p = true) → (l.map m₀.blockSize).sum ≤ space.size

-- A root may lie in the reserve, where a copy comes to lie over it.
/-- The copies of the objects of `l` are where they belong. The size in a copy may be gone, but then the address of a copy
stands in its place. -/
structure Booked (resident : Std.TreeSet Nat) (space : Space) (m₀ : Memory) (l : List Nat) (e : Evacuation) : Prop
    extends Accounts resident space m₀ l e where
  homes : ∀ q, e.copies.contains q = true → ∃ p ∈ l, copyOf space m₀ l p = q
  copied : ∀ p ∈ l, e.memory.payloadSize (copyOf space m₀ l p) = m₀.payloadSize p ∨
    ∃ q ∈ l, e.memory.payloadSize (copyOf space m₀ l p) = copyOf space m₀ l q

/-- If the computation succeeds, more objects may have been copied. -/
def Advances {α : Type} (resident : Std.TreeSet Nat) (space : Space) (m₀ : Memory) (l : List Nat) :
    EStateM.Result Failure Evacuation α → Prop :=
  Leaves (fun _ e => ∃ l', l <+: l' ∧ Booked resident space m₀ l' e) fun _ => True

/-- What is looked at is left alone. -/
theorem Evacuate.leaves_look {α : Type} (f : Memory → Reading α) (e : Evacuation) :
    Leaves (fun a e' => e' = e ∧ f e.memory = .ok a) (fun _ => True) (look f e) := by
  cases read : f e.memory with
  | ok a => rw [look_ok read]; exact ⟨rfl, rfl⟩
  | error x => rw [look_error read]; exact Leaves.error x e

/-! ### Layouts -/

theorem TypeTable.registered_of_shape {types : TypeTable} {m : Memory} {p : Nat} {h : Header} {d : Descriptor}
    (shaped : types.shape m p = .ok (h, d)) : ∃ id, types.get? id = some d := by
  obtain ⟨⟨header, state⟩, -, rest⟩ := bind_eq_ok.1 shaped
  by_cases moved : state = .forwarded
  · simp only [moved, if_true] at rest
    cases rest
  · simp only [moved, if_false] at rest
    cases found : types.get header.typeId with
    | error e => rw [found] at rest; cases rest
    | ok d' => rw [found] at rest; cases rest; exact ⟨_, TypeTable.get_eq_ok.1 found⟩

theorem dvd_slotAt {p offset : Nat} (first : wordSize ∣ p) (second : wordSize ∣ offset) : wordSize ∣ slotAt p offset := by
  simp only [slotAt, Word.wrap, wordSize, wordLimit] at *
  omega

namespace TypeTable.Checked

variable {types : TypeTable} {id : TypeId} {d : Descriptor} {p : Nat} (checked : types.Checked)
  (found : types.get? id = some d)

include checked found

theorem fieldSlots_aligned (whole : wordSize ∣ p) : ∀ a ∈ d.fieldSlots p, wordSize ∣ a := by
  intro a member
  have fields := (Descriptor.check_eq_ok.1 (checked d (TypeTable.mem_of_get? found)).1).2.1
  obtain ⟨offset, traced, rfl⟩ := List.mem_map.1 member
  obtain ⟨field, kept, rfl⟩ := List.mem_map.1 traced
  have even := ((Descriptor.checkFields_eq_ok.1 fields).1 field (List.mem_filter.1 kept).1).1
  exact dvd_slotAt whole (Nat.dvd_of_mod_eq_zero even)

theorem elementSlot_aligned (whole : wordSize ∣ p) (index : Nat) : wordSize ∣ d.elementSlot p index := by
  have even := (Descriptor.check_eq_ok.1 (checked d (TypeTable.mem_of_get? found)).1).1
  exact dvd_slotAt whole (Nat.dvd_add (Nat.dvd_of_mod_eq_zero even) (Nat.dvd_mul_left ..))

end TypeTable.Checked

/-! ### Where things lie -/

section

variable {types : TypeTable} {resident : Std.TreeSet Nat} {space : Space} {m₀ : Memory} {l l' : List Nat} {e : Evacuation}
  {p q word : Nat} {s : Slot}

theorem Ground.site (ground : Ground types resident space m₀) (begins : wordSize ∣ space.start) :
    Site resident space m₀ := by
  have unmarked := ground.unmarked
  have extent (p : Nat) (known : resident.contains p = true) : m₀.extent p = m₀.blockSize p :=
    Memory.extent_of_unmarked (unmarked p known)
  constructor
  case regular => exact ground.regular
  case low =>
    intro p known
    obtain ⟨d, framed⟩ := ground.framed p ⟨known, unmarked p known⟩
    exact framed.low
  case whole => exact ground.whole
  case spans => exact fun p known => ground.toFooting.spans ⟨known, unmarked p known⟩
  case inside => exact fun p known => extent p known ▸ ground.room p known
  case apart => exact fun p q first second less => extent p first ▸ ground.apart p q first second less
  case begins => exact begins
  case reserve => exact ground.reserve
  case away => exact fun p known => extent p known ▸ ground.away p known
  case total => exact fun l nodup known => ground.total l nodup fun p member => ⟨known p member, unmarked p (known p member)⟩

namespace Site

variable (site : Site resident space m₀)

include site

theorem large (known : resident.contains p = true) : headerSize ≤ m₀.blockSize p :=
  Nat.le_trans (Nat.le_add_right ..) (site.spans p known)

theorem holds_header (known : resident.contains p = true) : m₀.holds (blockOf p) headerSize = true :=
  Memory.holds_of_range site.regular (site.inside p known) (Nat.le_refl _) (Nat.add_le_add_left (site.large known) _)

/-- The size of an object leads to none: the first arena begins far behind the largest size. -/
theorem not_resident (known : resident.contains p = true) : resident.contains (m₀.payloadSize p) = false := by
  rw [← Bool.not_eq_true]
  intro other
  have block := Memory.holds_le site.regular (site.inside p known)
  have size := Nat.le_trans (Nat.le_trans (Nat.le_add_left ..) (site.spans p known)) block
  have origin := Memory.holds_origin (site.holds_header other)
  exact absurd (Nat.le_trans origin (Nat.le_trans (Nat.sub_le ..) size)) (by decide)

/-- Blocks of different objects do not overlap. -/
theorem clear (first : resident.contains p = true) (second : resident.contains q = true) (other : p ≠ q) :
    blockOf p + m₀.blockSize p ≤ blockOf q ∨ blockOf q + m₀.blockSize q ≤ blockOf p :=
  (Nat.lt_or_gt_of_ne other).imp (site.apart p q first second) (site.apart q p second first)

/-- What is in the reserve keeps clear of the objects. -/
theorem clear_reserve {used size : Nat} (room : used + size ≤ space.size) (known : resident.contains p = true) :
    blockOf p + m₀.blockSize p ≤ space.start + used ∨ space.start + used + size ≤ blockOf p := by
  have away := site.away p known
  omega

/-- The word with the size in a header begins at a whole word. -/
theorem aligned_size (known : resident.contains p = true) : wordSize ∣ blockOf p + 8 := by
  have low := site.low p known
  have whole := site.whole p known
  unfold blockOf headerSize wordSize at *
  omega

end Site

theorem dvd_copyOf (begins : wordSize ∣ space.start) : wordSize ∣ blockOf (copyOf space m₀ l p) := by
  rw [blockOf_copyOf]
  exact dvd_placed begins fun q => dvd_footprint _

/-- Whole words are the same or apart. -/
theorem apart_of_aligned {a b : Nat} (first : wordSize ∣ a) (second : wordSize ∣ b) (other : a ≠ b) :
    b + wordSize ≤ a ∨ a + wordSize ≤ b := by
  unfold wordSize at *
  omega

namespace Accounts

variable (site : Site resident space m₀) (accounts : Accounts resident space m₀ l e)

include site accounts

theorem regular : e.memory.Regular := site.regular.of_sameShape accounts.shape

theorem holds_header (known : resident.contains p = true) : e.memory.holds (blockOf p) headerSize = true :=
  accounts.shape.holds .. ▸ site.holds_header known

/-- The word that has the size of an object. -/
theorem size_eq (known : resident.contains p = true) : e.memory.word (blockOf p + 8) = m₀.payloadSize p := by
  rw [← accounts.sizes p known]
  exact (Memory.header_size (accounts.regular site) (accounts.holds_header site known)).symm

theorem holds_source (known : resident.contains p = true) :
    e.memory.holds (blockOf p) (m₀.blockSize p) = true := accounts.shape.holds .. ▸ site.inside p known

theorem total_le : (l.map m₀.blockSize).sum ≤ space.size := site.total l accounts.nodup accounts.known

theorem holds_copy (member : p ∈ l) : e.memory.holds (blockOf (copyOf space m₀ l p)) (m₀.blockSize p) = true := by
  have bounds := copyOf_bounds space m₀ member
  have room := accounts.total_le site
  exact accounts.shape.holds .. ▸ Memory.holds_of_range site.regular site.reserve bounds.1 (by omega)

theorem holds_copyHeader (member : p ∈ l) : e.memory.holds (blockOf (copyOf space m₀ l p)) headerSize = true :=
  Memory.holds_of_range (accounts.regular site) (accounts.holds_copy site member) (Nat.le_refl _)
    (Nat.add_le_add_left (site.large (accounts.known p member)) _)

/-- A word is written that is not the size of an object. -/
theorem write (aligned : s.Aligned) (there : e.memory.holdsSlot s = true)
    (other : ∀ p, resident.contains p = true → s ≠ .field (blockOf p + 8)) (v : Nat) :
    Accounts resident space m₀ l { e with memory := e.memory.setSlot s v } := by
  refine { accounts with shape := accounts.shape.trans (Memory.sameShape_setSlot ..), sizes := fun p known => ?_ }
  cases s with
  | cell i => exact accounts.sizes p known
  | field a =>
    have regular := accounts.regular site
    have shape := Memory.sameShape_setWord e.memory a v
    have header := accounts.holds_header site known
    have within := Memory.holds_sub regular header 8 wordSize (by decide)
    show ((e.memory.setWord a v).header (blockOf p)).size = m₀.payloadSize p
    rw [Memory.header_size (regular.of_sameShape shape) (shape.holds .. ▸ header), ← accounts.size_eq site known]
    refine Memory.word_setWord_of_outside regular there within ?_
    exact apart_of_aligned aligned (site.aligned_size known) fun same => other p known (same ▸ rfl)

section

variable (known : resident.contains p = true) (fresh : p ∉ l)

include known fresh

omit site fresh in
theorem known_append : ∀ q ∈ l ++ [p], resident.contains q = true := by
  intro q member
  rcases List.mem_append.1 member with old | new
  · exact accounts.known q old
  · rwa [List.mem_singleton.1 new]

omit site known in
theorem nodup_append : (l ++ [p]).Nodup := List.concat_eq_append ▸ accounts.nodup.concat fresh

/-- Different objects find room for their copies in the reserve. -/
theorem total_append : (l.map m₀.blockSize).sum + m₀.blockSize p ≤ space.size := by
  have total := site.total (l ++ [p]) (accounts.nodup_append fresh) (accounts.known_append known)
  simpa using total

theorem holds_target : e.memory.holds (space.start + (l.map m₀.blockSize).sum) (m₀.blockSize p) = true := by
  have room := accounts.total_append site known fresh
  exact accounts.shape.holds .. ▸ Memory.holds_of_range site.regular site.reserve (by omega) (by omega)

/-- Outside the new copy and the old header every byte stays. -/
theorem byte_departed {a : Nat} (copy : a < space.start + (l.map m₀.blockSize).sum ∨
      space.start + (l.map m₀.blockSize).sum + m₀.blockSize p ≤ a) (header : a < blockOf p ∨ blockOf p + headerSize ≤ a) :
    (departed space m₀ l p e).memory.byte a = e.memory.byte a :=
  Memory.byte_movedBlock_of_outside (accounts.regular site) (accounts.holds_source site known)
    (accounts.holds_target site known fresh) (site.large known) copy header

/-- One more object is copied. -/
theorem depart : Accounts resident space m₀ (l ++ [p]) (departed space m₀ l p e) := by
  have regular := accounts.regular site
  have large := site.large known
  have room := accounts.total_append site known fresh
  have source := accounts.holds_source site known
  have target := accounts.holds_target site known fresh
  have sum : ((l ++ [p]).map m₀.blockSize).sum = (l.map m₀.blockSize).sum + m₀.blockSize p := by simp
  have shape : e.memory.SameShape (departed space m₀ l p e).memory := Memory.sameShape_movedBlock ..
  constructor
  case nodup => exact accounts.nodup_append fresh
  case known => exact accounts.known_append known
  case shape => exact accounts.shape.trans shape
  case sizes =>
    intro q other
    rw [← accounts.sizes q other]
    have away := site.clear_reserve room other
    by_cases same : q = p
    · subst same
      have moved := Memory.header_movedBlock regular source target large away
      show ((e.memory.movedBlock ..).header (blockOf q)).size = _
      rw [moved]
      rfl
    · refine congrArg Header.size (Memory.header_stay regular shape (accounts.holds_header site other) fun i lt => ?_)
      have apart := site.clear other known same
      have front := site.large other
      exact accounts.byte_departed site known fresh (by omega) (by omega)
  case reserve =>
    rw [sum]
    rfl
  case forwarded =>
    intro q
    rw [departed, contains_insert_iff, accounts.forwarded, List.mem_append, List.mem_singleton]
    exact or_comm
  case copies =>
    -- The new copy lies behind all others.
    have new : ¬ e.copies.contains (payloadOf (space.start + (l.map m₀.blockSize).sum)) = true := by
      intro member
      have below := accounts.below _ member
      rw [accounts.reserve] at below
      exact Nat.lt_irrefl _ below
    rw [departed, copyOf_append fresh, Std.TreeSet.size_insert, if_neg new, accounts.copies, List.length_append,
      List.length_singleton]
  case below =>
    intro q member
    rw [departed, copyOf_append fresh, contains_insert_iff] at member
    show q < payloadOf (space.start + ((l.map m₀.blockSize).sum + m₀.blockSize p))
    have positive : 0 < m₀.blockSize p := Nat.lt_of_lt_of_le (by decide) large
    have behind := Nat.add_lt_add_right (Nat.add_lt_add_left (Nat.lt_add_of_pos_right (n := (l.map m₀.blockSize).sum)
      positive) space.start) headerSize
    rcases member with same | old
    · exact same ▸ behind
    · have below := accounts.below q old
      rw [accounts.reserve] at below
      exact Nat.lt_trans below behind
  case objects => rw [departed, accounts.objects, List.length_append, List.length_singleton]
  case bytes => rw [departed, accounts.bytes, sum]

end

end Accounts

/-! ### One reference -/

namespace Booked

variable (site : Site resident space m₀) (booked : Booked resident space m₀ l e)

include site booked

/-- A word is written that is not the size of an object, with the address of a copy. Over the size of a copy it may be
written. -/
theorem write (aligned : s.Aligned) (there : e.memory.holdsSlot s = true)
    (other : ∀ p, resident.contains p = true → s ≠ .field (blockOf p + 8)) {target : Nat}
    (home : ∃ q ∈ l, copyOf space m₀ l q = target) :
    Booked resident space m₀ l { e with memory := e.memory.setSlot s target } := by
  refine { booked.toAccounts.write site aligned there other target with
    homes := booked.homes
    copied := fun p member => ?_ }
  cases s with
  | cell i => exact booked.copied p member
  | field a =>
    have accounts := booked.toAccounts
    have regular := accounts.regular site
    have shape := Memory.sameShape_setWord e.memory a target
    have header := accounts.holds_copyHeader site member
    have within := Memory.holds_sub regular header 8 wordSize (by decide)
    have size : (e.memory.setWord a target).payloadSize (copyOf space m₀ l p) =
        (e.memory.setWord a target).word (blockOf (copyOf space m₀ l p) + 8) :=
      Memory.header_size (regular.of_sameShape shape) (shape.holds .. ▸ header)
    have before : e.memory.payloadSize (copyOf space m₀ l p) = e.memory.word (blockOf (copyOf space m₀ l p) + 8) :=
      Memory.header_size regular header
    show (e.memory.setWord a target).payloadSize _ = _ ∨ ∃ q ∈ l, (e.memory.setWord a target).payloadSize _ = _
    rw [size]
    by_cases upon : a = blockOf (copyOf space m₀ l p) + 8
    · obtain ⟨q, known, same⟩ := home
      have word := Memory.holds_lt regular (accounts.holds_copyHeader site known)
      have low : payloadOf (blockOf (copyOf space m₀ l q)) = copyOf space m₀ l q := by rw [blockOf_copyOf]; rfl
      refine .inr ⟨q, known, ?_⟩
      rw [← upon, Memory.word_setWord there, ← same, Nat.mod_eq_of_lt (low ▸ word)]
    · have apart := apart_of_aligned aligned (Nat.dvd_add (dvd_copyOf site.begins) (by decide)) upon
      rw [Memory.word_setWord_of_outside regular there within apart, ← before]
      exact booked.copied p member

/-- One more object is copied. Its copy has the size that the object has. -/
theorem depart (known : resident.contains p = true) (fresh : p ∉ l) :
    Booked resident space m₀ (l ++ [p]) (departed space m₀ l p e) := by
  have accounts := booked.toAccounts
  have grown : l <+: l ++ [p] := List.prefix_append ..
  have regular := accounts.regular site
  have large := site.large known
  have room := accounts.total_append site known fresh
  have source := accounts.holds_source site known
  have target := accounts.holds_target site known fresh
  have away := site.away p known
  have shape : e.memory.SameShape (departed space m₀ l p e).memory := Memory.sameShape_movedBlock ..
  refine { accounts.depart site known fresh with homes := fun q member => ?_, copied := fun q member => ?_ }
  · rw [departed, contains_insert_iff] at member
    rcases member with same | old
    · exact ⟨p, List.mem_append_right _ List.mem_cons_self, same.symm⟩
    · obtain ⟨r, within, same⟩ := booked.homes q old
      exact ⟨r, grown.subset within, (copyOf_extends grown within).trans same⟩
  · rcases List.mem_append.1 member with old | new
    · have bounds := copyOf_bounds space m₀ old
      have front := site.large (accounts.known q old)
      have same : (departed space m₀ l p e).memory.payloadSize (copyOf space m₀ l q) =
          e.memory.payloadSize (copyOf space m₀ l q) := by
        refine congrArg Header.size (Memory.header_stay regular shape (accounts.holds_copyHeader site old) fun i lt => ?_)
        exact accounts.byte_departed site known fresh (by omega) (by omega)
      rw [copyOf_extends grown old, same]
      rcases booked.copied q old with size | ⟨r, within, other⟩
      · exact .inl size
      · refine .inr ⟨r, grown.subset within, ?_⟩
        rw [copyOf_extends grown within]
        exact other
    · obtain rfl := List.mem_singleton.1 new
      have clear := site.clear_reserve room known
      have front := accounts.holds_header site known
      have back := Memory.holds_of_range regular target (Nat.le_refl _) (Nat.add_le_add_left large _)
      have header : (departed space m₀ l q e).memory.header (space.start + (l.map m₀.blockSize).sum) =
          e.memory.header (blockOf q) :=
        Memory.header_congr regular (regular.of_sameShape shape) front (shape.holds .. ▸ back) fun i lt =>
          Memory.byte_movedBlock_of_copy regular source target large clear (Nat.lt_of_lt_of_le lt large)
      refine .inl ?_
      rw [copyOf_append fresh, Memory.payloadSize, blockOf_payloadOf, header]
      exact accounts.sizes q known

/-- An object that has been copied before is not copied again. -/
theorem evacuate {h : Header} (known : resident.contains p = true) (size : h.footprint = m₀.blockSize p) :
    Leaves (fun target e' => ∃ l', l <+: l' ∧ Booked resident space m₀ l' e' ∧ ∃ q ∈ l', copyOf space m₀ l' q = target)
      (fun _ => True) (Evacuate.evacuate p h e) := by
  have accounts := booked.toAccounts
  by_cases fresh : p ∈ l
  · have again : Evacuate.noteDeparture p e = .error (.corrupted p .doubleForward) e := by
      simp only [Evacuate.noteDeparture, (accounts.forwarded p).2 fresh, if_true]
    rw [Evacuate.evacuate, run_bind_error again]
    exact Leaves.error ..
  · have unknown : e.forwarded.contains p = false := by
      rw [← Bool.not_eq_true, accounts.forwarded]
      exact fresh
    rw [Evacuate.evacuate_eq size (accounts.regular site) accounts.reserve fresh unknown
      (accounts.total_append site known fresh) (accounts.holds_source site known)
      (accounts.holds_target site known fresh) (site.large known)]
    exact ⟨_, List.prefix_append .., booked.depart site known fresh, p, List.mem_append_right _ List.mem_cons_self, rfl⟩

/-- Only a resident has a place to go to, and that is the place of a copy. -/
theorem destination (word : Nat) :
    Leaves (fun target e' => resident.contains word = true ∧
        ∃ l', l <+: l' ∧ Booked resident space m₀ l' e' ∧ ∃ q ∈ l', copyOf space m₀ l' q = target) (fun _ => True)
      (Evacuate.destination resident word e) := by
  unfold Evacuate.destination
  by_cases known : resident.contains word = true
  · simp only [known, Bool.not_true, Bool.false_eq_true, if_false]
    refine Leaves.bind (Evacuate.leaves_look _ e) fun (header, state) e₁ ⟨same, read⟩ => ?_
    subst e₁
    cases state with
    | unmarked =>
      have size : header.footprint = m₀.blockSize word := by
        rw [(check_of_readObject read).1]
        exact congrArg footprint (booked.sizes word known)
      exact (booked.evacuate site known size).imp fun _ _ later => ⟨trivial, later⟩
    | marked => exact Leaves.error ..
    | forwarded =>
      simp only []
      rw [run_bind_get]
      split
      · next recognized =>
        have copy := (Bool.and_eq_true_iff.1 recognized).2
        exact ⟨trivial, l, List.prefix_refl l, booked, booked.homes _ copy⟩
      · exact Leaves.error ..
  · simp only [known, Bool.not_false, if_true]
    exact Leaves.error ..

-- What the word was before the copy is made decides: the slot may lie in the header of an object.
theorem forwardSlot (aligned : s.Aligned) : Advances resident space m₀ l (Evacuate.forwardSlot resident s e) := by
  have accounts := booked.toAccounts
  unfold Evacuate.forwardSlot
  refine Leaves.bind (Evacuate.leaves_look _ e) fun word e₁ ⟨same, read⟩ => ?_
  subst e₁
  split
  · refine Leaves.bind (booked.destination site word) fun target e' ⟨known, l', grown, booked', home⟩ => ?_
    have other (p : Nat) (resides : resident.contains p = true) : s ≠ .field (blockOf p + 8) := by
      rintro rfl
      unfold Memory.readSlot at read
      split at read
      · cases read
        have size : resident.contains (e.memory.word (blockOf p + 8)) = true := known
        rw [accounts.size_eq site resides, site.not_resident resides] at size
        cases size
      · cases read
    by_cases there : e'.memory.holdsSlot s = true
    · rw [Evacuate.access_ok (Access.storeSlot_ok there)]
      exact ⟨l', grown, booked'.write site aligned there other home⟩
    · rw [Evacuate.access_error (Access.storeSlot_error there)]
      exact Leaves.error ..
  · exact ⟨l, List.prefix_refl l, booked⟩

omit site booked in
/-- What comes later starts from a longer list. -/
theorem advances_bind {α β : Type} {x : Evacuate α} {f : α → Evacuate β} (first : Advances resident space m₀ l (x e))
    (rest : ∀ a e' l', l <+: l' → Booked resident space m₀ l' e' → Advances resident space m₀ l' (f a e')) :
    Advances resident space m₀ l ((x >>= f) e) :=
  Leaves.bind first fun a e' ⟨l', grown, booked'⟩ =>
    (rest a e' l' grown booked').imp fun _ _ ⟨l'', longer, later⟩ => ⟨l'', grown.trans longer, later⟩

theorem forwardSlots (slots : List Slot) (aligned : ∀ s ∈ slots, s.Aligned) :
    Advances resident space m₀ l (Evacuate.forwardSlots resident slots e) := by
  induction slots generalizing l e with
  | nil => exact ⟨l, List.prefix_refl l, booked⟩
  | cons s rest ih =>
    refine advances_bind (booked.forwardSlot site (aligned s List.mem_cons_self)) fun _ e' l' _ booked' => ?_
    exact ih booked' fun x member => aligned x (List.mem_cons_of_mem s member)

variable {d : Descriptor} {block : Nat}

theorem forwardElements (aligned : ∀ index, wordSize ∣ d.elementSlot p index) (index count : Nat) :
    Advances resident space m₀ l (Evacuate.forwardElements resident d p index count e) := by
  induction count generalizing index l e with
  | zero => exact ⟨l, List.prefix_refl l, booked⟩
  | succ count ih =>
    refine advances_bind (booked.forwardSlot site (s := .field (d.elementSlot p index)) (aligned index))
      fun _ e' l' _ booked' => ?_
    exact ih booked' (index + 1)

section

variable (checked : types.Checked)

include checked

theorem scanObject (whole : wordSize ∣ p) : Advances resident space m₀ l (Evacuate.scanObject types resident p e) := by
  unfold Evacuate.scanObject
  refine Leaves.bind (Evacuate.leaves_look _ e) fun (header, d) e₁ ⟨same, shaped⟩ => ?_
  subst e₁
  obtain ⟨id, found⟩ := TypeTable.registered_of_shape shaped
  have fields := booked.forwardSlots site ((d.fieldSlots p).map .field) fun s member => by
    obtain ⟨a, within, rfl⟩ := List.mem_map.1 member
    exact checked.fieldSlots_aligned found whole a within
  refine Leaves.bind (Leaves.attempt fields) fun answer e' moved => ?_
  refine Leaves.bind (Evacuate.leaves_look _ e') fun count e₁ ⟨same, _⟩ => ?_
  subst e₁
  cases answer with
  | error x => exact Leaves.error ..
  | ok _ =>
    obtain ⟨l', grown, booked'⟩ := moved () rfl
    exact (booked'.forwardElements site (checked.elementSlot_aligned found whole) 0 count).imp
      fun _ _ ⟨l'', longer, later⟩ => ⟨l'', grown.trans longer, later⟩

-- By induction on the rounds. Sizes are whole words, also those of copies that have been overwritten.
theorem scan (whole : wordSize ∣ block) (rounds : Nat) :
    Advances resident space m₀ l (Evacuate.scan types resident rounds block e) := by
  induction rounds generalizing block l e with
  | zero =>
    rw [Evacuate.scan, run_bind_get]
    split
    · exact ⟨l, List.prefix_refl l, booked⟩
    · exact Leaves.error ..
  | succ rounds ih =>
    rw [Evacuate.scan, run_bind_get]
    split
    · exact ⟨l, List.prefix_refl l, booked⟩
    · refine Leaves.bind (Evacuate.leaves_look _ e) fun header e₁ looked => ?_
      obtain ⟨rfl, -⟩ := looked
      have object := booked.scanObject site checked (Nat.dvd_add whole (by decide : wordSize ∣ headerSize))
      exact advances_bind object fun _ e' l' _ booked' => ih booked' (Nat.dvd_add whole (dvd_footprint _))

end

end Booked

/-- Before a collection nothing has been copied. -/
theorem Booked.start (empty : space.cursor = 0) : Booked resident space m₀ [] { memory := m₀, reserve := space } := by
  refine ⟨?_, fun q member => by simp at member, fun p member => nomatch member⟩
  constructor
  case nodup => exact .nil
  case known => exact fun p member => nomatch member
  case shape => exact .refl m₀
  case sizes => exact fun p _ => rfl
  case reserve => rw [List.map_nil, List.sum_nil, ← empty]
  case forwarded => exact fun p => by simp
  case copies => exact Std.TreeSet.size_emptyc
  case below => exact fun q member => by simp at member
  case objects => rfl
  case bytes => rfl

end

/-! ### The whole collection -/

namespace Copying

variable {types : TypeTable} {roots : List Slot} {c c' : Copying} {m m' : Memory} {report : CollectionReport}
  (ground : Ground types c.resident c.spaces.reserve m) (checked : types.Checked)
  (empty : c.spaces.reserve.cursor = 0) (whole : wordSize ∣ c.spaces.reserve.start) (aligned : ∀ s ∈ roots, s.Aligned)

include ground checked empty whole aligned

theorem evacuateAll_accounted : Accounted c.resident c.spaces.reserve m
    (evacuateAll types roots c.resident { memory := m, reserve := c.spaces.reserve }) := by
  have site := ground.site whole
  have start : Booked c.resident c.spaces.reserve m [] { memory := m, reserve := c.spaces.reserve } := .start empty
  unfold evacuateAll
  have roots' := start.forwardSlots site (distinctSlots roots) fun s member => aligned s (mem_distinctSlots.1 member)
  refine Leaves.bind roots' fun _ e ⟨l, _, booked⟩ => ?_
  rw [run_bind_get]
  have start : wordSize ∣ e.reserve.start := by
    rw [booked.reserve]
    exact whole
  exact (booked.scan site checked start _).imp fun _ _ ⟨l', _, booked'⟩ => ⟨l', booked'.toAccounts⟩

/-- A collection that succeeds has copied some objects, each once, and reports them. -/
theorem collect_accounted (ran : c.collect types roots m = .ok report (c', m')) : ∃ l : List Nat, l.Nodup ∧
    (∀ p ∈ l, c.resident.contains p = true) ∧ report = c.movedReport l (l.map m.blockSize).sum ∧
      c'.resident.size = l.length ∧ c'.evacuated = l.length ∧
      c'.spaces.active = { c.spaces.reserve with cursor := (l.map m.blockSize).sum } := by
  have spec := evacuateAll_accounted ground checked empty whole aligned
  unfold collect at ran
  cases evacuated : evacuateAll types roots c.resident { memory := m, reserve := c.spaces.reserve } with
  | error x e =>
    rw [evacuated] at ran
    cases ran
  | ok _ e =>
    obtain ⟨l, accounts⟩ := spec.of_ok evacuated
    rw [evacuated] at ran
    cases ran
    refine ⟨l, accounts.nodup, accounts.known, ?_, accounts.copies, size_eq_length accounts.nodup accounts.forwarded,
      accounts.reserve⟩
    simp only [accounts.copies, accounts.objects, accounts.bytes, accounts.reserve]
    rfl

end Copying

end TracingHeap
