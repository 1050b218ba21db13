import TracingHeap.Proofs.Copying.Blocks
import TracingHeap.Proofs.Copying.Order
import TracingHeap.Proofs.Relocation
import TracingHeap.Proofs.Space.Tiled

/-! A running collection.

Three kinds of objects have to be told apart: those that have not been met and are as they were, those that
have been copied and whose old headers name the copies, and the copies. In a copy each traced word either
still holds what the object held or has been rewritten, so the invariant keeps a list of the words that have
been rewritten. -/

set_option autoImplicit false

namespace TracingHeap

/-- The part of an object that a collection may read: where the header is damaged, the header alone. -/
def Memory.extent (m : Memory) (p : Nat) : Nat :=
  if (m.header (blockOf p)).isIntact .unmarked then m.blockSize p else headerSize

theorem Memory.extent_of_unmarked {m : Memory} {p : Nat} (unmarked : m.Unmarked p) : m.extent p = m.blockSize p :=
  if_pos (Header.isIntact_iff.2 unmarked)

-- `live` is what the collection may come to. Nothing is asked of the other objects, which are never read. Of the live
-- ones an intact header has to give the right type and size; a damaged one may say anything.
/-- The memory before a collection, and the space that the objects are moved to. -/
structure Footing (types : TypeTable) (roots : List Slot) (resident : Std.TreeSet Nat) (space : Space) (m₀ : Memory)
    (live : Nat → Prop) : Prop where
  regular : m₀.Regular
  framed : ∀ p, live p ∧ m₀.Unmarked p → ∃ d, Framed types m₀ p d
  known : ∀ p, live p → resident.contains p = true
  small : ∀ p, live p ∧ m₀.Unmarked p → m₀.payloadSize p ≤ largestPayload
  room : ∀ p, live p → m₀.holds (blockOf p) (m₀.extent p) = true
  apart : ∀ p q, live p → live q → p < q → blockOf p + m₀.extent p ≤ blockOf q
  reserve : m₀.holds space.start space.size = true
  away : ∀ p, live p → blockOf p + m₀.extent p ≤ space.start ∨ space.start + space.size ≤ blockOf p
  total : ∀ l : List Nat, l.Nodup → (∀ p ∈ l, live p ∧ m₀.Unmarked p) → (l.map m₀.blockSize).sum ≤ space.size
  cells : ∀ s ∈ roots, ∃ i, s = .cell i ∧ i < m₀.cells.size
  started : ∀ s ∈ roots, m₀.slot s ≠ 0 → resident.contains (m₀.slot s) = true → live (m₀.slot s)
  led : ∀ p, live p ∧ m₀.Unmarked p → ∀ a ∈ types.visited m₀ p, m₀.word a ≠ 0 →
    resident.contains (m₀.word a) = true → live (m₀.word a)

/-- A memory in which all that can be reached is in order. -/
structure Departure (types : TypeTable) (roots : List Slot) (resident : Std.TreeSet Nat) (space : Space)
    (m₀ : Memory) : Prop where
  footing : Footing types roots resident space m₀ (Reach types roots m₀)
  consistent : Consistent types roots (Reach types roots m₀) m₀

/-- Where a reference was found: in a root cell, or at a place in the block of an object. -/
inductive Origin where
  | root (i : Nat)
  | word (p k : Nat)
  deriving DecidableEq

/-- The payload address of the copy of an object. -/
def copyOf (space : Space) (m₀ : Memory) (l : List Nat) (p : Nat) : Nat :=
  payloadOf (placed m₀.blockSize space.start l p)

/-- The header at the old place of an object after the objects of `l` have been copied. -/
def headerLeft (space : Space) (m₀ : Memory) (l : List Nat) (p : Nat) : Header :=
  if p ∈ l then { m₀.header (blockOf p) with state := ObjectState.forwarded.code, forward := copyOf space m₀ l p }
  else m₀.header (blockOf p)

/-- The word that takes the place of one that has been followed. -/
def aim (space : Space) (m₀ : Memory) (l : List Nat) (word : Nat) : Nat :=
  if word = 0 then 0 else (headerLeft space m₀ l word).forward

-- The third case is a header that was forwarded before the collection began, to where a copy came to lie.
/-- The word is null or leads to a copy. -/
def Settled (space : Space) (m₀ : Memory) (live : Nat → Prop) (l : List Nat) (word : Nat) : Prop :=
  word = 0 ∨ word ∈ l ∨ live word ∧ (m₀.header (blockOf word)).check = .ok .forwarded ∧
    ∃ q ∈ l, copyOf space m₀ l q = (m₀.header (blockOf word)).forward

namespace Origin

/-- What was found there before the collection. -/
def original (m₀ : Memory) : Origin → Nat
  | root i => m₀.slot (.cell i)
  | word p k => m₀.word (blockOf p + k)

/-- The slot that is rewritten: the cell, or the word of the copy. -/
def slot (space : Space) (m₀ : Memory) (l : List Nat) : Origin → Slot
  | root i => .cell i
  | word p k => .field (blockOf (copyOf space m₀ l p) + k)

def Valid (types : TypeTable) (roots : List Slot) (m₀ : Memory) (l : List Nat) : Origin → Prop
  | root i => .cell i ∈ roots
  | word p k => p ∈ l ∧ blockOf p + k ∈ types.visited m₀ p

end Origin

-- `l` is in the order of copying, which fixes where every copy is; the state of the collector does not list it.
/-- The state after the objects of `l` have been copied, one behind the other, and the words of `done` have been
rewritten. -/
structure Moving (types : TypeTable) (roots : List Slot) (space : Space) (m₀ : Memory) (live : Nat → Prop)
    (l : List Nat) (done : List Origin) (e : Evacuation) : Prop where
  nodup : l.Nodup
  reached : ∀ p ∈ l, live p ∧ m₀.Unmarked p
  valid : ∀ o ∈ done, o.Valid types roots m₀ l
  settled : ∀ o ∈ done, Settled space m₀ live l (o.original m₀)
  reserve : e.reserve = { space with cursor := (l.map m₀.blockSize).sum }
  copies : ∀ q, e.copies.contains q = true ↔ ∃ p ∈ l, copyOf space m₀ l p = q
  forwarded : ∀ p, e.forwarded.contains p = true ↔ p ∈ l
  objects : e.objectsMoved = l.length
  bytes : e.bytesMoved = (l.map m₀.blockSize).sum
  shape : m₀.SameShape e.memory
  stayed : ∀ p, live p → p ∉ l → ∀ i, i < m₀.extent p →
    e.memory.byte (blockOf p + i) = m₀.byte (blockOf p + i)
  left : ∀ p ∈ l, e.memory.header (blockOf p) =
    { m₀.header (blockOf p) with state := ObjectState.forwarded.code, forward := copyOf space m₀ l p }
  copied : ∀ p ∈ l, ∀ i, i < m₀.blockSize p → (∀ k, Origin.word p k ∈ done → i < k ∨ k + wordSize ≤ i) →
    e.memory.byte (blockOf (copyOf space m₀ l p) + i) = m₀.byte (blockOf p + i)
  rewritten : ∀ p k, Origin.word p k ∈ done →
    e.memory.word (blockOf (copyOf space m₀ l p) + k) = aim space m₀ l (m₀.word (blockOf p + k))
  elsewhere : ∀ a, (∀ p, live p → a < blockOf p ∨ blockOf p + m₀.extent p ≤ a) →
    (a < space.start ∨ space.start + (l.map m₀.blockSize).sum ≤ a) → e.memory.byte a = m₀.byte a
  cell : ∀ i, e.memory.slot (.cell i) =
    if Origin.root i ∈ done then aim space m₀ l (m₀.slot (.cell i)) else m₀.slot (.cell i)

section

variable {types : TypeTable} {roots : List Slot} {resident : Std.TreeSet Nat} {space : Space} {m₀ : Memory}
  {live : Nat → Prop} {l l' : List Nat} {done : List Origin} {e : Evacuation} {o : Origin} {p word : Nat}

theorem blockOf_copyOf (space : Space) (m₀ : Memory) (l : List Nat) (p : Nat) :
    blockOf (copyOf space m₀ l p) = placed m₀.blockSize space.start l p := blockOf_payloadOf _

/-- A copy lies in the used part of the reserve. -/
theorem copyOf_bounds (space : Space) (m₀ : Memory) (member : p ∈ l) :
    space.start ≤ blockOf (copyOf space m₀ l p) ∧
      blockOf (copyOf space m₀ l p) + m₀.blockSize p ≤ space.start + (l.map m₀.blockSize).sum := by
  rw [blockOf_copyOf]
  exact placed_bounds member

theorem copyOf_apart (space : Space) (m₀ : Memory) {q : Nat} (first : p ∈ l) (second : q ∈ l) (different : p ≠ q) :
    blockOf (copyOf space m₀ l p) + m₀.blockSize p ≤ blockOf (copyOf space m₀ l q) ∨
      blockOf (copyOf space m₀ l q) + m₀.blockSize q ≤ blockOf (copyOf space m₀ l p) := by
  rw [blockOf_copyOf, blockOf_copyOf]
  exact placed_apart first second different

theorem copyOf_extends (grown : l <+: l') (member : p ∈ l) : copyOf space m₀ l' p = copyOf space m₀ l p := by
  unfold copyOf
  rw [placed_extends grown member]

theorem copyOf_congr {m : Memory} (same : ∀ q ∈ l, m.blockSize q = m₀.blockSize q) :
    copyOf space m l = copyOf space m₀ l := funext fun _ => congrArg payloadOf (placed_congr same)

@[simp] theorem headerLeft_of_mem (member : p ∈ l) : headerLeft space m₀ l p =
    { m₀.header (blockOf p) with state := ObjectState.forwarded.code, forward := copyOf space m₀ l p } := if_pos member

@[simp] theorem headerLeft_of_notMem (fresh : p ∉ l) : headerLeft space m₀ l p = m₀.header (blockOf p) := if_neg fresh

theorem aim_of_mem (value : p ≠ 0) (member : p ∈ l) : aim space m₀ l p = copyOf space m₀ l p := by
  rw [aim, if_neg value, headerLeft_of_mem member]

namespace Settled

theorem grow (settled : Settled space m₀ live l word) (grown : l <+: l') : Settled space m₀ live l' word := by
  rcases settled with null | member | ⟨holds, check, q, member, same⟩
  · exact .inl null
  · exact .inr (.inl (grown.subset member))
  · exact .inr (.inr ⟨holds, check, q, grown.subset member, (copyOf_extends grown member).trans same⟩)

/-- What is written for a settled word stays right. -/
theorem aim_extends (settled : Settled space m₀ live l word) (grown : l <+: l')
    (intact : ∀ p ∈ l', m₀.Unmarked p) : aim space m₀ l' word = aim space m₀ l word := by
  unfold aim
  split
  · rfl
  · next value =>
    rcases settled with null | member | ⟨-, check, -⟩
    · exact absurd null value
    · rw [headerLeft_of_mem member, headerLeft_of_mem (grown.subset member), copyOf_extends grown member]
    · have never : word ∉ l' := fun member => by cases check.symm.trans (intact word member)
      rw [headerLeft_of_notMem never, headerLeft_of_notMem fun member => never (grown.subset member)]

/-- It is null or the address of a copy. -/
theorem aim_eq (settled : Settled space m₀ live l word) (value : word ≠ 0)
    (intact : ∀ p ∈ l, m₀.Unmarked p) :
    ∃ q ∈ l, aim space m₀ l word = copyOf space m₀ l q := by
  rcases settled with null | member | ⟨-, check, q, member, same⟩
  · exact absurd null value
  · exact ⟨word, member, aim_of_mem value member⟩
  · have never : word ∉ l := fun known => by cases check.symm.trans (intact word known)
    rw [aim, if_neg value, headerLeft_of_notMem never]
    exact ⟨q, member, same.symm⟩

theorem aim_null_or_copy (settled : Settled space m₀ live l word)
    (intact : ∀ p ∈ l, m₀.Unmarked p) : aim space m₀ l word = 0 ∨ ∃ q ∈ l, copyOf space m₀ l q = aim space m₀ l word := by
  by_cases value : word = 0
  · exact .inl (if_pos value)
  · obtain ⟨q, member, same⟩ := settled.aim_eq value intact
    exact .inr ⟨q, member, same.symm⟩

end Settled

namespace Origin

theorem slot_extends (valid : o.Valid types roots m₀ l) (grown : l <+: l') : o.slot space m₀ l' = o.slot space m₀ l := by
  cases o with
  | root i => rfl
  | word p k => rw [slot, slot, copyOf_extends grown valid.1]

theorem Valid.grow (valid : o.Valid types roots m₀ l) (grown : l <+: l') : o.Valid types roots m₀ l' := by
  cases o with
  | root i => exact valid
  | word p k => exact ⟨grown.subset valid.1, valid.2⟩

end Origin

namespace Footing

variable (footing : Footing types roots resident space m₀ live)

include footing

theorem spans (fit : live p ∧ m₀.Unmarked p) : headerSize + m₀.payloadSize p ≤ m₀.blockSize p :=
  le_footprint (footing.small p fit)

theorem large (fit : live p ∧ m₀.Unmarked p) : headerSize ≤ m₀.blockSize p :=
  Nat.le_trans (Nat.le_add_right _ _) (footing.spans fit)

theorem front (holds : live p) : headerSize ≤ m₀.extent p := by
  unfold Memory.extent
  split
  · next intact => exact footing.large ⟨holds, Header.isIntact_iff.1 intact⟩
  · exact Nat.le_refl _

theorem holds_header (holds : live p) : m₀.holds (blockOf p) headerSize = true :=
  Memory.holds_of_range footing.regular (footing.room p holds) (Nat.le_refl _) (Nat.add_le_add_left (footing.front holds) _)

/-- The places of the words that are followed in an object: behind the protected part of the header, inside the block,
each on its own. -/
theorem place {k : Nat} (fit : live p ∧ m₀.Unmarked p) (member : blockOf p + k ∈ types.visited m₀ p) :
    16 ≤ k ∧ k + wordSize ≤ headerSize + m₀.payloadSize p ∧ wordSize ∣ k := by
  obtain ⟨d, framed⟩ := footing.framed p fit
  obtain ⟨k', same, bounds⟩ := framed.mem_visited member
  obtain rfl : k = k' := Nat.add_left_cancel same
  exact bounds

/-- Different objects have different copies. -/
theorem copyOf_injective (reached : ∀ p ∈ l, live p ∧ m₀.Unmarked p) {q : Nat} (first : p ∈ l) (second : q ∈ l)
    (equal : copyOf space m₀ l p = copyOf space m₀ l q) : p = q := by
  refine Decidable.byContradiction fun different => ?_
  have apart := copyOf_apart space m₀ first second different
  have largeFirst := footing.large (reached _ first)
  have largeSecond := footing.large (reached _ second)
  rw [equal] at apart
  unfold headerSize at *
  omega

end Footing

theorem Departure.spans (departure : Departure types roots resident space m₀) (reach : Reach types roots m₀ p) :
    headerSize + m₀.payloadSize p ≤ m₀.blockSize p :=
  departure.footing.spans ⟨reach, departure.consistent.unmarked p reach⟩

namespace Moving

/-- Only intact objects have been copied. -/
theorem intact (moving : Moving types roots space m₀ live l done e) (p : Nat) (member : p ∈ l) : m₀.Unmarked p :=
  (moving.reached p member).2

variable (footing : Footing types roots resident space m₀ live) (moving : Moving types roots space m₀ live l done e)

include footing moving

theorem regular : e.memory.Regular := footing.regular.of_sameShape moving.shape

theorem total_le : (l.map m₀.blockSize).sum ≤ space.size :=
  footing.total l moving.nodup fun _ member => moving.reached _ member

theorem holds_copy (member : p ∈ l) :
    e.memory.holds (blockOf (copyOf space m₀ l p)) (m₀.blockSize p) = true := by
  have bounds := copyOf_bounds space m₀ member
  have room := moving.total_le footing
  rw [moving.shape.holds]
  exact Memory.holds_of_range footing.regular footing.reserve bounds.1 (by omega)

theorem holds_source (fit : live p ∧ m₀.Unmarked p) : e.memory.holds (blockOf p) (m₀.blockSize p) = true := by
  rw [moving.shape.holds, ← Memory.extent_of_unmarked fit.2]
  exact footing.room p fit.1

theorem holds_front (holds : live p) : e.memory.holds (blockOf p) headerSize = true := by
  rw [moving.shape.holds]
  exact footing.holds_header holds

/-- The place of a traced word in the copy of its object. -/
theorem holds_word {k : Nat} (valid : (Origin.word p k).Valid types roots m₀ l) :
    e.memory.holds (blockOf (copyOf space m₀ l p) + k) wordSize = true := by
  obtain ⟨member, place⟩ := valid
  have holds := moving.reached _ member
  have last := (footing.place holds place).2.1
  have spans := footing.spans holds
  exact Memory.holds_sub (moving.regular footing) (moving.holds_copy footing member) k wordSize (by omega)

/-- A slot that has not been rewritten holds what was found there before the collection. -/
theorem slot_eq (valid : o.Valid types roots m₀ l) (fresh : o ∉ done) :
    e.memory.holdsSlot (o.slot space m₀ l) = true ∧ e.memory.slot (o.slot space m₀ l) = o.original m₀ := by
  cases o with
  | root i =>
    obtain ⟨j, same, below⟩ := footing.cells _ valid
    cases same
    refine ⟨?_, ?_⟩
    · show e.memory.holdsSlot (.cell i) = true
      rw [moving.shape.holdsSlot]
      simpa [Memory.holdsSlot] using below
    · show e.memory.slot (.cell i) = _
      rw [moving.cell, if_neg fresh]
      rfl
  | word p k =>
    have there := moving.holds_word footing valid
    obtain ⟨member, place⟩ := valid
    have holds := moving.reached _ member
    obtain ⟨first, last, whole⟩ := footing.place holds place
    have spans := footing.spans holds
    have old : m₀.holds (blockOf p + k) wordSize = true :=
      Memory.holds_sub footing.regular (moving.shape.holds _ _ ▸ moving.holds_source footing holds) k wordSize (by omega)
    refine ⟨there, Memory.word_congr footing.regular (moving.regular footing) old there fun i lt => ?_⟩
    rw [Nat.add_assoc, Nat.add_assoc]
    apply moving.copied p member (k + i) (by omega)
    intro k' rewritten
    obtain ⟨-, place'⟩ := moving.valid _ rewritten
    have whole' := (footing.place holds place').2.2
    -- Both places are multiples of eight, so two different words have no byte in common.
    have other : k' ≠ k := fun same => fresh (same ▸ rewritten)
    simp only [wordSize] at *
    omega

omit footing in
theorem valid_cons (valid : o.Valid types roots m₀ l) : ∀ x ∈ o :: done, x.Valid types roots m₀ l := by
  intro x member
  rcases List.mem_cons.1 member with rfl | old
  · exact valid
  · exact moving.valid x old

omit footing in
theorem settled_cons (fine : Settled space m₀ live l (o.original m₀)) : ∀ x ∈ o :: done, Settled space m₀ live l (x.original m₀) := by
  intro x member
  rcases List.mem_cons.1 member with rfl | old
  · exact fine
  · exact moving.settled x old

/-- A null word is as it has to be. -/
theorem keep (valid : o.Valid types roots m₀ l) (fresh : o ∉ done) (null : o.original m₀ = 0) :
    Moving types roots space m₀ live l (o :: done) e := by
  have read := (moving.slot_eq footing valid fresh).2
  have value : aim space m₀ l 0 = 0 := if_pos rfl
  rw [null] at read
  refine { moving with
    valid := moving.valid_cons valid, settled := moving.settled_cons (.inl null), copied := ?_, rewritten := ?_
    cell := ?_ }
  · exact fun q member i lt clear => moving.copied q member i lt fun k old => clear k (List.mem_cons_of_mem o old)
  · intro q k member
    rcases List.mem_cons.1 member with rfl | old
    · have word : m₀.word (blockOf q + k) = 0 := null
      rw [word, value]
      exact read
    · exact moving.rewritten q k old
  · intro i
    rw [moving.cell]
    by_cases here : Origin.root i = o
    · subst here
      have zero : m₀.slot (.cell i) = 0 := null
      rw [if_neg fresh, if_pos List.mem_cons_self, zero, value]
    · simp [here]

omit footing in
theorem write_root {i : Nat} (valid : (Origin.root i).Valid types roots m₀ l) (below : i < e.memory.cells.size)
    (fine : Settled space m₀ live l (m₀.slot (.cell i))) : Moving types roots space m₀ live l (.root i :: done)
      { e with memory := e.memory.setSlot (.cell i) (aim space m₀ l (m₀.slot (.cell i))) } := by
  have shape := Memory.sameShape_setSlot e.memory (.cell i) (aim space m₀ l (m₀.slot (.cell i)))
  refine { moving with
    valid := moving.valid_cons valid, settled := moving.settled_cons fine, shape := moving.shape.trans shape
    stayed := moving.stayed, left := moving.left, copied := ?_, rewritten := ?_, elsewhere := moving.elsewhere
    cell := ?_ }
  · exact fun q member j lt clear => moving.copied q member j lt fun k old => clear k (List.mem_cons_of_mem _ old)
  · exact fun q k member => moving.rewritten q k ((List.mem_cons.1 member).resolve_left (by simp))
  · intro j
    show (e.memory.cells.setIfInBounds i _)[j]?.getD 0 = _
    by_cases here : i = j
    · subst here
      rw [Array.getElem?_setIfInBounds_self_of_lt below, if_pos List.mem_cons_self]
      rfl
    · have other : Origin.root j ≠ Origin.root i := fun same => here (Origin.root.inj same).symm
      have old := moving.cell j
      simp only [Memory.slot] at old
      rw [Array.getElem?_setIfInBounds_ne here, old]
      simp [other, Memory.slot]

theorem copyOf_lt (member : p ∈ l) : copyOf space m₀ l p < wordLimit := by
  have small := Memory.holds_lt footing.regular footing.reserve
  have bounds := copyOf_bounds space m₀ member
  have low := footing.large (moving.reached _ member)
  have room := moving.total_le footing
  unfold copyOf at bounds ⊢
  rw [blockOf_payloadOf] at bounds
  unfold payloadOf
  omega

/-- Two words that are traced in the copies are one word or lie apart. -/
theorem words_apart {q k k' : Nat} (first : (Origin.word p k).Valid types roots m₀ l)
    (second : (Origin.word q k').Valid types roots m₀ l) (different : Origin.word q k' ≠ Origin.word p k) :
    blockOf (copyOf space m₀ l q) + k' + wordSize ≤ blockOf (copyOf space m₀ l p) + k ∨
      blockOf (copyOf space m₀ l p) + k + wordSize ≤ blockOf (copyOf space m₀ l q) + k' := by
  have holds := moving.reached _ first.1
  have holds' := moving.reached _ second.1
  obtain ⟨-, last, whole⟩ := footing.place holds first.2
  obtain ⟨-, last', whole'⟩ := footing.place holds' second.2
  have spans := footing.spans holds
  have spans' := footing.spans holds'
  by_cases same : q = p
  · subst same
    have other : k' ≠ k := fun equal => different (equal ▸ rfl)
    simp only [wordSize] at *
    omega
  · have apart := copyOf_apart space m₀ second.1 first.1 same
    omega

-- The written word lies in one copy, and every byte that another field of the invariant speaks of lies outside it:
-- the old places of the objects are not in the reserve, and the copies are apart from each other.
theorem write_word {k : Nat} (valid : (Origin.word p k).Valid types roots m₀ l)
    (value : m₀.word (blockOf p + k) ≠ 0) (fine : Settled space m₀ live l (m₀.word (blockOf p + k)))
    (inWord : e.memory.holds (blockOf (copyOf space m₀ l p) + k) wordSize = true) {v : Nat}
    (new : v = aim space m₀ l (m₀.word (blockOf p + k))) :
    Moving types roots space m₀ live l (.word p k :: done)
      { e with memory := e.memory.setWord (blockOf (copyOf space m₀ l p) + k) v } := by
  have regular := moving.regular footing
  obtain ⟨member, place⟩ := valid
  have holds := moving.reached _ member
  obtain ⟨-, last, whole⟩ := footing.place holds place
  have spans := footing.spans holds
  have bounds := copyOf_bounds space m₀ member
  have room := moving.total_le footing
  have shape := Memory.sameShape_setWord e.memory (blockOf (copyOf space m₀ l p) + k) v
  have outside {a : Nat} (out : a < blockOf (copyOf space m₀ l p) + k ∨ blockOf (copyOf space m₀ l p) + k + wordSize ≤ a) :=
    Memory.byte_setWord_of_outside v inWord out
  have away (q : Nat) (holds' : live q) (i : Nat) (lt : i < m₀.extent q) :
      blockOf q + i < blockOf (copyOf space m₀ l p) + k ∨
        blockOf (copyOf space m₀ l p) + k + wordSize ≤ blockOf q + i := by
    have := footing.away q holds'
    omega
  refine { moving with
    valid := moving.valid_cons ⟨member, place⟩, settled := moving.settled_cons fine
    shape := moving.shape.trans shape, stayed := ?_, left := ?_, copied := ?_, rewritten := ?_, elsewhere := ?_
    cell := ?_ }
  · intro q holds' fresh' i lt
    rw [← moving.stayed q holds' fresh' i lt]
    exact outside (away q holds' i lt)
  · intro q member'
    have holds' := (moving.reached _ member').1
    have front := moving.holds_front footing holds'
    rw [← moving.left q member']
    apply Memory.header_stay regular shape front
    intro i lt
    exact outside (away q holds' i (Nat.lt_of_lt_of_le lt (footing.front holds')))
  · intro q member' i lt clear
    rw [← moving.copied q member' i lt fun k' old => clear k' (List.mem_cons_of_mem _ old)]
    refine outside ?_
    by_cases self : q = p
    · subst self
      have := clear k List.mem_cons_self
      omega
    · have := copyOf_apart space m₀ member' member self
      omega
  · intro q k' rewritten
    show (e.memory.setWord _ v).word _ = _
    by_cases self : Origin.word q k' = Origin.word p k
    · cases self
      obtain ⟨r, known, same⟩ := fine.aim_eq value moving.intact
      rw [Memory.word_setWord inWord, new, Nat.mod_eq_of_lt (same ▸ moving.copyOf_lt footing known)]
    · have old := (List.mem_cons.1 rewritten).resolve_left self
      have valid' := moving.valid _ old
      have within := moving.holds_word footing valid'
      rw [Memory.word_setWord_of_outside regular inWord within
        (moving.words_apart footing ⟨member, place⟩ valid' self), moving.rewritten q k' old]
  · intro a clear out
    rw [← moving.elsewhere a clear out]
    exact outside (by omega)
  · intro i
    show (e.memory.setWord _ v).cells[i]?.getD 0 = _
    rw [Memory.setWord, Memory.cells_modifyArena]
    have old := moving.cell i
    simp only [Memory.slot] at old
    rw [old]
    simp [Memory.slot]

/-- A word is rewritten once it leads to a copy. -/
theorem write (valid : o.Valid types roots m₀ l) (fresh : o ∉ done) (value : o.original m₀ ≠ 0)
    (fine : Settled space m₀ live l (o.original m₀)) : Moving types roots space m₀ live l (o :: done)
      { e with memory := e.memory.setSlot (o.slot space m₀ l) (aim space m₀ l (o.original m₀)) } := by
  have there := (moving.slot_eq footing valid fresh).1
  cases o with
  | root i => exact moving.write_root valid (by simpa [Origin.slot, Memory.holdsSlot] using there) fine
  | word p k => exact moving.write_word footing valid value fine there rfl

end Moving

end

end TracingHeap
