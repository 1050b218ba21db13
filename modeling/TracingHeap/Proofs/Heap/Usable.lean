import TracingHeap.Proofs.Heap.Conduct
import TracingHeap.Proofs.Heap.Poison

/-! Heaps that may have run out of memory.

Such a heap serves no requests and collects nothing any more. But its objects are still in order, and a program may go
on reading them and writing to them. -/

set_option autoImplicit false

namespace TracingHeap

def HeapError.IsOutOfMemory (e : HeapError) : Prop :=
  ∃ strategy requested free, e = .outOfMemory strategy requested free

namespace World

/-- The world as it would be without the violation that the heap has observed. -/
def healed (w : World) : World := { w with heap := { w.heap with poisoned := none } }

theorem healed_of_healthy {w : World} (healthy : w.heap.poisoned = none) : w.healed = w := by
  obtain ⟨⟨config, types, roots, collector, poisoned⟩, m⟩ := w
  cases healthy
  rfl

/-- A heap that is in order, and can go on unless it has run out of memory. -/
structure Usable (w : World) : Prop where
  sound : w.healed.Sound
  spent : ∀ e, w.heap.poisoned = some e → e.IsOutOfMemory

theorem Sound.usable {w : World} (sound : w.Sound) : w.Usable where
  sound := by
    rw [healed_of_healthy sound.healthy]
    exact sound
  spent := fun e poisoned => nomatch sound.healthy.symm.trans poisoned

namespace Usable

variable {w : World} (usable : w.Usable)

include usable

theorem sound_of_healthy (healthy : w.heap.poisoned = none) : w.Sound := by
  have sound := usable.sound
  rwa [healed_of_healthy healthy] at sound

theorem books : w.Books := ⟨usable.sound.books.regular, usable.sound.books.types, usable.sound.books.ledger⟩

theorem regular : w.memory.Regular := usable.books.regular

theorem consistent : Consistent w.heap.types w.heap.roots.slots w.Held w.memory := usable.sound.consistent

theorem root {s : Slot} (root : s ∈ w.heap.roots.slots) :
    (∃ i, s = .cell i ∧ i < w.memory.cells.size) ∧ w.IsReference (w.memory.slot s) := usable.sound.formed.root root

/-- References are words. -/
theorem isWord {v : Nat} (reference : w.IsReference v) : v < wordLimit := by
  rcases reference with rfl | held
  · decide
  · have below := Memory.holds_lt usable.regular (usable.consistent.inside held)
    have low := usable.consistent.low held
    unfold blockOf headerSize at *
    omega

theorem replace {types : TypeTable} {roots : RootStack} (checked : types.Checked)
    (grown : ∀ id d, w.heap.types.get? id = some d → types.get? id = some d)
    (fine : ∀ s ∈ roots.slots, s ∈ w.heap.roots.slots ∨
      (∃ i, s = .cell i ∧ i < w.memory.cells.size) ∧ w.IsReference (w.memory.slot s)) :
    Usable { w with heap := { w.heap with types := types, roots := roots } } where
  sound := usable.sound.replace checked grown fine
  spent := usable.spent

end Usable

-- The words of an object are given by their places in its block. What is said of a word may be said of one that has
-- not been written to since.
/-- The objects are where they were, and have the words that they had, except for those that may have been written. -/
structure Keeps (w w' : World) (written : Nat → Nat → Prop) : Prop where
  usable : w'.Usable
  types : ∀ id d, w.heap.types.get? id = some d → w'.heap.types.get? id = some d
  held : ∀ p, w.Held p → w'.Held p
  type : ∀ p, w.Held p → (w'.memory.header (blockOf p)).typeId = (w.memory.header (blockOf p)).typeId
  size : ∀ p, w.Held p → w'.memory.payloadSize p = w.memory.payloadSize p
  word : ∀ p, w.Held p → ∀ k, 16 ≤ k → wordSize ∣ k → k + wordSize ≤ headerSize + w.memory.payloadSize p →
    ¬ written p k → w'.memory.word (blockOf p + k) = w.memory.word (blockOf p + k)

namespace Keeps

variable {w w' w'' : World} {written written' : Nat → Nat → Prop}

theorem refl (usable : w.Usable) (written : Nat → Nat → Prop) : w.Keeps w written :=
  ⟨usable, fun _ _ type => type, fun _ held => held, fun _ _ => rfl, fun _ _ => rfl, fun _ _ _ _ _ _ _ => rfl⟩

theorem trans (first : w.Keeps w' written) (second : w'.Keeps w'' written) : w.Keeps w'' written where
  usable := second.usable
  types := fun id d type => second.types id d (first.types id d type)
  held := fun p held => second.held p (first.held p held)
  type := fun p held => (second.type p (first.held p held)).trans (first.type p held)
  size := fun p held => (second.size p (first.held p held)).trans (first.size p held)
  word := fun p held k above whole within free =>
    (second.word p (first.held p held) k above whole (first.size p held ▸ within) free).trans
      (first.word p held k above whole within free)

theorem mono (keeps : w.Keeps w' written) (more : ∀ p k, written p k → written' p k) : w.Keeps w' written' :=
  { keeps with word := fun p held k above whole within free =>
      keeps.word p held k above whole within (mt (more p k) free) }

/-- Where every byte of an object stays, so does every word. -/
theorem of_same (usable : w.Usable) (usable' : w'.Usable)
    (types : ∀ id d, w.heap.types.get? id = some d → w'.heap.types.get? id = some d)
    (shape : w.memory.SameShape w'.memory) (held : ∀ p, w.Held p → w'.Held p)
    (size : ∀ p, w.Held p → w'.memory.payloadSize p = w.memory.payloadSize p)
    (type : ∀ p, w.Held p → (w'.memory.header (blockOf p)).typeId = (w.memory.header (blockOf p)).typeId)
    (same : ∀ p, w.Held p → ¬ (∃ k, written p k) → ∀ i, i < headerSize + w.memory.payloadSize p →
      w'.memory.byte (blockOf p + i) = w.memory.byte (blockOf p + i))
    (whole : ∀ p k k', written p k → written p k') : w.Keeps w' written where
  usable := usable'
  types := types
  held := held
  type := type
  size := size
  word := by
    intro p holds k _ _ within free
    have inside := usable.consistent.inside holds
    apply Memory.word_stay usable.regular shape (Memory.holds_sub usable.regular inside k wordSize within)
    intro i lt
    rw [Nat.add_assoc]
    exact same p holds (fun ⟨k', other⟩ => free (whole p k' k other)) (k + i) (by omega)

end Keeps

/-- Only the roots and the types have changed. -/
theorem Usable.keeps_replace {w : World} (usable : w.Usable) {types : TypeTable} {roots : RootStack}
    (usable' : Usable { w with heap := { w.heap with types := types, roots := roots } })
    (grown : ∀ id d, w.heap.types.get? id = some d → types.get? id = some d) (written : Nat → Nat → Prop) :
    w.Keeps { w with heap := { w.heap with types := types, roots := roots } } written :=
  { Keeps.refl usable written with usable := usable', types := grown }

/-! ### Writing one word -/

/-- A word of an object has been written. -/
structure Puts (w w' : World) (p k v : Nat) : Prop where
  keeps : w.Keeps w' fun p' k' => p' = p ∧ k' = k
  word : w'.memory.word (blockOf p + k) = v
  heap : w'.heap = w.heap
  shape : w.memory.SameShape w'.memory
  cells : w'.memory.cells = w.memory.cells
  others : ∀ q, w.Held q → q ≠ p → ∀ i, i < headerSize + w.memory.payloadSize q →
    w'.memory.byte (blockOf q + i) = w.memory.byte (blockOf q + i)

/-- A word may be written that is not the count of its object, and holds a reference if it is traced. -/
theorem Usable.put {w : World} (usable : w.Usable) {p k v n : Nat} {d : Descriptor} (holds : w.Held p)
    (o : Outline w.heap.types w.memory p d n) (above : 16 ≤ k) (whole : wordSize ∣ k)
    (within : k + wordSize ≤ headerSize + w.memory.payloadSize p) (isWord : v < wordLimit)
    (other : ∀ r, d.region = some r → placeOf r.countOffset ≠ k) (reference : k ∈ d.places n → w.IsReference v) :
    w.memory.holds (blockOf p + k) wordSize = true ∧
      w.Puts { w with memory := w.memory.setWord (blockOf p + k) v } p k v := by
  have books := usable.books
  have regular := usable.regular
  have sound := usable.sound
  have patched := sound.formed.patched sound.books holds above whole within isWord
  have same (r : Region) (region : d.region = some r) :
      patch k v (fun k' => w.memory.word (blockOf p + k')) (placeOf r.countOffset) =
        w.memory.word (blockOf p + placeOf r.countOffset) := if_neg (other r region)
  obtain ⟨fits, counted⟩ := o.count_eq regular
  obtain ⟨elements, fitting⟩ := Descriptor.elements_congr (w.memory.payloadSize p)
    (fun k' => w.memory.word (blockOf p + k')) (patch k v fun k' => w.memory.word (blockOf p + k')) same
  obtain ⟨formed, sizes⟩ := patched.wellFormed sound.formed sound.books holds above within o (fitting.2 fits) fun k' place => by
    change k' ∈ d.places (d.elements (patch k v fun k' => w.memory.word (blockOf p + k'))) at place
    rw [elements, ← counted] at place
    unfold patch
    split
    · next same =>
      subst same
      exact reference place
    · exact sound.consistent.words p holds _ (o.tracedSlots_eq regular (sound.formed.unmarked p holds) (by decide)) _
        (List.mem_map_of_mem place)
  refine ⟨patched.inside, ?_, ?_, rfl, patched.shape, patched.cells, patched.others⟩
  · constructor
    case usable => exact ⟨sound.setMemory patched.shape formed sizes, usable.spent⟩
    case types => exact fun _ _ type => type
    case held => exact fun _ held => held
    case type =>
      intro q held
      by_cases equal : q = p
      · subst equal
        have front := congrArg Header.typeId patched.front
        exact front
      · have inHeader := sound.consistent.holds_header held
        refine congrArg Header.typeId (Memory.header_stay regular patched.shape inHeader fun i lt => ?_)
        exact patched.others q held equal i (Nat.lt_of_lt_of_le lt (Nat.le_add_right _ _))
    case size => exact sizes
    case word =>
      intro q held k' above' whole' within' free
      by_cases equal : q = p
      · subst equal
        exact (patched.word k' above' whole' within').trans (if_neg fun same => free ⟨rfl, same⟩)
      · have readable := Memory.holds_sub regular (sound.consistent.inside held) k' wordSize within'
        apply Memory.word_stay regular patched.shape readable
        intro i lt
        rw [Nat.add_assoc]
        exact patched.others q held equal (k' + i) (show k' + i < headerSize + w.memory.payloadSize q by omega)
  · exact (patched.word k above whole within).trans (if_pos rfl)

end World

end TracingHeap
