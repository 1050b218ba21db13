import TracingHeap.Proofs.Occupancy
import TracingHeap.Proofs.Program.Represents

/-! What can be reached in a store, and the room that it takes.

A heap places exactly these objects, among others, and gives each the size that it has in the store. So the room
that they take is the same on every heap that represents the store. -/

set_option autoImplicit false

namespace TracingHeap

namespace Store

/-- The objects that the roots of a store lead to. -/
inductive Live (s : Store) : Nat → Prop
  | root {x o : Nat} : Slot.cell x ∈ s.roots.slots → s.cells[x]? = some (.object o) → Live s o
  | step {o o' k : Nat} {obj : Object} {d : Descriptor} : Live s o → s.objects[o]? = some obj →
      s.types.get? obj.type = some d → k ∈ obj.places d → obj.word k = .object o' → Live s o'

/-- The room for an object. -/
def blockSize (s : Store) (o : Nat) : Nat := footprint ((s.objects[o]?.map Object.size).getD 0)

/-- The objects that can be reached take so many bytes in any heap. -/
def LiveBytes (s : Store) (bytes : Nat) : Prop := Totals s.Live s.blockSize bytes

end Store

/-- A reference that is not null leads to an object. -/
theorem Denotes.exists_object {placed : Nat → Nat → Prop} {word : Nat} {v : Value} (denotes : Denotes placed word v)
    (reference : v.IsReference) (value : word ≠ 0) : ∃ o, v = .object o ∧ placed o word := by
  cases v with
  | number n => exact absurd (denotes.trans reference) value
  | object o => exact ⟨o, rfl, denotes⟩
  | stale => exact reference.elim

namespace Store.Represents

variable {s : Store} {w : World} {placed : Nat → Nat → Prop} {o p bytes : Nat}

/-- What can be reached in the heap is placed there by what can be reached in the store. -/
theorem live_of_reach (rep : s.Represents w placed) (reach : Reach w.heap.types w.heap.roots.slots w.memory p) :
    ∃ o, s.Live o ∧ placed o p := by
  induction reach with
  | @root t member value =>
    obtain ⟨x, rfl, below⟩ := rep.sound.formed.outside t member
    obtain ⟨v, found⟩ : ∃ v, s.cells[x]? = some v := ⟨_, Array.getElem?_eq_getElem (rep.width ▸ below)⟩
    have root : Slot.cell x ∈ s.roots.slots := rep.roots ▸ member
    obtain ⟨o, rfl, here⟩ := (rep.cell x v found).exists_object (rep.root x v root found) value
    exact ⟨o, .root root found, here⟩
  | @step p a slots _ listed member value ih =>
    obtain ⟨o, live, here⟩ := ih
    obtain ⟨obj, d, found, at'⟩ := rep.object o p here
    have outline := rep.outline here at'
    obtain rfl : slots = _ := Except.ok.inj (listed.symm.trans
      (outline.tracedSlots_eq rep.sound.books.regular (rep.sound.formed.unmarked p (rep.held o p here)) (by decide)))
    obtain ⟨k, place, rfl⟩ := List.mem_map.1 member
    obtain ⟨above, within, whole⟩ := outline.bounds rep.sound.books.regular place
    have size : (w.memory.header (blockOf p)).size = obj.size := at'.size
    obtain ⟨o', same, there⟩ := (at'.word k above whole (size ▸ within)).exists_object (at'.orderly.2 k place) value
    exact ⟨o', .step live found at'.known place same, there⟩

/-- What can be reached in the store is placed, and can be reached in the heap. -/
theorem reach_of_live (rep : s.Represents w placed) (live : s.Live o) :
    ∃ p, Reach w.heap.types w.heap.roots.slots w.memory p ∧ placed o p := by
  induction live with
  | @root x o member found =>
    have here : placed o (w.memory.slot (.cell x)) := rep.cell x _ found
    exact ⟨_, .root (rep.roots ▸ member) (rep.pos_of_placed here), here⟩
  | @step o o' k obj d _ found known place same ih =>
    obtain ⟨p, reach, here⟩ := ih
    obtain ⟨obj', d', found', at'⟩ := rep.object o p here
    cases found.symm.trans found'
    cases known.symm.trans at'.known
    have outline := rep.outline here at'
    have listed := outline.tracedSlots_eq rep.sound.books.regular (rep.sound.formed.unmarked p (rep.held o p here))
      (by decide)
    obtain ⟨above, within, whole⟩ := outline.bounds rep.sound.books.regular place
    have size : (w.memory.header (blockOf p)).size = obj.size := at'.size
    have there := at'.word k above whole (size ▸ within)
    rw [same] at there
    exact ⟨_, .step reach listed (List.mem_map_of_mem place) (rep.pos_of_placed there), there⟩

theorem blockSize_eq (rep : s.Represents w placed) (here : placed o p) : w.memory.blockSize p = s.blockSize o := by
  obtain ⟨obj, d, found, at'⟩ := rep.object o p here
  have size : (w.memory.header (blockOf p)).size = obj.size := at'.size
  rw [Store.blockSize, found, Option.map_some, Option.getD_some, ← size]
  rfl

/-- The objects that can be reached take the same room in both. -/
theorem occupied_iff (rep : s.Represents w placed) :
    Occupied w.heap.types w.heap.roots.slots w.memory bytes ↔ s.LiveBytes bytes := by
  constructor
  · intro occupied
    refine Totals.transfer (R := fun p o => placed o p) occupied (fun _ => rep.live_of_reach) (fun _ => rep.reach_of_live) ?_ ?_ ?_
    · exact fun p o o' here there => rep.injective o o' p here there
    · exact fun p q o here there => rep.functional o p q here there
    · exact fun p o _ here => (rep.blockSize_eq here).symm
  · intro occupied
    refine Totals.transfer (R := placed) occupied (fun _ => rep.reach_of_live) (fun _ => rep.live_of_reach) ?_ ?_ ?_
    · exact fun o p q here there => rep.functional o p q here there
    · exact fun o o' p here there => rep.injective o o' p here there
    · exact fun o p _ here => rep.blockSize_eq here

end Store.Represents

end TracingHeap
