import TracingHeap.Proofs.Heap.Requests
import TracingHeap.Proofs.Program.Store

/-! How a heap represents a store.

The objects that a program can still get at are placed at addresses. The places change with every collection,
and an object that nothing leads to any more has none. -/

set_option autoImplicit false

namespace TracingHeap

/-- A word of memory stands for a value. -/
def Denotes (placed : Nat → Nat → Prop) (word : Nat) : Value → Prop
  | .number n => word = n
  | .object o => placed o word
  | .stale => True

theorem Denotes.mono {placed placed' : Nat → Nat → Prop} {word : Nat} {v : Value} (denotes : Denotes placed word v)
    (more : ∀ o p, placed o p → placed' o p) : Denotes placed' word v := by
  cases v with
  | number n => exact denotes
  | object o => exact more o word denotes
  | stale => trivial

namespace Object

/-- An object of the store is found at an address. -/
structure At (types : TypeTable) (placed : Nat → Nat → Prop) (m : Memory) (p : Nat) (d : Descriptor) (obj : Object) :
    Prop where
  known : types.get? obj.type = some d
  type : (m.header (blockOf p)).typeId = obj.type
  size : m.payloadSize p = obj.size
  orderly : obj.Orderly d
  word : ∀ k, 16 ≤ k → wordSize ∣ k → k + wordSize ≤ headerSize + obj.size →
    Denotes placed (m.word (blockOf p + k)) (obj.word k)

variable {types : TypeTable} {d : Descriptor} {obj : Object} {k : Nat}

theorem word_forget (known : types.get? obj.type = some d) :
    (obj.forget types).word k = if k ∈ obj.places d then obj.word k else (obj.word k).forget := by
  simp only [forget, known]

theorem number_forget (known : types.get? obj.type = some d) : (obj.forget types).number = obj.number := by
  funext k
  rw [number, number, word_forget known]
  split
  · rfl
  · exact Value.count_forget _

theorem places_forget (known : types.get? obj.type = some d) : (obj.forget types).places d = obj.places d := by
  rw [places, number_forget known, places]

theorem Orderly.count (orderly : obj.Orderly d) {r : Region} (region : d.region = some r) :
    obj.word (placeOf r.countOffset) = .number (obj.number (placeOf r.countOffset)) ∧
      obj.number (placeOf r.countOffset) ≤ d.capacity r obj.size := (orderly.1 r region).eq_number

theorem Orderly.forget (orderly : obj.Orderly d) (known : types.get? obj.type = some d) :
    (obj.forget types).Orderly d := by
  constructor
  · intro r region
    obtain ⟨number, fits⟩ := orderly.count region
    rw [word_forget known, number]
    split
    · exact fits
    · exact fits
  · intro k place
    rw [places_forget known] at place
    rw [word_forget known, if_pos place]
    exact orderly.2 k place

/-- The words in memory have the same count. -/
theorem Orderly.elements (orderly : obj.Orderly d) (word : Nat → Nat)
    (same : ∀ r, d.region = some r → word (placeOf r.countOffset) = obj.number (placeOf r.countOffset)) :
    d.elements word = d.elements obj.number ∧ d.CountFits word obj.size := by
  obtain ⟨elements, fits⟩ := Descriptor.elements_congr obj.size obj.number word same
  exact ⟨elements, fits.2 fun r region => (orderly.count region).2⟩

end Object

-- The simulation relation. `placed` is a partial injection from the numbers of objects to addresses; the heap may
-- hold more objects than it places, namely those that it has not reclaimed yet.
/-- A heap represents a store. -/
structure Store.Represents (s : Store) (w : World) (placed : Nat → Nat → Prop) : Prop where
  sound : w.Sound
  types : w.heap.types = s.types
  roots : w.heap.roots = s.roots
  width : w.memory.cells.size = s.cells.size
  functional : ∀ o p q, placed o p → placed o q → p = q
  injective : ∀ o o' p, placed o p → placed o' p → o = o'
  held : ∀ o p, placed o p → w.Held p
  object : ∀ o p, placed o p → ∃ obj d, s.objects[o]? = some obj ∧ obj.At s.types placed w.memory p d
  cell : ∀ x v, s.cells[x]? = some v → Denotes placed (w.memory.slot (.cell x)) v
  root : ∀ x v, Slot.cell x ∈ s.roots.slots → s.cells[x]? = some v → v.IsReference

namespace Store.Represents

variable {s : Store} {w w' : World} {placed : Nat → Nat → Prop} {o p x : Nat} {obj : Object} {d : Descriptor}
  {v : Value} {word : Nat}

theorem isReference (rep : s.Represents w placed) (denotes : Denotes placed word v) (reference : v.IsReference) :
    w.IsReference word := by
  cases v with
  | number n => exact .inl (denotes.trans reference)
  | object o => exact .inr (rep.held o word denotes)
  | stale => exact reference.elim

theorem outline (rep : s.Represents w placed) (here : placed o p) (at' : obj.At s.types placed w.memory p d) :
    Outline w.heap.types w.memory p d (d.elements obj.number) := by
  have regular := rep.sound.books.regular
  obtain ⟨d', count, o'⟩ := rep.sound.consistent.outline p (rep.held o p here)
  have type := o'.type
  rw [at'.type, rep.types, at'.known] at type
  cases type
  have size : (w.memory.header (blockOf p)).size = obj.size := at'.size
  have same (r : Region) (region : d.region = some r) :
      w.memory.word (blockOf p + placeOf r.countOffset) = obj.number (placeOf r.countOffset) := by
    obtain ⟨first, last, aligned, -⟩ := o'.sound.count r region
    have fixed := o'.fixed
    have denotes := at'.word _ first aligned (by omega)
    rwa [(at'.orderly.count region).1] at denotes
  have elements := (at'.orderly.elements (fun k => w.memory.word (blockOf p + k)) same).1
  rw [← elements, ← (o'.count_eq regular).2]
  exact o'

/-- An object is what it was where its bytes stay. -/
theorem at_stay (rep : s.Represents w placed) (here : placed o p) (at' : obj.At s.types placed w.memory p d)
    {m' : Memory} (shape : w.memory.SameShape m')
    (same : ∀ i, i < headerSize + w.memory.payloadSize p → m'.byte (blockOf p + i) = w.memory.byte (blockOf p + i))
    {placed' : Nat → Nat → Prop} (more : ∀ o p, placed o p → placed' o p) : obj.At s.types placed' m' p d := by
  obtain ⟨-, header, words⟩ := (rep.outline here at').stay rep.sound.books.regular shape same
  have size : (w.memory.header (blockOf p)).size = obj.size := at'.size
  constructor
  case known => exact at'.known
  case type =>
    rw [header]
    exact at'.type
  case size =>
    rw [Memory.payloadSize, header]
    exact size
  case orderly => exact at'.orderly
  case word =>
    intro k above whole within
    rw [words k (size ▸ within)]
    exact (at'.word k above whole within).mono more

theorem pos_of_placed (rep : s.Represents w placed) (here : placed o p) : p ≠ 0 := by
  have low := rep.sound.consistent.low (rep.held o p here)
  unfold headerSize at low
  omega

/-! ### Collections -/

/-- Where the objects are after they have been moved. -/
def moved (placed : Nat → Nat → Prop) (w : World) (f : Nat → Nat) (o q : Nat) : Prop :=
  ∃ p, placed o p ∧ Reach w.heap.types w.heap.roots.slots w.memory p ∧ f p = q

variable {f : Nat → Nat}

theorem denotes_moved (rep : s.Represents w placed) (denotes : Denotes placed word v) (reference : v.IsReference)
    (reach : word ≠ 0 → Reach w.heap.types w.heap.roots.slots w.memory word) :
    Denotes (moved placed w f) (relocated f word) v := by
  unfold relocated
  cases v with
  | number n =>
    have null : word = 0 := denotes.trans reference
    rw [if_pos null]
    exact reference.symm
  | object o =>
    have value := rep.pos_of_placed denotes
    rw [if_neg value]
    exact ⟨word, denotes, reach value, rfl⟩
  | stale => exact reference.elim

/-- What is not traced stays where it is. -/
theorem denotes_forget (denotes : Denotes placed word v) {placed' : Nat → Nat → Prop} : Denotes placed' word v.forget := by
  cases v with
  | number n => exact denotes
  | object o => trivial
  | stale => trivial

theorem at_moved (rep : s.Represents w placed) (survives : w.Survives w' f) (here : placed o p)
    (reach : Reach w.heap.types w.heap.roots.slots w.memory p) (at' : obj.At s.types placed w.memory p d) :
    (obj.forget s.types).At s.types (moved placed w f) w'.memory (f p) d := by
  have regular := rep.sound.books.regular
  have relocation := survives.relocation
  have outline := rep.outline here at'
  have low' := survives.sound.consistent.low (survives.held p reach)
  have listed := outline.tracedSlots_eq regular (rep.sound.formed.unmarked p (rep.held o p here)) (by decide)
  have size : w.memory.payloadSize p = obj.size := at'.size
  have size' : w'.memory.payloadSize (f p) = obj.size := (relocation.size p reach).trans size
  have room' := survives.sound.consistent.inside (survives.held p reach)
  rw [relocation.size p reach] at room'
  constructor
  case known => exact at'.known
  case type => exact (relocation.type p reach).trans at'.type
  case size => exact size'
  case orderly => exact at'.orderly.forget at'.known
  case word =>
    intro k above whole within
    change k + wordSize ≤ headerSize + obj.size at within
    rw [Object.word_forget at'.known]
    have denotes := at'.word k above whole within
    split
    · next place =>
      -- A traced word follows its object.
      have member : blockOf p + k ∈ (d.places (d.elements obj.number)).map (blockOf p + ·) := List.mem_map.2 ⟨k, place, rfl⟩
      rw [relocation.word_traced rep.sound.consistent reach outline low' place]
      exact rep.denotes_moved denotes (at'.orderly.2 k place) fun value => .step reach listed member value
    · next free =>
      -- Any other word keeps its bytes: what it denotes is a number, or is out of date now.
      rw [relocation.word_untraced rep.sound.consistent reach outline room' free whole (size ▸ within)]
      exact denotes_forget denotes

/-- After a collection the heap represents what is still known of the store. -/
theorem survive (rep : s.Represents w placed) (survives : w.Survives w' f) :
    s.forget.Represents w' (moved placed w f) := by
  have relocation := survives.relocation
  have cell (x : Nat) (v : Value) (found : s.forget.cells[x]? = some v) : ∃ u, s.cells[x]? = some u ∧
      v = if Slot.cell x ∈ s.roots.slots then u else u.forget := by
    unfold forget at found
    rw [Array.getElem?_mapIdx] at found
    obtain ⟨u, known, rfl⟩ := Option.map_eq_some_iff.1 found
    exact ⟨u, known, rfl⟩
  constructor
  case sound => exact survives.sound
  case types => exact survives.types.trans rep.types
  case roots => exact survives.roots.trans rep.roots
  case width =>
    rw [relocation.shape.cells, rep.width]
    exact Array.size_mapIdx.symm
  case functional =>
    rintro o _ _ ⟨p, here, -, rfl⟩ ⟨q, there, -, rfl⟩
    rw [rep.functional o p q here there]
  case injective =>
    rintro o o' _ ⟨p, here, reach, rfl⟩ ⟨q, there, reach', same⟩
    obtain rfl := relocation.injective q p reach' reach same
    exact rep.injective o o' q here there
  case held =>
    rintro o _ ⟨p, here, reach, rfl⟩
    exact survives.held p reach
  case object =>
    rintro o _ ⟨p, here, reach, rfl⟩
    obtain ⟨obj, d, found, at'⟩ := rep.object o p here
    refine ⟨obj.forget s.types, d, ?_, rep.at_moved survives here reach at'⟩
    show (s.objects.map _)[o]? = _
    rw [Array.getElem?_map, found]
    rfl
  case cell =>
    intro x v found
    obtain ⟨u, known, rfl⟩ := cell x v found
    have denotes := rep.cell x u known
    split
    · next root =>
      have root' : Slot.cell x ∈ w.heap.roots.slots := rep.roots ▸ root
      rw [relocation.root _ root']
      exact rep.denotes_moved denotes (rep.root x u root known) fun value => .root root' value
    · next free =>
      rw [relocation.cell x (rep.roots ▸ free)]
      exact denotes_forget denotes
  case root =>
    intro x v root found
    change Slot.cell x ∈ s.roots.slots at root
    obtain ⟨u, known, rfl⟩ := cell x v found
    rw [if_pos root]
    exact rep.root x u root known

/-! ### Requests -/

/-- A new object has an address of its own. -/
theorem enter (rep : s.Represents w placed) {id : TypeId} {size : Nat} {words : Nat → Nat}
    (admits : w.Admits w' id size words p) (sound : w'.Sound) (known : s.types.get? id = some d)
    (orderly : Object.Orderly d ⟨id, size, fun k => .number (words k)⟩) :
    Represents { s with objects := s.objects.push ⟨id, size, fun k => .number (words k)⟩ } w'
      (fun o q => placed o q ∨ o = s.objects.size ∧ q = p) := by
  -- Objects are numbered in the order of their creation, so the next number has not been placed; nor has the address
  -- been given to an object that is still held.
  have old (o q : Nat) (here : placed o q) : o < s.objects.size := by
    obtain ⟨obj, d, found, -⟩ := rep.object o q here
    exact (Array.getElem?_eq_some_iff.1 found).1
  have fresh (o : Nat) (here : placed o p) : False := admits.fresh (rep.held o p here)
  constructor
  case sound => exact sound
  case types => exact admits.types.trans rep.types
  case roots => exact admits.roots.trans rep.roots
  case width => exact admits.shape.cells.trans rep.width
  case functional =>
    rintro o q q' (here | ⟨rfl, rfl⟩) (there | ⟨same, rfl⟩)
    · exact rep.functional o q q' here there
    · exact absurd (old o q here) (by omega)
    · exact absurd (old _ q' there) (by omega)
    · rfl
  case injective =>
    rintro o o' q (here | ⟨rfl, rfl⟩) (there | ⟨rfl, same⟩)
    · exact rep.injective o o' q here there
    · exact (fresh o (same ▸ here)).elim
    · exact (fresh o' there).elim
    · rfl
  case held =>
    rintro o q (here | ⟨rfl, rfl⟩)
    · exact (admits.held q).2 (.inr (rep.held o q here))
    · exact (admits.held q).2 (.inl rfl)
  case object =>
    rintro o q (here | ⟨rfl, rfl⟩)
    · obtain ⟨obj, d, found, at'⟩ := rep.object o q here
      have same := admits.same q (rep.held o q here)
      refine ⟨obj, d, ?_, rep.at_stay here at' admits.shape same fun _ _ => .inl⟩
      show (s.objects.push _)[o]? = _
      rw [Array.getElem?_push, if_neg (Nat.ne_of_lt (old o q here)), found]
    · refine ⟨_, d, ?_, known, admits.type, admits.length, orderly, fun k above whole within => ?_⟩
      · exact Array.getElem?_push_size
      · exact admits.word k above whole within
  case cell =>
    intro x v found
    have same : w'.memory.slot (.cell x) = w.memory.slot (.cell x) := by simp only [Memory.slot, admits.cells]
    rw [same]
    exact (rep.cell x v found).mono fun _ _ => .inl
  case root => exact rep.root

/-! ### Changes made by a program -/

/-- Types may be added, and cells that hold references may become roots. -/
theorem replace (rep : s.Represents w placed) {types : TypeTable} {roots : RootStack} (checked : types.Checked)
    (grown : ∀ id d, s.types.get? id = some d → types.get? id = some d)
    (fine : ∀ t ∈ roots.slots, t ∈ s.roots.slots ∨ ∃ x v, t = .cell x ∧ s.cells[x]? = some v ∧ v.IsReference) :
    Represents { s with types := types, roots := roots }
      { w with heap := { w.heap with types := types, roots := roots } } placed := by
  constructor
  case sound =>
    apply rep.sound.replace checked (rep.types ▸ grown)
    intro t root
    rcases fine t root with old | ⟨x, v, rfl, found, reference⟩
    · exact .inl (rep.roots ▸ old)
    · have below := (Array.getElem?_eq_some_iff.1 found).1
      exact .inr ⟨⟨x, rfl, rep.width ▸ below⟩, rep.isReference (rep.cell x v found) reference⟩
  case types => rfl
  case roots => rfl
  case width => exact rep.width
  case functional => exact rep.functional
  case injective => exact rep.injective
  case held => exact rep.held
  case object =>
    intro o p here
    obtain ⟨obj, d, found, at'⟩ := rep.object o p here
    exact ⟨obj, d, found, grown _ _ at'.known, at'.type, at'.size, at'.orderly, at'.word⟩
  case cell => exact rep.cell
  case root =>
    intro x v root found
    rcases fine _ root with old | ⟨x', v', same, found', reference⟩
    · exact rep.root x v old found
    · cases same
      cases found.symm.trans found'
      exact reference

theorem retype (rep : s.Represents w placed) (types : TypeTable) (checked : types.Checked)
    (grown : ∀ id d, s.types.get? id = some d → types.get? id = some d) :
    Represents { s with types := types } { w with heap := { w.heap with types := types } } placed := by
  have same : ({ w with heap := { w.heap with types := types, roots := s.roots } } : World) =
      { w with heap := { w.heap with types := types } } := by rw [← rep.roots]
  have replaced := rep.replace checked grown fun _ root => .inl root
  rwa [same] at replaced

theorem reroot (rep : s.Represents w placed) (roots : RootStack)
    (fine : ∀ t ∈ roots.slots, t ∈ s.roots.slots ∨ ∃ x v, t = .cell x ∧ s.cells[x]? = some v ∧ v.IsReference) :
    Represents { s with roots := roots } { w with heap := { w.heap with roots := roots } } placed := by
  have same : ({ w with heap := { w.heap with types := s.types, roots := roots } } : World) =
      { w with heap := { w.heap with roots := roots } } := by rw [← rep.types]
  have replaced := rep.replace (rep.types ▸ rep.sound.books.types) (fun _ _ known => known) fine
  rwa [same] at replaced

theorem setCell (rep : s.Represents w placed) (below : x < s.cells.size) (denotes : Denotes placed word v)
    (reference : v.IsReference) : Represents { s with cells := s.cells.setIfInBounds x v }
      { w with memory := w.memory.setSlot (.cell x) word } placed := by
  constructor
  case sound => exact rep.sound.setCell fun _ => rep.isReference denotes reference
  case types => exact rep.types
  case roots => exact rep.roots
  case width => exact (Array.size_setIfInBounds).trans (rep.width.trans Array.size_setIfInBounds.symm)
  case functional => exact rep.functional
  case injective => exact rep.injective
  case held => exact rep.held
  case object =>
    intro o p here
    obtain ⟨obj, d, found, at'⟩ := rep.object o p here
    exact ⟨obj, d, found, at'.known, at'.type, at'.size, at'.orderly, at'.word⟩
  case cell =>
    intro y u found
    show Denotes placed ((w.memory.cells.setIfInBounds x word)[y]?.getD 0) u
    by_cases same : x = y
    · subst same
      rw [Array.getElem?_setIfInBounds_self_of_lt below] at found
      cases found
      rw [Array.getElem?_setIfInBounds_self_of_lt (rep.width ▸ below)]
      exact denotes
    · rw [Array.getElem?_setIfInBounds_ne same] at found ⊢
      exact rep.cell y u found
  case root =>
    intro y u root found
    by_cases same : x = y
    · subst same
      rw [Array.getElem?_setIfInBounds_self_of_lt below] at found
      cases found
      exact reference
    · rw [Array.getElem?_setIfInBounds_ne same] at found
      exact rep.root y u root found

/-- A word that has been written denotes what the object says there, and the others denote what they did. -/
theorem denotes_put (at' : obj.At s.types placed w.memory p d) (denotes : Denotes placed word v) (k : Nat) {k' : Nat}
    (above : 16 ≤ k') (whole : wordSize ∣ k') (within : k' + wordSize ≤ headerSize + obj.size) :
    Denotes placed (patch k word (fun k' => w.memory.word (blockOf p + k')) k') ((obj.put k v).word k') := by
  show Denotes placed _ (patch k v obj.word k')
  unfold patch
  split
  · exact denotes
  · exact at'.word k' above whole within

theorem elements_put (rep : s.Represents w placed) (here : placed o p) (at' : obj.At s.types placed w.memory p d) {k : Nat}
    (orderly : (obj.put k v).Orderly d) (denotes : Denotes placed word v) :
    d.elements (patch k word fun k' => w.memory.word (blockOf p + k')) = d.elements (obj.put k v).number ∧
      d.CountFits (patch k word fun k' => w.memory.word (blockOf p + k')) obj.size := by
  have outline := rep.outline here at'
  refine orderly.elements _ fun r region => ?_
  obtain ⟨first, last, aligned, -⟩ := outline.sound.count r region
  have fixed := outline.fixed
  have size : (w.memory.header (blockOf p)).size = obj.size := at'.size
  have count := denotes_put at' denotes k first aligned (by omega)
  rwa [(orderly.count region).1] at count

/-- A word of an object may be written as long as the object stays in order. -/
theorem put (rep : s.Represents w placed) (here : placed o p) (found : s.objects[o]? = some obj)
    (at' : obj.At s.types placed w.memory p d) {k : Nat} (above : 16 ≤ k) (whole : wordSize ∣ k)
    (within : k + wordSize ≤ headerSize + obj.size) (orderly : (obj.put k v).Orderly d) (denotes : Denotes placed word v)
    (isWord : word < wordLimit) : w.memory.holds (blockOf p + k) wordSize = true ∧
      Represents { s with objects := s.objects.setIfInBounds o (obj.put k v) }
        { w with memory := w.memory.setWord (blockOf p + k) word } placed := by
  have books := rep.sound.books
  have formed := rep.sound.formed
  have held := rep.held o p here
  have size : w.memory.payloadSize p = obj.size := at'.size
  have patched := formed.patched books held above whole (size ▸ within) isWord
  have outline := rep.outline here at'
  obtain ⟨elements, fits⟩ := rep.elements_put here at' orderly denotes
  have fits' : d.CountFits (patch k word fun k' => w.memory.word (blockOf p + k')) (w.memory.payloadSize p) := by
    rw [size]
    exact fits
  have outline' := patched.outline books.regular outline fits'
  obtain ⟨formed', sizes⟩ := patched.wellFormed formed books held above (size ▸ within) outline fits' fun k' place => by
    obtain ⟨above', within', whole'⟩ := outline'.bounds (books.regular.of_sameShape patched.shape) place
    rw [patched.front] at within'
    refine rep.isReference (denotes_put at' denotes k above' whole' (size ▸ within')) (orderly.2 k' ?_)
    rw [elements] at place
    exact place
  refine ⟨patched.inside, ?_⟩
  constructor
  case sound => exact rep.sound.setMemory patched.shape formed' sizes
  case types => exact rep.types
  case roots => exact rep.roots
  case width => exact patched.shape.cells.trans rep.width
  case functional => exact rep.functional
  case injective => exact rep.injective
  case held => exact rep.held
  case object =>
    intro o' q there
    by_cases equal : o = o'
    · subst equal
      cases rep.functional o p q here there
      refine ⟨obj.put k v, d, ?_, at'.known, ?_, (sizes p held).trans size, orderly, fun k' above' whole' within' => ?_⟩
      · exact Array.getElem?_setIfInBounds_self_of_lt (Array.getElem?_eq_some_iff.1 found).1
      · rw [patched.front]
        exact at'.type
      · rw [patched.word k' above' whole' (size ▸ within')]
        exact denotes_put at' denotes k above' whole' within'
    · obtain ⟨obj', d', found', at''⟩ := rep.object o' q there
      have different : q ≠ p := fun same => equal (rep.injective o o' p here (same ▸ there))
      have same := patched.others q (rep.held o' q there) different
      refine ⟨obj', d', ?_, rep.at_stay there at'' patched.shape same fun _ _ => id⟩
      show (s.objects.setIfInBounds o _)[o']? = _
      rw [Array.getElem?_setIfInBounds_ne equal]
      exact found'
  case cell =>
    intro x u known
    have cells : (w.memory.setWord (blockOf p + k) word).slot (.cell x) = w.memory.slot (.cell x) := by
      simp only [Memory.slot, patched.cells]
    rw [cells]
    exact rep.cell x u known
  case root => exact rep.root

end Store.Represents

end TracingHeap
