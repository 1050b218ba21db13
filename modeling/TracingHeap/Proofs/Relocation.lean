import TracingHeap.Proofs.Graph

/-! What a collection does to the objects that can be reached.

They may be elsewhere afterwards, and every traced word that led to an object leads to its new place.
Nothing else about them changes. -/

set_option autoImplicit false

namespace TracingHeap

/-- The word that takes the place of a reference. -/
def relocated (f : Nat → Nat) (word : Nat) : Nat := if word = 0 then 0 else f word

theorem relocated_of_ne {f : Nat → Nat} {word : Nat} (value : word ≠ 0) : relocated f word = f word := if_neg value

@[simp] theorem relocated_zero (f : Nat → Nat) : relocated f 0 = 0 := if_pos rfl

@[simp] theorem relocated_id (word : Nat) : relocated id word = word := by
  unfold relocated
  split <;> simp_all

/-- Null stays null on the way through `f`, and any other word goes where `h` takes it from there. -/
theorem relocated_relocated {f g h : Nat → Nat} {word : Nat} (value : word ≠ 0 → f word ≠ 0)
    (leads : word ≠ 0 → h (f word) = g word) : relocated h (relocated f word) = relocated g word := by
  by_cases null : word = 0
  · simp only [null, relocated_zero]
  · rw [relocated_of_ne null, relocated_of_ne null, relocated_of_ne (value null), leads null]

structure Relocation (types : TypeTable) (roots : List Slot) (m m' : Memory) (f : Nat → Nat) : Prop where
  injective : ∀ p q, Reach types roots m p → Reach types roots m q → f p = f q → p = q
  root : ∀ s ∈ roots, m'.slot s = relocated f (m.slot s)
  /-- The cells that no root names keep their words. -/
  cell : ∀ i, Slot.cell i ∉ roots → m'.slot (.cell i) = m.slot (.cell i)
  shape : m.SameShape m'
  unmarked : ∀ p, Reach types roots m p → (m'.header (blockOf (f p))).check = .ok .unmarked
  type : ∀ p, Reach types roots m p → (m'.header (blockOf (f p))).typeId = (m.header (blockOf p)).typeId
  size : ∀ p, Reach types roots m p → m'.payloadSize (f p) = m.payloadSize p
  slots : ∀ p, Reach types roots m p → ∀ slots, types.tracedSlots m p = .ok slots →
    types.tracedSlots m' (f p) = .ok (slots.map (· + f p - p))
  word : ∀ p, Reach types roots m p → ∀ slots, types.tracedSlots m p = .ok slots → ∀ a ∈ slots,
    m'.word (a + f p - p) = relocated f (m.word a)
  /-- The bytes that are not in a traced word stay, the header among them. -/
  byte : ∀ p, Reach types roots m p → ∀ slots, types.tracedSlots m p = .ok slots →
    ∀ i, i < headerSize + m.payloadSize p → (∀ a ∈ slots, blockOf p + i < a ∨ a + wordSize ≤ blockOf p + i) →
      m'.byte (blockOf (f p) + i) = m.byte (blockOf p + i)

namespace Relocation

variable {types : TypeTable} {roots : List Slot} {held : Nat → Prop} {m m' : Memory} {f : Nat → Nat}

/-- Where every byte of the objects and every cell stays, nothing has moved. -/
theorem of_same (consistent : Consistent types roots held m) (shape : m.SameShape m') (cells : m'.cells = m.cells)
    (same : ∀ p, Reach types roots m p → ∀ i, i < headerSize + m.payloadSize p →
      m'.byte (blockOf p + i) = m.byte (blockOf p + i)) : Relocation types roots m m' id := by
  have regular := consistent.regular
  have regular' := regular.of_sameShape shape
  have slot (i : Nat) : m'.slot (.cell i) = m.slot (.cell i) := by
    simp only [Memory.slot, cells]
  have stays (p : Nat) (reach : Reach types roots m p) : ∃ d count, Outline types m p d count ∧
      types.tracedSlots m p = .ok ((d.places count).map (blockOf p + ·)) ∧ Outline types m' p d count ∧
      m'.header (blockOf p) = m.header (blockOf p) ∧ ∀ k, k + wordSize ≤ headerSize + m.payloadSize p →
        m'.word (blockOf p + k) = m.word (blockOf p + k) := by
    obtain ⟨d, count, o, listed⟩ := consistent.tracedSlots_eq (consistent.held_of_reach reach)
    exact ⟨d, count, o, listed, o.stay regular shape (same p reach)⟩
  have header (p : Nat) (reach : Reach types roots m p) : m'.header (blockOf p) = m.header (blockOf p) := by
    obtain ⟨d, count, -, -, -, header, -⟩ := stays p reach
    exact header
  constructor
  case injective => exact fun p q _ _ same => same
  case root =>
    intro s root
    obtain ⟨i, rfl, -⟩ := consistent.cells s root
    rw [slot, relocated_id]
  case cell => exact fun i _ => slot i
  case shape => exact shape
  case unmarked =>
    intro p reach
    show (m'.header (blockOf p)).check = _
    rw [header p reach]
    exact consistent.unmarked p (consistent.held_of_reach reach)
  case type =>
    intro p reach
    show (m'.header (blockOf p)).typeId = _
    rw [header p reach]
  case size =>
    intro p reach
    show (m'.header (blockOf p)).size = _
    rw [header p reach]
    rfl
  case slots =>
    intro p reach slots listed
    obtain ⟨d, count, -, found, o', -, -⟩ := stays p reach
    obtain rfl : slots = _ := Except.ok.inj (listed.symm.trans found)
    have check : (m'.header (blockOf p)).check = .ok .unmarked := by
      rw [header p reach]
      exact consistent.unmarked p (consistent.held_of_reach reach)
    show types.tracedSlots m' p = _
    rw [o'.tracedSlots_eq regular' check (by decide)]
    simp
  case word =>
    intro p reach slots listed a member
    obtain ⟨d, count, o, found, -, -, word⟩ := stays p reach
    obtain rfl : slots = _ := Except.ok.inj (listed.symm.trans found)
    obtain ⟨k, place, rfl⟩ := List.mem_map.1 member
    rw [id, Nat.add_sub_cancel, word k (o.bounds regular place).2.1, relocated_id]
  case byte => exact fun p reach _ _ i lt _ => same p reach i lt

/-- Only which slots are roots matters. -/
theorem congr_roots (relocation : Relocation types roots m m' f) {roots' : List Slot}
    (same : ∀ s, s ∈ roots' ↔ s ∈ roots) : Relocation types roots' m m' f := by
  have back {p : Nat} (reach : Reach types roots' m p) : Reach types roots m p := reach.congr_roots same
  constructor
  case injective => exact fun p q first second => relocation.injective p q (back first) (back second)
  case root => exact fun s root => relocation.root s ((same s).1 root)
  case cell => exact fun i other => relocation.cell i fun root => other ((same _).2 root)
  case shape => exact relocation.shape
  case unmarked => exact fun p reach => relocation.unmarked p (back reach)
  case type => exact fun p reach => relocation.type p (back reach)
  case size => exact fun p reach => relocation.size p (back reach)
  case slots => exact fun p reach => relocation.slots p (back reach)
  case word => exact fun p reach => relocation.word p (back reach)
  case byte => exact fun p reach => relocation.byte p (back reach)

/-- Only what the table says about the types matters. -/
theorem congr_types (relocation : Relocation types roots m m' f) {types' : TypeTable}
    (same : ∀ id, types'.get? id = types.get? id) : Relocation types' roots m m' f := by
  have listing := TypeTable.tracedSlots_congr same
  have back {p : Nat} (reach : Reach types' roots m p) : Reach types roots m p :=
    reach.congr_types fun id => (same id).symm
  have known {p : Nat} {slots : List Nat} (listed : types'.tracedSlots m p = .ok slots) :
      types.tracedSlots m p = .ok slots := (listing m p).symm.trans listed
  constructor
  case injective => exact fun p q first second => relocation.injective p q (back first) (back second)
  case root => exact relocation.root
  case cell => exact relocation.cell
  case shape => exact relocation.shape
  case unmarked => exact fun p reach => relocation.unmarked p (back reach)
  case type => exact fun p reach => relocation.type p (back reach)
  case size => exact fun p reach => relocation.size p (back reach)
  case slots => exact fun p reach slots listed => (listing _ _).trans (relocation.slots p (back reach) slots (known listed))
  case word => exact fun p reach slots listed => relocation.word p (back reach) slots (known listed)
  case byte => exact fun p reach slots listed => relocation.byte p (back reach) slots (known listed)

/-- What can be reached afterwards are the new places of what could be reached. -/
theorem reach_iff (relocation : Relocation types roots m m' f) (consistent : Consistent types roots held m)
    (value : ∀ p, Reach types roots m p → f p ≠ 0) {q : Nat} :
    Reach types roots m' q ↔ ∃ p, Reach types roots m p ∧ f p = q := by
  have follow {word : Nat} (reach : Reach types roots m word) : relocated f word = f word := by
    have low := consistent.low (consistent.held_of_reach reach)
    unfold relocated
    rw [if_neg (by unfold headerSize at low; omega)]
  have back {word : Nat} (led : relocated f word ≠ 0) : word ≠ 0 := fun null => led (if_pos null)
  constructor
  · intro reach
    induction reach with
    | @root s root led =>
      rw [relocation.root s root] at led ⊢
      have start : Reach types roots m (m.slot s) := .root root (back led)
      exact ⟨_, start, (follow start).symm⟩
    | @step q a' slots' _ listed' member' led ih =>
      obtain ⟨p, reach, rfl⟩ := ih
      obtain ⟨d, count, -, listed⟩ := consistent.tracedSlots_eq (consistent.held_of_reach reach)
      obtain rfl : slots' = _ := Except.ok.inj (listed'.symm.trans (relocation.slots p reach _ listed))
      obtain ⟨a, member, rfl⟩ := List.mem_map.1 member'
      rw [relocation.word p reach _ listed a member] at led ⊢
      have next : Reach types roots m (m.word a) := .step reach listed member (back led)
      exact ⟨_, next, (follow next).symm⟩
  · rintro ⟨p, reach, rfl⟩
    induction reach with
    | @root s root led =>
      have start : Reach types roots m (m.slot s) := .root root led
      have moved : m'.slot s = f (m.slot s) := (relocation.root s root).trans (follow start)
      rw [← moved]
      exact .root root (moved ▸ value _ start)
    | @step p a slots reach listed member led ih =>
      have next : Reach types roots m (m.word a) := .step reach listed member led
      have moved : m'.word (a + f p - p) = f (m.word a) :=
        (relocation.word p reach _ listed a member).trans (follow next)
      rw [← moved]
      exact .step ih (relocation.slots p reach _ listed) (List.mem_map_of_mem member) (moved ▸ value _ next)

/-- Where a traced slot of an object is, and where it is if the object is at `q`. -/
theorem place_moved (consistent : Consistent types roots held m) {p q a : Nat} (holds : held p) {slots : List Nat}
    (listed : types.tracedSlots m p = .ok slots) (slot : a ∈ slots) (low : headerSize ≤ q) :
    ∃ k, a = blockOf p + k ∧ a + q - p = blockOf q + k := by
  obtain ⟨d, count, -, found⟩ := consistent.tracedSlots_eq holds
  obtain rfl : slots = _ := Except.ok.inj (listed.symm.trans found)
  obtain ⟨k, place, rfl⟩ := List.mem_map.1 slot
  have here := consistent.low holds
  refine ⟨k, rfl, ?_⟩
  unfold blockOf
  omega

/-- A slot that has gone with its object to `q` and then to `r` is where it is if the object goes to `r` at once. -/
theorem place_moved_twice (consistent : Consistent types roots held m) {p q r a : Nat} (holds : held p) {slots : List Nat}
    (listed : types.tracedSlots m p = .ok slots) (slot : a ∈ slots) (low : headerSize ≤ q) :
    a + q - p + r - q = a + r - p := by
  obtain ⟨k, same, there⟩ := place_moved consistent holds listed slot low
  have here := consistent.low holds
  unfold blockOf at *
  omega

/-- What can be reached is what the roots and the traced words say, so an object is in one place only. -/
theorem unique {g : Nat → Nat} (first : Relocation types roots m m' f) (second : Relocation types roots m m' g) {p : Nat}
    (reach : Reach types roots m p) : f p = g p := by
  induction reach with
  | root member value =>
    rw [← relocated_of_ne (f := f) value, ← relocated_of_ne (f := g) value, ← first.root _ member, second.root _ member]
  | @step p a slots reach listed member value ih =>
    have moved := first.word p reach slots listed a member
    rw [ih, second.word p reach slots listed a member] at moved
    rw [← relocated_of_ne (f := f) value, ← relocated_of_ne (f := g) value, moved]

section

variable {d : Descriptor} {n k p : Nat} (relocation : Relocation types roots m m' f)
  (consistent : Consistent types roots held m) (reach : Reach types roots m p) (o : Outline types m p d n)

include relocation consistent reach o

/-- A traced word follows its object. -/
theorem word_traced (low : headerSize ≤ f p) (place : k ∈ d.places n) :
    m'.word (blockOf (f p) + k) = relocated f (m.word (blockOf p + k)) := by
  have listed := o.tracedSlots_eq consistent.regular (consistent.unmarked p (consistent.held_of_reach reach)) (by decide)
  have rewritten := relocation.word p reach _ listed _ (List.mem_map.2 ⟨k, place, rfl⟩)
  have here := o.low
  have address : blockOf p + k + f p - p = blockOf (f p) + k := by unfold blockOf; omega
  rwa [address] at rewritten

/-- Any other word stays what it is. -/
theorem word_untraced (inside : m'.holds (blockOf (f p)) (headerSize + m.payloadSize p) = true) (free : k ∉ d.places n)
    (whole : wordSize ∣ k) (within : k + wordSize ≤ headerSize + m.payloadSize p) :
    m'.word (blockOf (f p) + k) = m.word (blockOf p + k) := by
  have regular := consistent.regular
  have listed := o.tracedSlots_eq regular (consistent.unmarked p (consistent.held_of_reach reach)) (by decide)
  apply Memory.word_congr regular (regular.of_sameShape relocation.shape)
    (Memory.holds_sub regular o.inside k wordSize within)
    (Memory.holds_sub (regular.of_sameShape relocation.shape) inside k wordSize within)
  intro i lt
  rw [Nat.add_assoc, Nat.add_assoc]
  apply relocation.byte p reach _ listed (k + i) (by omega)
  intro a member
  obtain ⟨k', place, rfl⟩ := List.mem_map.1 member
  have aligned := (o.bounds regular place).2.2
  have different : k ≠ k' := fun same => free (same ▸ place)
  simp only [wordSize] at *
  omega

end

/-- One relocation after another. -/
theorem trans {m₁ m₂ : Memory} {g : Nat → Nat} (first : Relocation types roots m m₁ f)
    (second : Relocation types roots m₁ m₂ g) (consistent : Consistent types roots held m)
    (low : ∀ p, Reach types roots m p → headerSize ≤ f p) : Relocation types roots m m₂ (g ∘ f) := by
  have value (p : Nat) (reach : Reach types roots m p) : f p ≠ 0 :=
    Nat.ne_of_gt (Nat.lt_of_lt_of_le (by decide) (low p reach))
  have next {p : Nat} (reach : Reach types roots m p) : Reach types roots m₁ (f p) :=
    (first.reach_iff consistent value).2 ⟨p, reach, rfl⟩
  have word_eq {word : Nat} (reach : word ≠ 0 → Reach types roots m word) :
      relocated g (relocated f word) = relocated (g ∘ f) word :=
    relocated_relocated (fun led => value word (reach led)) fun _ => rfl
  have shift {p : Nat} (reach : Reach types roots m p) {slots : List Nat} (listed : types.tracedSlots m p = .ok slots)
      {a : Nat} (slot : a ∈ slots) : a + f p - p + g (f p) - f p = a + g (f p) - p :=
    place_moved_twice consistent (consistent.held_of_reach reach) listed slot (low p reach)
  constructor
  case injective =>
    intro p q reach reach' same
    exact first.injective p q reach reach' (second.injective _ _ (next reach) (next reach') same)
  case root =>
    intro s root
    rw [second.root s root, first.root s root, word_eq fun value => .root root value]
  case cell => exact fun i other => (second.cell i other).trans (first.cell i other)
  case shape => exact first.shape.trans second.shape
  case unmarked => exact fun p reach => second.unmarked (f p) (next reach)
  case type => exact fun p reach => (second.type (f p) (next reach)).trans (first.type p reach)
  case size => exact fun p reach => (second.size (f p) (next reach)).trans (first.size p reach)
  case slots =>
    intro p reach slots listed
    refine (second.slots (f p) (next reach) _ (first.slots p reach slots listed)).trans ?_
    rw [List.map_map]
    exact congrArg Except.ok (List.map_congr_left fun a slot => shift reach listed slot)
  case word =>
    intro p reach slots listed a slot
    have moved := second.word (f p) (next reach) _ (first.slots p reach slots listed) _ (List.mem_map_of_mem slot)
    rw [shift reach listed slot, first.word p reach slots listed a slot,
      word_eq fun value => .step reach listed slot value] at moved
    exact moved
  case byte =>
    intro p reach slots listed i lt clear
    have listed₁ := first.slots p reach slots listed
    refine (second.byte (f p) (next reach) _ listed₁ i (first.size p reach ▸ lt) fun a₁ slot₁ => ?_).trans
      (first.byte p reach slots listed i lt clear)
    obtain ⟨a, slot, rfl⟩ := List.mem_map.1 slot₁
    obtain ⟨k, rfl, there⟩ := place_moved consistent (consistent.held_of_reach reach) listed slot (low p reach)
    have away := clear _ slot
    omega

section

variable {roots' : List Slot} {x : Nat} (cells : ∀ s ∈ roots, ∃ i, s = .cell i ∧ i < m.cells.size)

include cells

theorem slot_push {s : Slot} (root : s ∈ roots) : Memory.slot { m with cells := m.cells.push x } s = m.slot s := by
  obtain ⟨i, rfl, below⟩ := cells s root
  simp only [Memory.slot, Array.getElem?_push_lt below, Array.getElem?_eq_getElem below]

/-- What can be reached can be reached when there are more roots, one of them a new cell. -/
theorem reach_push (more : ∀ s ∈ roots, s ∈ roots') {p : Nat} (reach : Reach types roots m p) :
    Reach types roots' { m with cells := m.cells.push x } p := by
  induction reach with
  | @root s member value =>
    have same := slot_push (x := x) cells member
    rw [← same]
    exact .root (more s member) (same ▸ value)
  | step _ listed member value ih => exact .step ih listed member value

/-- A root that an action has had for itself is gone with it. -/
theorem withoutCell (relocation : Relocation types roots' { m with cells := m.cells.push x } m' f)
    (same : ∀ s, s ∈ roots' ↔ s = .cell m.cells.size ∨ s ∈ roots) :
    Relocation types roots m { m' with cells := m'.cells.pop } f := by
  have more (s : Slot) (root : s ∈ roots) : s ∈ roots' := (same s).2 (.inr root)
  have next {p : Nat} (reach : Reach types roots m p) := reach_push (x := x) cells more reach
  have size : m'.cells.size = m.cells.size + 1 := by simpa using relocation.shape.cells
  have slot {i : Nat} (below : i < m.cells.size) :
      Memory.slot { m' with cells := m'.cells.pop } (.cell i) = m'.slot (.cell i) := by
    simp only [Memory.slot, Array.getElem?_pop, size, Nat.add_sub_cancel, if_pos below]
  constructor
  case injective => exact fun p q first second => relocation.injective p q (next first) (next second)
  case root =>
    intro s root
    obtain ⟨i, rfl, below⟩ := cells s root
    rw [slot below, relocation.root _ (more _ root), slot_push cells root]
  case cell =>
    intro i other
    by_cases below : i < m.cells.size
    · have free : Slot.cell i ∉ roots' := by
        intro root
        rcases (same _).1 root with equal | old
        · exact Nat.ne_of_lt below (Slot.cell.inj equal)
        · exact other old
      rw [slot below, relocation.cell i free]
      simp only [Memory.slot, Array.getElem?_push_lt below, Array.getElem?_eq_getElem below]
    · have behind : m'.cells.pop.size ≤ i := by
        rw [Array.size_pop, size]
        omega
      simp only [Memory.slot, Array.getElem?_eq_none behind, Array.getElem?_eq_none (Nat.le_of_not_lt below)]
  case shape => exact ⟨relocation.shape.extents, by simp [size]⟩
  case unmarked => exact fun p reach => relocation.unmarked p (next reach)
  case type => exact fun p reach => relocation.type p (next reach)
  case size => exact fun p reach => relocation.size p (next reach)
  case slots => exact fun p reach => relocation.slots p (next reach)
  case word => exact fun p reach => relocation.word p (next reach)
  case byte => exact fun p reach => relocation.byte p (next reach)

end

/-- No two objects have gone to one place, so each place says which object is there, and with it where `g` takes it. -/
theorem exists_onward (relocation : Relocation types roots m m' f) (g : Nat → Nat) :
    ∃ h : Nat → Nat, ∀ p, Reach types roots m p → h (f p) = g p := by
  have target (q : Nat) : ∃ r, ∀ p, Reach types roots m p → f p = q → r = g p := by
    by_cases comes : ∃ p, Reach types roots m p ∧ f p = q
    · obtain ⟨p, reach, from'⟩ := comes
      exact ⟨g p, fun p' reach' from'' => congrArg g (relocation.injective p p' reach reach' (from'.trans from''.symm))⟩
    · exact ⟨0, fun p reach from' => absurd ⟨p, reach, from'⟩ comes⟩
  obtain ⟨h, leads⟩ := Classical.axiomOfChoice target
  exact ⟨h, fun p reach => leads (f p) p reach rfl⟩

-- Every object that the first leaves comes from one, and the second has put that one somewhere.
/-- Two relocations of the same objects lead from one to the other. -/
theorem between {m₁ m₂ : Memory} {g : Nat → Nat} (first : Relocation types roots m m₁ f)
    (second : Relocation types roots m m₂ g) (consistent : Consistent types roots (Reach types roots m) m)
    (low : ∀ p, Reach types roots m p → headerSize ≤ f p) :
    ∃ h, (∀ p, Reach types roots m p → h (f p) = g p) ∧ Relocation types roots m₁ m₂ h := by
  obtain ⟨h, back⟩ := first.exists_onward g
  have value (p : Nat) (reach : Reach types roots m p) : f p ≠ 0 :=
    Nat.ne_of_gt (Nat.lt_of_lt_of_le (by decide) (low p reach))
  have origin {q : Nat} (reach : Reach types roots m₁ q) : ∃ p, Reach types roots m p ∧ f p = q :=
    (first.reach_iff consistent value).1 reach
  have word_eq {word : Nat} (reach : word ≠ 0 → Reach types roots m word) :
      relocated h (relocated f word) = relocated g word :=
    relocated_relocated (fun led => value word (reach led)) fun led => back word (reach led)
  have listing {p : Nat} (reach : Reach types roots m p) {slots₁ : List Nat}
      (listed₁ : types.tracedSlots m₁ (f p) = .ok slots₁) : ∃ slots, types.tracedSlots m p = .ok slots ∧
        slots₁ = slots.map (· + f p - p) ∧ ∀ a ∈ slots, a + f p - p + g p - f p = a + g p - p := by
    obtain ⟨slots, listed⟩ := consistent.listed p reach
    exact ⟨slots, listed, Except.ok.inj (listed₁.symm.trans (first.slots p reach slots listed)),
      fun a slot => place_moved_twice consistent reach listed slot (low p reach)⟩
  refine ⟨h, back, ?_⟩
  constructor
  case injective =>
    intro q q' reach reach' same
    obtain ⟨p, old, rfl⟩ := origin reach
    obtain ⟨p', old', rfl⟩ := origin reach'
    rw [back p old, back p' old'] at same
    exact congrArg f (second.injective p p' old old' same)
  case root =>
    intro s root
    rw [second.root s root, first.root s root, word_eq fun value => .root root value]
  case cell => exact fun i other => (second.cell i other).trans (first.cell i other).symm
  case shape => exact first.shape.symm.trans second.shape
  case unmarked =>
    intro q reach
    obtain ⟨p, old, rfl⟩ := origin reach
    rw [back p old]
    exact second.unmarked p old
  case type =>
    intro q reach
    obtain ⟨p, old, rfl⟩ := origin reach
    rw [back p old, second.type p old, first.type p old]
  case size =>
    intro q reach
    obtain ⟨p, old, rfl⟩ := origin reach
    rw [back p old, second.size p old, first.size p old]
  case slots =>
    intro q reach slots₁ listed₁
    obtain ⟨p, old, rfl⟩ := origin reach
    obtain ⟨slots, listed, rfl, shift⟩ := listing old listed₁
    rw [back p old, second.slots p old slots listed, List.map_map]
    exact congrArg Except.ok (List.map_congr_left fun a slot => (shift a slot).symm)
  case word =>
    intro q reach slots₁ listed₁ a₁ slot₁
    obtain ⟨p, old, rfl⟩ := origin reach
    obtain ⟨slots, listed, rfl, shift⟩ := listing old listed₁
    obtain ⟨a, slot, rfl⟩ := List.mem_map.1 slot₁
    rw [back p old, shift a slot, second.word p old slots listed a slot, first.word p old slots listed a slot,
      word_eq fun value => .step old listed slot value]
  case byte =>
    intro q reach slots₁ listed₁ i lt clear₁
    obtain ⟨p, old, rfl⟩ := origin reach
    obtain ⟨slots, listed, rfl, shift⟩ := listing old listed₁
    rw [first.size p old] at lt
    have clear (a : Nat) (slot : a ∈ slots) : blockOf p + i < a ∨ a + wordSize ≤ blockOf p + i := by
      obtain ⟨k, rfl, there⟩ := place_moved consistent old listed slot (low p old)
      have away := clear₁ _ (List.mem_map_of_mem slot)
      omega
    rw [back p old, second.byte p old slots listed i lt clear, first.byte p old slots listed i lt clear]

end Relocation

end TracingHeap
