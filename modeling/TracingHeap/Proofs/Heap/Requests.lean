import TracingHeap.Heap.Allocation
import TracingHeap.Proofs.Collector.Grants
import TracingHeap.Proofs.Heap.Survival

/-! Requests for objects.

A request is served from the free space or, if that does not do, after one collection. Either way the object is a
new one: it meets none that is held, its payload is zeroed, and nothing else has changed. -/

set_option autoImplicit false

namespace TracingHeap

/-- The memory with a zeroed object in a block. -/
def Memory.fresh (m : Memory) (block : Nat) (id : TypeId) (size : Nat) : Memory :=
  (m.clear block (footprint size)).setHeader block (Header.fresh id size)

namespace Memory

variable {m : Memory} {block size : Nat} {id : TypeId} (regular : m.Regular)
  (room : m.holds block (footprint size) = true) (small : size ≤ largestPayload)

theorem sameShape_fresh (m : Memory) (block : Nat) (id : TypeId) (size : Nat) : m.SameShape (m.fresh block id size) :=
  (sameShape_clear ..).trans (sameShape_setHeader ..)

theorem cells_fresh (m : Memory) (block : Nat) (id : TypeId) (size : Nat) : (m.fresh block id size).cells = m.cells := by
  unfold fresh setHeader clear
  rw [cells_modifyArena, cells_modifyArena]

include regular room small

theorem holds_front_fresh : (m.clear block (footprint size)).holds block headerSize = true := by
  rw [(sameShape_clear ..).holds]
  exact holds_of_range regular room (Nat.le_refl _)
    (Nat.add_le_add_left (Nat.le_trans (Nat.le_add_right _ _) (le_footprint small)) _)

theorem run_fresh : (do
      Access.clear block (footprint size)
      Access.storeHeader block (Header.fresh id size)) m = .ok () (m.fresh block id size) := by
  have cleared : Access.clear block (footprint size) m = .ok () (m.clear block (footprint size)) :=
    Access.guarded_ok room
  rw [run_bind cleared]
  exact Access.guarded_ok (holds_front_fresh regular room small)

theorem header_fresh : (m.fresh block id size).header block = Header.fresh id size :=
  header_setHeader (holds_front_fresh regular room small) _ (Nat.lt_of_le_of_lt small (by decide))
    (by decide : 0 < wordLimit)

theorem byte_fresh_of_outside {a : Nat} (out : a < block ∨ block + footprint size ≤ a) :
    (m.fresh block id size).byte a = m.byte a := by
  have spans := le_footprint small
  rw [fresh, byte_setHeader_of_outside _ (holds_front_fresh regular room small) (by omega),
    byte_clear regular room, if_neg (by omega)]

theorem byte_fresh_of_payload {i : Nat} (low : headerSize ≤ i) (high : i < footprint size) :
    (m.fresh block id size).byte (block + i) = 0 := by
  rw [fresh, byte_setHeader_of_outside _ (holds_front_fresh regular room small) (by omega),
    byte_clear regular room, if_pos (by omega)]

/-- Behind the first half of the header everything is zero. -/
theorem word_fresh {k : Nat} (low : 16 ≤ k) (aligned : wordSize ∣ k) (high : k + wordSize ≤ headerSize + size) :
    (m.fresh block id size).word (block + k) = 0 := by
  have spans := le_footprint small
  have regular' := regular.of_sameShape (sameShape_fresh m block id size)
  have room' : (m.fresh block id size).holds block (footprint size) = true := by
    rw [(sameShape_fresh ..).holds]
    exact room
  by_cases inHeader : k = 16
  · subst inHeader
    have front : (m.fresh block id size).holds block headerSize = true :=
      holds_of_range regular' room' (Nat.le_refl _) (by omega)
    rw [← header_forward regular' front, header_fresh regular room small]
    rfl
  · have readable : (m.fresh block id size).holds (block + k) wordSize = true :=
      holds_sub regular' room' k wordSize (by omega)
    rw [word_eq regular' readable]
    apply littleEndian_eq_zero
    intro i lt
    rw [Nat.add_assoc]
    refine byte_fresh_of_payload regular room small ?_ (by omega)
    simp only [headerSize, wordSize] at *
    omega

theorem check_fresh : ((m.fresh block id size).header block).check = .ok .unmarked := by
  rw [header_fresh regular room small]
  exact Header.check_eq_ok.2 ⟨rfl, rfl⟩

/-- A zeroed object counts no elements, so its count fits whatever its size. -/
theorem outline_fresh {types : TypeTable} {d : Descriptor} (type : types.get? id = some d) (sound : d.Sound)
    (fixed : d.fixedSize ≤ size) : ∃ count, Outline types (m.fresh block id size) (payloadOf block) d count := by
  have shape := sameShape_fresh m block id size
  have regular' := regular.of_sameShape shape
  have header : (m.fresh block id size).header block = Header.fresh id size := header_fresh regular room small
  have whole : (m.fresh block id size).holds block (headerSize + size) = true := by
    rw [shape.holds]
    exact holds_of_range regular room (Nat.le_refl _) (Nat.add_le_add_left (le_footprint small) _)
  refine ⟨d.elements fun k => (m.fresh block id size).word (blockOf (payloadOf block) + k),
    ⟨Nat.le_add_left .., ?_, ?_, sound, ?_⟩, ?_⟩
  · rw [blockOf_payloadOf, header]
    exact whole
  · rw [blockOf_payloadOf, header]
    exact type
  · rw [blockOf_payloadOf, header]
    exact fixed
  · rw [blockOf_payloadOf, header]
    have below := holds_lt regular' whole
    refine (Descriptor.tracedCount_eq_ok (Nat.le_add_left ..) sound fixed (by omega) ?_).2 ⟨?_, rfl⟩
    · intro k fits
      rw [blockOf_payloadOf]
      exact holds_sub regular' whole k wordSize fits
    · intro r region
      obtain ⟨first, last, aligned, -⟩ := sound.count r region
      have zero : (m.fresh block id size).word (block + placeOf r.countOffset) = 0 :=
        word_fresh regular room small first aligned (Nat.le_trans last (Nat.add_le_add_left fixed _))
      rw [blockOf_payloadOf]
      simp only [zero, Nat.zero_le]

end Memory

-- One relation for objects and arrays: `words` is zero everywhere, or zero except for the count.
/-- The world after an object has been handed out. Its words are given by their places in the block. -/
structure World.Admits (w w' : World) (id : TypeId) (size : Nat) (words : Nat → Nat) (p : Nat) : Prop where
  books : w'.Books
  formed : w'.WellFormed
  poisoned : w'.heap.poisoned = w.heap.poisoned
  config : w'.heap.config = w.heap.config
  types : w'.heap.types = w.heap.types
  roots : w'.heap.roots = w.heap.roots
  strategy : w'.heap.collector.engine.strategy = w.heap.collector.engine.strategy
  shape : w.memory.SameShape w'.memory
  cells : w'.memory.cells = w.memory.cells
  fresh : ¬ w.Held p
  held : ∀ q, w'.Held q ↔ q = p ∨ w.Held q
  type : (w'.memory.header (blockOf p)).typeId = id
  length : w'.memory.payloadSize p = size
  word : ∀ k, 16 ≤ k → wordSize ∣ k → k + wordSize ≤ headerSize + size → w'.memory.word (blockOf p + k) = words k
  header : ∀ q, w.Held q → w'.memory.header (blockOf q) = w.memory.header (blockOf q)
  same : ∀ q, w.Held q → ∀ i, i < headerSize + w.memory.payloadSize q →
    w'.memory.byte (blockOf q + i) = w.memory.byte (blockOf q + i)
  inside : ∀ i, i < headerSize + size → w.heap.collector.engine.Within (blockOf p + i)
  within : ∀ a, w'.heap.collector.engine.Within a ↔ w.heap.collector.engine.Within a
  elsewhere : ∀ a, ¬ w.heap.collector.engine.Within a → w'.memory.byte a = w.memory.byte a

section

variable {w : World} {e' : Engine} {block size p : Nat} {id : TypeId} {d : Descriptor}

section

variable {e : Engine} {types : TypeTable} {m : Memory} (charted : e.Charted types m)

include charted

theorem Engine.Charted.granted (ledger : e.Ledger m) (small : size ≤ largestPayload)
    (allocated : e.allocate (footprint size) = some (block, e')) : Engine.Granted e e' m (footprint size) block :=
  Engine.granted ledger charted.regular charted.fits (Nat.le_trans (Nat.le_add_right _ _) (le_footprint small))
    (fun _ holds => charted.large holds) allocated

variable (granted : Engine.Granted e e' m (footprint size) block) (small : size ≤ largestPayload) (holds : e.Held p)

include granted small holds

/-- The new object keeps clear of the held ones. -/
theorem Engine.Charted.byte_fresh {i : Nat} (lt : i < headerSize + m.payloadSize p) :
    (m.fresh block id size).byte (blockOf p + i) = m.byte (blockOf p + i) := by
  have span := charted.spans holds
  have away := granted.apart p holds
  exact Memory.byte_fresh_of_outside charted.regular granted.room small (by omega)

theorem Engine.Charted.header_fresh : (m.fresh block id size).header (blockOf p) = m.header (blockOf p) :=
  Memory.header_stay charted.regular (Memory.sameShape_fresh ..) (charted.holds_header holds) fun _ lt =>
    charted.byte_fresh granted small holds (Nat.lt_of_lt_of_le lt (Nat.le_add_right _ _))

end

theorem World.WellFormed.fresh (layers : List Layer) (formed : w.WellFormed) (books : w.Books)
    (granted : Engine.Granted w.heap.collector.engine e' w.memory (footprint size) block)
    (type : w.heap.types.get? id = some d) (fixed : d.fixedSize ≤ size) (small : size ≤ largestPayload) :
    WellFormed { heap := { w.heap with collector := ⟨e', layers⟩ }, memory := w.memory.fresh block id size } := by
  have regular := books.regular
  have room := granted.room
  have shape := Memory.sameShape_fresh w.memory block id size
  have regular' := regular.of_sameShape shape
  have charted := formed.headed.charted books
  have header : (w.memory.fresh block id size).header (blockOf (payloadOf block)) = Header.fresh id size := by
    rw [blockOf_payloadOf]
    exact Memory.header_fresh regular room small
  have unmarked : ((w.memory.fresh block id size).header (blockOf (payloadOf block))).check = .ok .unmarked := by
    rw [blockOf_payloadOf]
    exact Memory.check_fresh regular room small
  refine .of_intact (fun p holds => ?_) ?_ fun s root => ?_
  · rcases (granted.held p).1 holds with rfl | old
    · obtain ⟨count, o⟩ := Memory.outline_fresh regular room small type
        (books.types.sound type (Nat.le_trans fixed small)) fixed
      refine ⟨unmarked, ⟨d, o.type, o.fixed, ?_⟩, _, o.tracedSlots_eq regular' unmarked (by decide), fun a member => .inl ?_⟩
      · unfold Memory.payloadSize
        rw [header]
        exact small
      · -- The traced words of the new object are null: they are behind the first half of its header.
        obtain ⟨k, place, rfl⟩ := List.mem_map.1 member
        obtain ⟨first, last, aligned⟩ := o.bounds regular' place
        rw [header] at last
        rw [blockOf_payloadOf]
        exact Memory.word_fresh regular room small first aligned last
    · exact formed.intact_of_same books (fun _ _ type => type) shape (fun q held => (granted.held q).2 (.inr held)) old
        fun i lt => charted.byte_fresh granted small old lt
  · refine granted.fits _ (fun p holds => congrArg Header.footprint (charted.header_fresh granted small holds)) ?_
    unfold Memory.blockSize
    rw [header]
    rfl
  · obtain ⟨⟨i, rfl, below⟩, reference⟩ := formed.root root
    have cell : (w.memory.fresh block id size).slot (.cell i) = w.memory.slot (.cell i) := by
      simp only [Memory.slot, Memory.cells_fresh]
    refine ⟨⟨i, rfl, shape.cells ▸ below⟩, ?_⟩
    rw [← cell] at reference
    exact reference.imp_right fun held => (granted.held _).2 (.inr held)

theorem World.admits_fresh (layers : List Layer) (books : w.Books) (formed : w.WellFormed)
    (granted : Engine.Granted w.heap.collector.engine e' w.memory (footprint size) block)
    (type : w.heap.types.get? id = some d) (fixed : d.fixedSize ≤ size) (small : size ≤ largestPayload) :
    w.Admits { heap := { w.heap with collector := ⟨e', layers⟩ }, memory := w.memory.fresh block id size } id size
      (fun _ => 0) (payloadOf block) := by
  have regular := books.regular
  have room := granted.room
  have spans := le_footprint small
  have shape := Memory.sameShape_fresh w.memory block id size
  have header : (w.memory.fresh block id size).header (blockOf (payloadOf block)) = Header.fresh id size := by
    rw [blockOf_payloadOf]
    exact Memory.header_fresh regular room small
  constructor
  case books => exact ⟨regular.of_sameShape shape, books.types, granted.ledger.of_sameShape shape⟩
  case formed => exact formed.fresh layers books granted type fixed small
  case poisoned => rfl
  case config => rfl
  case types => rfl
  case roots => rfl
  case strategy => exact granted.strategy
  case shape => exact shape
  case cells => exact Memory.cells_fresh ..
  case fresh =>
    intro held
    have away := granted.apart _ held
    have span := formed.spans held
    rw [blockOf_payloadOf] at away
    unfold headerSize at *
    omega
  case held => exact granted.held
  case type =>
    rw [header]
    rfl
  case length =>
    unfold Memory.payloadSize
    rw [header]
    rfl
  case word =>
    rw [blockOf_payloadOf]
    exact fun k => Memory.word_fresh regular room small
  case header => exact fun p holds => (formed.headed.charted books).header_fresh granted small holds
  case same => exact fun p holds i lt => (formed.headed.charted books).byte_fresh granted small holds lt
  case inside =>
    intro i lt
    rw [blockOf_payloadOf]
    exact (granted.inside _ (Nat.le_add_right _ _) (Nat.add_lt_add_left (Nat.lt_of_lt_of_le lt spans) _)).within
  case within => exact granted.within
  case elsewhere =>
    intro a out
    exact Memory.byte_fresh_of_outside regular room small
      (by by_contra meet; exact out (granted.inside a (by omega) (by omega)).within)

end

namespace Heap

open World

variable {w : World} {size : Nat} {id : TypeId} {d : Descriptor}

/-- A request was refused for want of room. -/
def Refused {α : Type} (w : World) (ran : EStateM.Result Failure World α) : Prop :=
  ∃ strategy requested free w', ran = .error (.violation (.outOfMemory strategy requested free)) w' ∧ w.Spares w'

theorem Refused.fails {α : Type} {ran : EStateM.Result Failure World α} (refused : Refused w ran) : Fails ran := by
  obtain ⟨strategy, requested, free, w', rfl, -⟩ := refused
  exact fails_error ..

theorem refused_refuse {α : Type} {w₁ : World} (size : Nat) (spares : w.Spares w₁) :
    Refused w ((refuse size : HeapM α) w₁) := ⟨_, _, _, _, rfl, spares.byte, spares.cell⟩

theorem refused_bind {α β : Type} {w₀ : World} {x : HeapM α} {f : α → HeapM β} (refused : Refused w₀ (x w)) :
    Refused w₀ ((x >>= f) w) := by
  obtain ⟨strategy, requested, free, w', ran, spares⟩ := refused
  exact ⟨strategy, requested, free, w', run_bind_error ran, spares⟩

/-- The world after the engine has handed out a block. -/
def handedOut (w : World) (e : Engine) (size : Nat) : World :=
  { w with heap := { w.heap with
    collector := { engine := e, layers := w.heap.collector.layers.map (Layer.recordAllocation size) } } }

theorem takeBlock_some {block : Nat} {e : Engine} (allocated : w.heap.collector.engine.allocate size = some (block, e)) :
    takeBlock size w = .ok (some block) (handedOut w e size) := by
  simp only [takeBlock, Collector.allocate, allocated, Option.map_some]
  rfl

theorem takeBlock_none (full : w.heap.collector.engine.allocate size = none) : takeBlock size w = .ok none w := by
  simp only [takeBlock, Collector.allocate, full, Option.map_none]

/-- The request waits for a collection: one is due, or there is no block for it. -/
def Waits (w : World) (size : Nat) : Prop :=
  w.heap.collector.shouldCollect size = true ∨ w.heap.collector.engine.allocate size = none

/-- A request that does not wait is served from the heap as it is. -/
theorem obtainBlock_now (ready : ¬ Waits w size) : ∃ block e, w.heap.collector.engine.allocate size = some (block, e) ∧
    obtainBlock size w = .ok block (handedOut w e size) := by
  obtain ⟨idle, room⟩ := not_or.1 ready
  obtain ⟨⟨block, e⟩, allocated⟩ := Option.ne_none_iff_exists'.1 room
  refine ⟨block, e, allocated, ?_⟩
  unfold obtainBlock
  rw [run_bind_get, Bool.eq_false_of_not_eq_true idle]
  simp only [Bool.false_eq_true, if_false]
  exact run_bind (takeBlock_some allocated)

-- Where the collection comes first, and finds too little, the engine is asked a second time. It has not changed, so
-- the answer is the same.
/-- What becomes of a request that waits for a collection that succeeds. -/
theorem obtainBlock_later (waits : Waits w size) {report : CollectionReport} {w₁ : World}
    (collected : runCollection w = .ok report w₁) : obtainBlock size w =
      match w₁.heap.collector.engine.allocate size with
      | some (block, e) => .ok block (handedOut w₁ e size)
      | none => refuse size w₁ := by
  unfold obtainBlock
  rw [run_bind_get]
  cases early : w.heap.collector.shouldCollect size with
  | true =>
    simp only [if_true, Bool.not_true, Bool.false_eq_true, if_false]
    rw [run_bind collected]
    cases allocated : w₁.heap.collector.engine.allocate size with
    | some pair =>
      rw [run_bind (takeBlock_some allocated)]
      rfl
    | none =>
      rw [run_bind (takeBlock_none allocated)]
      dsimp only
      rw [run_bind (takeBlock_none allocated)]
  | false =>
    have full : w.heap.collector.engine.allocate size = none :=
      waits.resolve_left (Bool.eq_false_iff.1 early)
    simp only [Bool.not_false, Bool.false_eq_true, if_true, if_false]
    rw [run_bind (takeBlock_none full)]
    dsimp only
    rw [run_bind collected]
    cases allocated : w₁.heap.collector.engine.allocate size with
    | some pair =>
      rw [run_bind (takeBlock_some allocated)]
      rfl
    | none => rw [run_bind (takeBlock_none allocated)]

/-- The failure of the collection is the failure of the request that waits for it. -/
theorem obtainBlock_error (waits : Waits w size) {x : Failure} {w₁ : World}
    (failed : runCollection w = .error x w₁) : obtainBlock size w = .error x w₁ := by
  unfold obtainBlock
  rw [run_bind_get]
  cases early : w.heap.collector.shouldCollect size with
  | true =>
    simp only [if_true]
    exact run_bind_error failed
  | false =>
    have full : w.heap.collector.engine.allocate size = none :=
      waits.resolve_left (Bool.eq_false_iff.1 early)
    simp only [Bool.not_false, Bool.false_eq_true, if_true, if_false]
    rw [run_bind (takeBlock_none full)]
    exact run_bind_error failed

/-- A request is refused in the world that a collection may have left, or gets a block from it. -/
theorem obtainBlock_cases (sound : w.Sound) (size : Nat) : ∃ w₁ f, w.Survives w₁ f ∧ (obtainBlock size w = refuse size w₁ ∨
    ∃ block e, w₁.heap.collector.engine.allocate size = some (block, e) ∧
      obtainBlock size w = .ok block (handedOut w₁ e size)) := by
  by_cases waits : Waits w size
  · obtain ⟨report, w₁, f, collected, survives⟩ := runCollection_spec sound
    refine ⟨w₁, f, survives, ?_⟩
    rw [obtainBlock_later waits collected]
    cases w₁.heap.collector.engine.allocate size with
    | some pair => exact .inr ⟨pair.1, pair.2, rfl, rfl⟩
    | none => exact .inl rfl
  · obtain ⟨block, e, allocated, ran⟩ := obtainBlock_now waits
    exact ⟨w, _, sound.survives, .inr ⟨block, e, allocated, ran⟩⟩

end Heap

/-- The world after the type table has been closed. -/
def World.closed (w : World) : World := { w with heap := { w.heap with types := w.heap.types.close } }

theorem World.Books.close {w : World} (books : w.Books) : w.closed.Books := ⟨books.regular, books.types, books.ledger⟩

theorem World.WellFormed.close {w : World} (formed : w.WellFormed) (books : w.Books) : w.closed.WellFormed :=
  formed.replace books (fun _ _ type => type) fun _ root => .inl root

/-- Whether types can still be registered makes no difference to what can be reached. -/
theorem World.reach_closed {w : World} {p : Nat} :
    Reach w.closed.heap.types w.closed.heap.roots.slots w.closed.memory p ↔
      Reach w.heap.types w.heap.roots.slots w.memory p := by
  constructor <;> intro reach <;> induction reach with
    | root member value => exact .root member value
    | step _ listed member value ih => exact .step ih listed member value

/-- A violation that is noted changes nothing else. -/
theorem World.WellFormed.poison {w : World} (formed : w.WellFormed) (e : HeapError) :
    WellFormed { w with heap := w.heap.poison e } :=
  ⟨formed.unmarked, formed.typed, formed.fits, formed.references, formed.outside, formed.roots⟩

theorem World.Sound.close {w : World} (sound : w.Sound) : w.closed.Sound :=
  sound.replace sound.books.types (fun _ _ type => type) fun _ root => .inl root

section

variable {w w' : World} {id : TypeId} {size p : Nat} {words : Nat → Nat}

theorem World.Admits.sound (admits : w.Admits w' id size words p) (sound : w.Sound)
    (full : w.heap.collector.engine.strategy = .copying → 0 < size) : w'.Sound := by
  refine ⟨admits.poisoned.trans sound.healthy, admits.books, admits.formed, fun moves q holds => ?_⟩
  have moved := admits.strategy.symm.trans moves
  unfold Memory.isEmpty
  rcases (admits.held q).1 holds with rfl | old
  · have positive := full moved
    rw [admits.length, decide_eq_false_iff_not]
    omega
  · have length : w'.memory.payloadSize q = w.memory.payloadSize q := congrArg Header.size (admits.header q old)
    rw [length]
    exact sound.filled moved q old

theorem World.Admits.spares {w₀ : World} {f : Nat → Nat} (admits : w.Admits w' id size words p)
    (survives : w₀.Survives w f) : w₀.Spares w' := by
  constructor
  · intro a out
    rw [admits.elsewhere a (mt (survives.within a).1 out), survives.elsewhere a out]
  · intro i free
    rw [Memory.slot, admits.cells]
    exact survives.relocation.cell i free

end

namespace Heap

open World

variable {w : World} {id : TypeId} {d : Descriptor}

theorem access_ok {α : Type} {act : Access α} {a : α} {m : Memory} (ran : act w.memory = .ok a m) :
    access act w = .ok a { w with memory := m } := by
  simp only [access, ran]

theorem requireType_ok (registered : w.heap.types.get? id = some d) : requireType id w = .ok d w := by
  unfold requireType
  rw [run_bind_get, TypeTable.get_eq_ok.2 registered]
  rfl

theorem requireType_none (unknown : w.heap.types.get? id = none) : requireType id w = violate (.unregisteredType id) w := by
  unfold requireType
  rw [run_bind_get, TypeTable.get_eq_error unknown]

theorem allocate_unknown (healthy : w.heap.poisoned = none) (unknown : w.heap.types.get? id = none) (extra : Nat) :
    allocate id extra w = violate (.unregisteredType id) w := by
  unfold allocate
  rw [run_bind (checkPoisoned_ok healthy)]
  exact run_bind_error (requireType_none unknown)

/-- A request that is too large is refused before the collector hears of it. -/
theorem allocate_large (healthy : w.heap.poisoned = none) (registered : w.heap.types.get? id = some d) {extra : Nat}
    (large : ¬ d.fixedSize + extra ≤ largestPayload) :
    allocate id extra w = refuse (Word.saturate (d.fixedSize + extra)) w.closed := by
  have close : closeTypes w = .ok () w.closed := rfl
  have large' : Word.saturate (d.fixedSize + extra) > largestPayload := by
    unfold Word.saturate wordLimit largestPayload at *
    omega
  unfold allocate
  rw [run_bind (checkPoisoned_ok healthy), run_bind (requireType_ok registered), run_bind close]
  simp only [large', if_true]
  rfl

/-- A request of admissible size comes down to a block, and the object in it. -/
theorem allocate_eq (healthy : w.heap.poisoned = none) (registered : w.heap.types.get? id = some d) {extra : Nat}
    (small : d.fixedSize + extra ≤ largestPayload) : allocate id extra w = (do
      let block ← obtainBlock (footprint (d.fixedSize + extra))
      access do
        Access.clear block (footprint (d.fixedSize + extra))
        Access.storeHeader block (Header.fresh id (d.fixedSize + extra))
      return payloadOf block) w.closed := by
  have close : closeTypes w = .ok () w.closed := rfl
  have exact' : Word.saturate (d.fixedSize + extra) = d.fixedSize + extra :=
    Word.saturate_of_lt (Nat.lt_of_le_of_lt small (by decide))
  unfold allocate
  rw [run_bind (checkPoisoned_ok healthy), run_bind (requireType_ok registered), run_bind close]
  simp only [exact', Nat.not_lt.2 small, if_false]

/-- The world after a request has been refused. -/
def refused (w : World) (size : Nat) : World :=
  { w with heap := w.heap.poison (.outOfMemory w.heap.strategy size w.heap.availableBytes) }

/-- A request for which even a collection makes no room. -/
theorem allocate_refused {extra : Nat} {report : CollectionReport} {w₁ : World} (healthy : w.heap.poisoned = none)
    (registered : w.heap.types.get? id = some d) (small : d.fixedSize + extra ≤ largestPayload)
    (waits : Waits w.closed (footprint (d.fixedSize + extra))) (collected : runCollection w.closed = .ok report w₁)
    (full : w₁.heap.collector.engine.allocate (footprint (d.fixedSize + extra)) = none) :
    allocate id extra w = .error (.violation (.outOfMemory w₁.heap.strategy (footprint (d.fixedSize + extra))
      w₁.heap.availableBytes)) (refused w₁ (footprint (d.fixedSize + extra))) := by
  have ran := obtainBlock_later waits collected
  simp only [full] at ran
  rw [allocate_eq healthy registered small]
  exact run_bind_error ran

/-- A block that has been handed out is zeroed and gets its header. -/
theorem access_fresh {e : Engine} {block size n : Nat} (regular : w.memory.Regular)
    (room : w.memory.holds block (footprint size) = true) (small : size ≤ largestPayload) :
    access (do
        Access.clear block (footprint size)
        Access.storeHeader block (Header.fresh id size)) (handedOut w e n) =
      .ok () { handedOut w e n with memory := w.memory.fresh block id size } :=
  access_ok (Memory.run_fresh regular room small)

theorem allocate_fresh {extra block : Nat} {e : Engine} {w₁ : World} (healthy : w.heap.poisoned = none)
    (registered : w.heap.types.get? id = some d) (small : d.fixedSize + extra ≤ largestPayload)
    (regular : w₁.memory.Regular) (room : w₁.memory.holds block (footprint (d.fixedSize + extra)) = true)
    (ran : obtainBlock (footprint (d.fixedSize + extra)) w.closed =
      .ok block (handedOut w₁ e (footprint (d.fixedSize + extra)))) :
    allocate id extra w = .ok (payloadOf block) { handedOut w₁ e (footprint (d.fixedSize + extra)) with
      memory := w₁.memory.fresh block id (d.fixedSize + extra) } := by
  rw [allocate_eq healthy registered small, run_bind ran, run_bind (access_fresh regular room small)]
  rfl

theorem granted_of_formed {w₁ : World} {size block : Nat} {e : Engine} (books : w₁.Books) (formed : w₁.WellFormed)
    (small : size ≤ largestPayload)
    (allocated : w₁.heap.collector.engine.allocate (footprint size) = some (block, e)) :
    Engine.Granted w₁.heap.collector.engine e w₁.memory (footprint size) block :=
  (formed.headed.charted books).granted books.ledger small allocated

/-- The block becomes an object. -/
theorem allocate_admits {extra block : Nat} {e : Engine} {w₁ : World} (healthy : w.heap.poisoned = none)
    (registered : w.heap.types.get? id = some d) (small : d.fixedSize + extra ≤ largestPayload) (books : w₁.Books)
    (formed : w₁.WellFormed) (types : w₁.heap.types = w.closed.heap.types)
    (allocated : w₁.heap.collector.engine.allocate (footprint (d.fixedSize + extra)) = some (block, e))
    (ran : obtainBlock (footprint (d.fixedSize + extra)) w.closed =
      .ok block (handedOut w₁ e (footprint (d.fixedSize + extra)))) :
    ∃ w', w₁.Admits w' id (d.fixedSize + extra) (fun _ => 0) (payloadOf block) ∧
      allocate id extra w = .ok (payloadOf block) w' := by
  have granted := granted_of_formed books formed small allocated
  have type : w₁.heap.types.get? id = some d := by
    rw [types]
    exact registered
  exact ⟨_, admits_fresh (w₁.heap.collector.layers.map (Layer.recordAllocation (footprint (d.fixedSize + extra))))
      books formed granted type (Nat.le_add_right _ _) small,
    allocate_fresh healthy registered small books.regular granted.room ran⟩

/-- A request for a registered type is refused in the world that a collection may have left, or served from it. -/
theorem allocate_cases (sound : w.Sound) (registered : w.heap.types.get? id = some d) (extra : Nat) :
    ∃ w₁ f, w.closed.Survives w₁ f ∧ ((∃ n, allocate id extra w = refuse n w₁) ∨
      ∃ p w', d.fixedSize + extra ≤ largestPayload ∧ w₁.Admits w' id (d.fixedSize + extra) (fun _ => 0) p ∧
        allocate id extra w = .ok p w') := by
  by_cases small : d.fixedSize + extra ≤ largestPayload
  · obtain ⟨w₁, f, survives, ran | ⟨block, e, allocated, ran⟩⟩ :=
      obtainBlock_cases sound.close (footprint (d.fixedSize + extra))
    · refine ⟨w₁, f, survives, .inl ⟨footprint (d.fixedSize + extra), ?_⟩⟩
      rw [allocate_eq sound.healthy registered small]
      exact run_bind_error ran
    · obtain ⟨w', admits, ran'⟩ := allocate_admits sound.healthy registered small survives.sound.books
        survives.sound.formed survives.types allocated ran
      exact ⟨w₁, f, survives, .inr ⟨payloadOf block, w', small, admits, ran'⟩⟩
  · exact ⟨w.closed, _, sound.close.survives, .inl ⟨_, allocate_large sound.healthy registered small⟩⟩

/-- A request for a registered type is served or refused for want of room. -/
theorem allocate_spec (sound : w.Sound) (registered : w.heap.types.get? id = some d) (extra : Nat) :
    Refused w (allocate id extra w) ∨ ∃ w₁ f p w', w.closed.Survives w₁ f ∧ d.fixedSize + extra ≤ largestPayload ∧
      w₁.Admits w' id (d.fixedSize + extra) (fun _ => 0) p ∧ allocate id extra w = .ok p w' := by
  obtain ⟨w₁, f, survives, ⟨n, ran⟩ | ⟨p, w', small, admits, ran⟩⟩ := allocate_cases sound registered extra
  · rw [ran]
    exact .inl (refused_refuse n ⟨survives.spares.byte, survives.spares.cell⟩)
  · exact .inr ⟨w₁, f, p, w', survives, small, admits, ran⟩

end Heap

/-! ### Arrays -/

section

variable {w w' : World} {id : TypeId} {d : Descriptor} {size p : Nat} {words : Nat → Nat}

theorem World.Admits.outline (admits : w.Admits w' id size words p) (registered : w.heap.types.get? id = some d) :
    ∃ n, Outline w'.heap.types w'.memory p d n := by
  obtain ⟨d', n, o⟩ := (admits.formed.consistent admits.books).outline p ((admits.held p).2 (.inl rfl))
  have type := o.type
  rw [admits.type, admits.types, registered] at type
  cases type
  exact ⟨n, o⟩

/-- A word of the new object may be written, as long as the words that are traced in it then are null. -/
theorem World.Admits.setWord {k v : Nat} (admits : w.Admits w' id size words p)
    (registered : w.heap.types.get? id = some d) (above : 16 ≤ k) (whole : wordSize ∣ k)
    (within : k + wordSize ≤ headerSize + size) (isWord : v < wordLimit) (fits : d.CountFits (patch k v words) size)
    (null : ∀ k' ∈ d.places (d.elements (patch k v words)), patch k v words k' = 0) :
    w'.memory.holds (blockOf p + k) wordSize = true ∧
      w.Admits { w' with memory := w'.memory.setWord (blockOf p + k) v } id size (patch k v words) p := by
  have consistent := admits.formed.consistent admits.books
  have regular := admits.books.regular
  have holds : w'.Held p := (admits.held p).2 (.inl rfl)
  obtain ⟨n, o⟩ := admits.outline registered
  have length : w'.memory.payloadSize p = size := admits.length
  have patched := admits.formed.patched admits.books holds above whole (length ▸ within) isWord
  have word (k' : Nat) (above' : 16 ≤ k') (whole' : wordSize ∣ k') (within' : k' + wordSize ≤ headerSize + size) :
      patch k v (fun k' => w'.memory.word (blockOf p + k')) k' = patch k v words k' := by
    unfold patch
    split
    · rfl
    · exact admits.word k' above' whole' within'
  obtain ⟨elements, fitting⟩ := Descriptor.elements_congr size (patch k v words)
    (patch k v fun k' => w'.memory.word (blockOf p + k')) fun r region => by
      obtain ⟨first, last, aligned, -⟩ := o.sound.count r region
      exact word _ first aligned (Nat.le_trans last (Nat.add_le_add_left (length ▸ o.fixed) _))
  have fits' : d.CountFits (patch k v fun k' => w'.memory.word (blockOf p + k')) (w'.memory.payloadSize p) :=
    length ▸ fitting.2 fits
  have o' := patched.outline regular o fits'
  have formed := patched.wellFormed admits.formed admits.books holds above (length ▸ within) o fits' fun k' place => by
    obtain ⟨above', within', whole'⟩ := o'.bounds (regular.of_sameShape patched.shape) place
    rw [patched.front] at within'
    rw [word k' above' whole' (length ▸ within'), null k' (elements ▸ place)]
    exact .inl rfl
  have others (q : Nat) (old : w.Held q) : q ≠ p := fun same => admits.fresh (same ▸ old)
  have held (q : Nat) (old : w.Held q) : w'.Held q := (admits.held q).2 (.inr old)
  have sameLength (q : Nat) (old : w.Held q) : w'.memory.payloadSize q = w.memory.payloadSize q :=
    congrArg Header.size (admits.header q old)
  refine ⟨patched.inside, ?_⟩
  constructor
  case books =>
    exact ⟨regular.of_sameShape patched.shape, admits.books.types, admits.books.ledger.of_sameShape patched.shape⟩
  case formed => exact formed.1
  case poisoned => exact admits.poisoned
  case config => exact admits.config
  case types => exact admits.types
  case roots => exact admits.roots
  case strategy => exact admits.strategy
  case shape => exact admits.shape.trans patched.shape
  case cells => exact patched.cells.trans admits.cells
  case fresh => exact admits.fresh
  case held => exact admits.held
  case type =>
    rw [patched.front]
    exact admits.type
  case length => exact (formed.2 p holds).trans length
  case word =>
    intro k' above' whole' within'
    rw [patched.word k' above' whole' (length.symm ▸ within'), word k' above' whole' within']
  case header =>
    intro q old
    have inHeader := consistent.holds_header (held q old)
    rw [← admits.header q old]
    apply Memory.header_stay regular patched.shape inHeader
    intro i lt
    exact patched.others q (held q old) (others q old) i (Nat.lt_of_lt_of_le lt (Nat.le_add_right _ _))
  case same =>
    intro q old i lt
    rw [← admits.same q old i lt]
    exact patched.others q (held q old) (others q old) i (sameLength q old ▸ lt)
  case inside => exact admits.inside
  case within => exact admits.within
  case elsewhere =>
    intro a out
    rw [← admits.elsewhere a out]
    refine patched.outside a ?_
    by_contra meet
    refine out ?_
    have here := admits.inside (a - blockOf p) (by omega)
    rwa [Nat.add_sub_of_le (by omega)] at here

/-- The count of a new array may be stored, since it has the capacity that was asked for. -/
theorem World.Admits.setCount {r : Region} {count : Nat}
    (admits : w.Admits w' id (d.fixedSize + count * r.elementSize) (fun _ => 0) p)
    (registered : w.heap.types.get? id = some d) (region : d.region = some r)
    (small : d.fixedSize + count * r.elementSize ≤ largestPayload) :
    w'.memory.holds (slotAt p r.countOffset) wordSize = true ∧
      w.Admits { w' with memory := w'.memory.setWord (slotAt p r.countOffset) count } id
        (d.fixedSize + count * r.elementSize) (patch (placeOf r.countOffset) count fun _ => 0) p := by
  obtain ⟨n, o⟩ := admits.outline registered
  have low := o.low
  have below := o.lt admits.books.regular
  have address : slotAt p r.countOffset = blockOf p + placeOf r.countOffset :=
    Descriptor.slotAt_count low o.sound o.fixed (by simp only [blockOf] at *; omega) region
  obtain ⟨first, last, aligned, -⟩ := o.sound.count r region
  have isWord := Descriptor.count_lt_wordLimit o.sound region small
  rw [address]
  apply admits.setWord registered first aligned (by omega) isWord
  case fits =>
    intro r' region'
    cases region.symm.trans region'
    rw [Descriptor.capacity_of_array o.sound region, patch, if_pos rfl]
  case null =>
    intro k place
    rw [patch, if_neg]
    rintro rfl
    exact Descriptor.count_notMem_places o.sound region _ place

end

namespace Heap

open World

variable {w : World} {id : TypeId} {d : Descriptor} {r : Region}

/-- A request for an array is refused as the request for an object of its size is, and is served otherwise. -/
theorem allocateArray_cases (sound : w.Sound) (registered : w.heap.types.get? id = some d)
    (region : d.region = some r) (count : Nat) : ∃ w₁ f, w.closed.Survives w₁ f ∧
      ((∃ n, allocate id (Word.saturate (count * r.elementSize)) w = refuse n w₁ ∧ allocateArray id count w = refuse n w₁) ∨
        ¬ Fails (allocate id (Word.saturate (count * r.elementSize)) w) ∧
          ∃ p w', d.fixedSize + count * r.elementSize ≤ largestPayload ∧
            w₁.Admits w' id (d.fixedSize + count * r.elementSize) (patch (placeOf r.countOffset) count fun _ => 0) p ∧
            allocateArray id count w = .ok p w') := by
  unfold allocateArray
  rw [run_bind (requireType_ok registered)]
  simp only [region]
  obtain ⟨w₁, f, survives, ⟨n, ran⟩ | ⟨p, w', small, admits, ran⟩⟩ :=
    allocate_cases sound registered (Word.saturate (count * r.elementSize))
  · exact ⟨w₁, f, survives, .inl ⟨n, ran, run_bind_error ran⟩⟩
  · have exact' : Word.saturate (count * r.elementSize) = count * r.elementSize := by
      unfold Word.saturate wordLimit largestPayload at *
      omega
    rw [exact'] at small admits
    have type : w₁.heap.types.get? id = some d := by
      rw [survives.types]
      exact registered
    obtain ⟨inside, admits'⟩ := admits.setCount type region small
    refine ⟨w₁, f, survives, .inr ⟨ran ▸ not_fails_ok _ _, p, _, small, admits', ?_⟩⟩
    rw [run_bind ran]
    exact run_bind (access_ok (Access.guarded_ok inside))

/-- A request for an array is refused if the request for an object of its size is, and is served otherwise. -/
theorem allocateArray_decided (sound : w.Sound) (registered : w.heap.types.get? id = some d)
    (region : d.region = some r) (count : Nat) :
    (Fails (allocate id (Word.saturate (count * r.elementSize)) w) ∧ Refused w (allocateArray id count w)) ∨
      ¬ Fails (allocate id (Word.saturate (count * r.elementSize)) w) ∧
        ∃ w₁ f p w', w.closed.Survives w₁ f ∧ d.fixedSize + count * r.elementSize ≤ largestPayload ∧
          w₁.Admits w' id (d.fixedSize + count * r.elementSize) (patch (placeOf r.countOffset) count fun _ => 0) p ∧
          allocateArray id count w = .ok p w' := by
  obtain ⟨w₁, f, survives, ⟨n, ran, ran'⟩ | ⟨served, p, w', small, admits, ran⟩⟩ :=
    allocateArray_cases sound registered region count
  · rw [ran, ran']
    have refused : Refused w ((refuse n : HeapM Nat) w₁) :=
      refused_refuse n ⟨survives.spares.byte, survives.spares.cell⟩
    exact .inl ⟨refused.fails, refused⟩
  · exact .inr ⟨served, w₁, f, p, w', survives, small, admits, ran⟩

theorem allocateArray_spec (sound : w.Sound) (registered : w.heap.types.get? id = some d) (region : d.region = some r)
    (count : Nat) : Refused w (allocateArray id count w) ∨
      ∃ w₁ f p w', w.closed.Survives w₁ f ∧ d.fixedSize + count * r.elementSize ≤ largestPayload ∧
        w₁.Admits w' id (d.fixedSize + count * r.elementSize) (patch (placeOf r.countOffset) count fun _ => 0) p ∧
        allocateArray id count w = .ok p w' :=
  (allocateArray_decided sound registered region count).imp And.right And.right

end Heap

end TracingHeap
