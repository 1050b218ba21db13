import TracingHeap.Proofs.Heap.Requests
import TracingHeap.Proofs.MarkSweep.Partition

/-! New objects.

An object that a request is answered with lies by itself in the arena in use, is zeroed, and is the only thing about
the heap that has changed since the collection before it, if there was one. -/

set_option autoImplicit false

namespace TracingHeap

/-! ### Alignment -/

/-- Blocks that lie one behind the other are aligned if the first one is. -/
theorem Tiled.aligned {m : Memory} {stop block p : Nat} {objects : List Nat} (tiled : Tiled m stop block objects)
    (first : wordSize ∣ block) (member : p ∈ objects) : wordSize ∣ p := by
  induction objects generalizing block with
  | nil => cases member
  | cons q rest ih =>
    obtain ⟨rfl, later⟩ := cons_iff.1 tiled
    rcases List.mem_cons.1 member with rfl | behind
    · exact Nat.dvd_add first (by decide)
    · exact ih later (Nat.dvd_add first (dvd_footprint _)) behind

-- The blocks of a heap that does not move its objects are aligned by its books, not by where the arena begins.
/-- Where objects are put one behind the other, the spaces for them begin at whole words. -/
def World.Aligned (w : World) : Prop :=
  match w.heap.collector.engine with
  | .markSweep _ => True
  | .copying c => wordSize ∣ c.spaces.active.start ∧ wordSize ∣ c.spaces.reserve.start
  | .leaky c => wordSize ∣ c.space.start

namespace World.Aligned

theorem collected (w : World) (aligned : w.Aligned) : Aligned (after (Heap.runCollector w)) := by
  unfold Aligned at aligned
  unfold Heap.runCollector Collector.collect Engine.collect
  cases engine : w.heap.collector.engine with
  | markSweep c =>
    cases ran : c.collect w.heap.types w.heap.roots.slots w.memory <;> simp only [engine, ran] <;> exact trivial
  | leaky c =>
    simp only [engine] at aligned ⊢
    exact aligned
  | copying c =>
    simp only [engine] at aligned ⊢
    have grown := Copying.always_evacuateAll w.heap.types w.heap.roots.slots c.resident
      { memory := w.memory, reserve := c.spaces.reserve }
    unfold Copying.collect
    cases ran : Copying.evacuateAll w.heap.types w.heap.roots.slots c.resident
      { memory := w.memory, reserve := c.spaces.reserve } with
    | ok _ e =>
      rw [ran] at grown
      have start : e.reserve.start = c.spaces.reserve.start := grown.start
      exact ⟨start ▸ aligned.2, aligned.1⟩
    | error x e =>
      rw [ran] at grown
      have start : e.reserve.start = c.spaces.reserve.start := grown.start
      exact ⟨aligned.1, start ▸ aligned.2⟩

theorem taken (w : World) (size : Nat) (aligned : w.Aligned) : Aligned (after (Heap.takeBlock size w)) := by
  unfold Heap.takeBlock Collector.allocate
  cases allocated : w.heap.collector.engine.allocate size with
  | none =>
    simp only [allocated, Option.map_none]
    exact aligned
  | some pair =>
    simp only [allocated, Option.map_some]
    unfold Aligned at aligned ⊢
    have found := Engine.allocated allocated
    generalize w.heap.collector.engine = e at aligned found
    obtain ⟨block, e'⟩ := pair
    cases found with
    | markSweep took => exact trivial
    | copying room => exact aligned
    | leaky room => exact aligned

theorem lasting : World.Lasting World.Aligned where
  untouched aligned same := by
    unfold Aligned
    rw [same.engine]
    exact aligned
  collected := collected
  taken w size _ _ := taken w size

theorem of_grant {m m' : Memory} {size start : Nat} (granted : m.grant size = some (start, m')) : wordSize ∣ start := by
  unfold Memory.grant at granted
  split at granted <;> cases granted
  exact wordSize_dvd_base _

theorem created {config : Config} {m m' : Memory} {h : Heap} (created : Heap.create config m = .ok (h, m')) :
    World.Aligned ⟨h, m'⟩ := by
  obtain ⟨-, engine, started, rfl⟩ := Heap.create_eq_ok created
  have fresh := Engine.created started
  generalize config.strategy = strategy at fresh
  cases fresh with
  | markSweep granted => exact trivial
  | copying first second => exact ⟨of_grant first, of_grant second⟩
  | leaky granted => exact of_grant granted

end World.Aligned

theorem Reached.spaces_aligned {w : World} (reached : Reached w) : w.Aligned :=
  World.Aligned.lasting.reached reached (fun made _ => .created made) fun aligned _ _ => aligned

/-- In every state all objects begin at whole words, as long as the headers that lead to them are intact. -/
theorem Reached.aligned {w : World} (reached : Reached w) (fits : w.heap.collector.engine.Fits w.memory) {p : Nat}
    (held : w.Held p) : wordSize ∣ p := by
  have aligned := reached.spaces_aligned
  have complete := reached.complete
  unfold World.Aligned at aligned
  unfold World.Held at held
  cases engine : w.heap.collector.engine with
  | markSweep c =>
    rw [engine] at held
    obtain ⟨low, n, record⟩ := MarkSweep.owns_iff.1 held
    have whole := ((complete c engine).1.record _ _ record).start
    rw [← payloadOf_blockOf low]
    exact Nat.dvd_add whole (by decide)
  | copying c =>
    rw [engine] at held aligned fits
    exact Tiled.aligned fits aligned.1 (Std.TreeSet.mem_toList.2 held)
  | leaky c =>
    rw [engine] at held aligned fits
    exact Tiled.aligned fits aligned (Std.TreeSet.mem_toList.2 held)

/-! ### What a request adds -/

namespace World

/-- The state that a request is served from: where it waits for a collection, the one after that collection. -/
def Prepared (w w₁ : World) (size : Nat) : Prop :=
  (Heap.Waits w size ∧ ∃ report, Heap.runCollection w = .ok report w₁) ∨ ¬ Heap.Waits w size ∧ w₁ = w

/-- One object more is held, and nothing else has changed. -/
structure Gains (w w' : World) (id : TypeId) (size obj : Nat) : Prop where
  aligned : wordSize ∣ obj
  fresh : ¬ w.Held obj
  held : ∀ p, w'.Held p ↔ p = obj ∨ w.Held p
  low : headerSize ≤ obj
  room : w'.memory.holds (blockOf obj) (footprint size) = true
  active : ∀ a, blockOf obj ≤ a → a < blockOf obj + footprint size → w'.heap.collector.engine.Active a
  apart : ∀ p, w'.Held p → p ≠ obj →
    blockOf p + w'.memory.blockSize p ≤ blockOf obj ∨ blockOf obj + footprint size ≤ blockOf p
  header : w'.memory.header (blockOf obj) = Header.fresh id size
  unmarked : (w'.memory.header (blockOf obj)).check = .ok .unmarked
  unmoved : (w'.memory.header (blockOf obj)).forwardingAddress = none
  zeroed : ∀ i, i < size → w'.memory.byte (obj + i) = 0
  same : ∀ p, w.Held p → ∀ i, i < w.memory.blockSize p → w'.memory.byte (blockOf p + i) = w.memory.byte (blockOf p + i)
  roots : w'.heap.roots = w.heap.roots
  slot : ∀ s ∈ w.heap.roots.slots, w'.memory.slot s = w.memory.slot s

end World

section

variable {w : World} {e : Engine} {block size : Nat} {id : TypeId}

/-- A block that has been handed out keeps clear of the held objects, so only its own bytes change. -/
theorem World.WellFormed.gains (formed : w.WellFormed) (books : w.Books) (small : size ≤ largestPayload)
    (granted : Engine.Granted w.heap.collector.engine e w.memory (footprint size) block)
    (aligned : wordSize ∣ payloadOf block) :
    w.Gains { Heap.handedOut w e (footprint size) with memory := w.memory.fresh block id size } id size
      (payloadOf block) := by
  have regular := books.regular
  have room := granted.room
  have header : (w.memory.fresh block id size).header (blockOf (payloadOf block)) = Header.fresh id size := by
    rw [blockOf_payloadOf]
    exact Memory.header_fresh regular room small
  have others (p : Nat) (held : w.Held p) : (w.memory.fresh block id size).blockSize p = w.memory.blockSize p :=
    congrArg Header.footprint ((formed.headed.charted books).header_fresh granted small held)
  have fresh : ¬ w.Held (payloadOf block) := by
    intro held
    have away := granted.apart _ held
    have span := formed.spans held
    have spans := le_footprint small
    rw [blockOf_payloadOf] at away
    unfold headerSize at *
    omega
  constructor
  case aligned => exact aligned
  case fresh => exact fresh
  case held => exact granted.held
  case low => exact Nat.le_add_left _ _
  case room =>
    show (w.memory.fresh block id size).holds _ _ = true
    rw [blockOf_payloadOf, (Memory.sameShape_fresh ..).holds]
    exact room
  case active =>
    rw [blockOf_payloadOf]
    exact fun a low high => (granted.active a).2 (granted.inside a low high)
  case apart =>
    intro p held other
    have old := ((granted.held p).1 held).resolve_left other
    rw [blockOf_payloadOf]
    show blockOf p + (w.memory.fresh block id size).blockSize p ≤ block ∨ _
    rw [others p old]
    exact granted.apart p old
  case header => exact header
  case unmarked =>
    show ((w.memory.fresh block id size).header _).check = _
    rw [header]
    exact Header.check_eq_ok.2 ⟨rfl, rfl⟩
  case unmoved =>
    show ((w.memory.fresh block id size).header _).forwardingAddress = _
    rw [header]
    rfl
  case zeroed =>
    intro i lt
    have spans := le_footprint small
    show (w.memory.fresh block id size).byte (block + headerSize + i) = 0
    rw [Nat.add_assoc]
    exact Memory.byte_fresh_of_payload regular room small (Nat.le_add_right _ _) (by omega)
  case same =>
    intro p held i lt
    have away := granted.apart p held
    exact Memory.byte_fresh_of_outside regular room small (by omega)
  case roots => rfl
  case slot =>
    intro s root
    obtain ⟨i, rfl, -⟩ := formed.outside s root
    show (w.memory.fresh block id size).cells[i]?.getD 0 = _
    rw [Memory.cells_fresh]
    rfl

end

namespace Heap

open World

variable {w w' : World} {id : TypeId} {extra obj : Nat}

/-- A request that is answered is for a registered type, and not for too much. -/
theorem allocate_eq_ok (ran : allocate id extra w = .ok obj w') : w.heap.poisoned = none ∧
    ∃ d, w.heap.types.get? id = some d ∧ d.fixedSize + extra ≤ largestPayload := by
  have healthy : w.heap.poisoned = none := healthy_of_ok ran
  refine ⟨healthy, ?_⟩
  cases registered : w.heap.types.get? id with
  | none =>
    rw [allocate_unknown healthy registered] at ran
    cases ran
  | some d =>
    refine ⟨d, rfl, Decidable.byContradiction fun large => ?_⟩
    rw [allocate_large healthy registered large] at ran
    cases ran

/-- It is served from the heap as it is or as a collection leaves it. -/
theorem allocate_prepared {d : Descriptor} (registered : w.heap.types.get? id = some d)
    (ran : allocate id extra w = .ok obj w') :
    ∃ w₁ block e, w.closed.Prepared w₁ (footprint (d.fixedSize + extra)) ∧
      w₁.heap.collector.engine.allocate (footprint (d.fixedSize + extra)) = some (block, e) ∧
      obtainBlock (footprint (d.fixedSize + extra)) w.closed =
        .ok block (handedOut w₁ e (footprint (d.fixedSize + extra))) := by
  obtain ⟨healthy, d', registered', small⟩ := allocate_eq_ok ran
  cases registered.symm.trans registered'
  rw [allocate_eq healthy registered small] at ran
  by_cases waits : Waits w.closed (footprint (d.fixedSize + extra))
  · cases collected : runCollection w.closed with
    | error x w₁ => cases ran.symm.trans (run_bind_error (obtainBlock_error waits collected))
    | ok report w₁ =>
      have later := obtainBlock_later waits collected
      cases allocated : w₁.heap.collector.engine.allocate (footprint (d.fixedSize + extra)) with
      | none =>
        simp only [allocated] at later
        cases ran.symm.trans (run_bind_error later)
      | some pair =>
        simp only [allocated] at later
        exact ⟨w₁, pair.1, pair.2, .inl ⟨waits, report, collected⟩, allocated, later⟩
  · obtain ⟨block, e, allocated, now⟩ := obtainBlock_now waits
    exact ⟨_, block, e, .inr ⟨waits, rfl⟩, allocated, now⟩

/-- A well-formed heap is so when the request is served. -/
theorem allocate_served (books : w.Books) (formed : w.WellFormed) {d : Descriptor}
    (registered : w.heap.types.get? id = some d) (ran : allocate id extra w = .ok obj w') :
    ∃ w₁ block e, w.closed.Prepared w₁ (footprint (d.fixedSize + extra)) ∧ w₁.Books ∧ w₁.WellFormed ∧
      w₁.heap.collector.engine.allocate (footprint (d.fixedSize + extra)) = some (block, e) ∧
      obtainBlock (footprint (d.fixedSize + extra)) w.closed =
        .ok block (handedOut w₁ e (footprint (d.fixedSize + extra))) := by
  have healthy := (allocate_eq_ok ran).1
  obtain ⟨w₁, block, e, prepared, allocated, obtained⟩ := allocate_prepared registered ran
  rcases prepared with ⟨waits, report, collected⟩ | ⟨idle, rfl⟩
  · obtain ⟨-, books', formed'⟩ := formed_of_runCollection books.close healthy (formed.close books) collected
    exact ⟨w₁, block, e, .inl ⟨waits, report, collected⟩, books', formed', allocated, obtained⟩
  · exact ⟨_, block, e, .inr ⟨idle, rfl⟩, books.close, formed.close books, allocated, obtained⟩

-- Nothing is asked of objects without payload: a collection that they are in the way of fails, and the request with it.
/-- In every well-formed state that a heap can reach, an object that a request is answered with is new, zeroed and by
itself, and nothing else has changed since the collection that the request waited for. -/
theorem allocate_gains (reached : Reached w) (formed : w.WellFormed) (ran : allocate id extra w = .ok obj w') :
    ∃ d w₁, w.heap.types.get? id = some d ∧ w.closed.Prepared w₁ (footprint (d.fixedSize + extra)) ∧
      w₁.Gains w' id (d.fixedSize + extra) obj := by
  obtain ⟨healthy, d, registered, small⟩ := allocate_eq_ok ran
  have books := reached.orderly healthy
  obtain ⟨w₁, block, e, prepared, books', formed', allocated, obtained⟩ :=
    allocate_served books formed registered ran
  have granted := granted_of_formed books' formed' small allocated
  have served := allocate_fresh healthy registered small books'.regular granted.room obtained
  cases ran.symm.trans served
  refine ⟨d, w₁, registered, prepared, formed'.gains books' small granted ?_⟩
  -- The state after the request is one that the heap can reach, and the object is one of those it holds.
  have done : (Operation.allocate id extra).run w = .ok () _ := run_bind served
  have after : Reached _ := .done reached done
  have type : w₁.heap.types.get? id = some d := by
    rcases prepared with ⟨-, report, collected⟩ | ⟨-, rfl⟩
    · obtain ⟨⟨e', m', rfl⟩, -⟩ := formed_of_runCollection books.close healthy (formed.close books) collected
      exact registered
    · exact registered
  have whole := formed'.fresh (w₁.heap.collector.layers.map (Layer.recordAllocation (footprint (d.fixedSize + extra))))
    books' granted type (Nat.le_add_right _ _) small
  exact after.aligned whole.fits ((granted.held _).2 (.inl rfl))

/-- In stress mode the first of two arrays, which nothing leads to, makes room for the new object. -/
theorem allocate_gains_in_place_of_garbage : ∃ w w' d w₁, Reached w ∧ w.WellFormed ∧
    w.heap.collector.engine.list = [Memory.origin + 24, Memory.origin + 64] ∧ w.heap.types.get? ⟨1⟩ = some d ∧
    allocate ⟨1⟩ 8 w = .ok (Memory.origin + 24) w' ∧ w.closed.Prepared w₁ (footprint (d.fixedSize + 8)) ∧
    w₁.Gains w' ⟨1⟩ (d.fixedSize + 8) (Memory.origin + 24) := by
  have ran : ((World.play (fun w _ => w.heap.poisoned = none) { mode := .stress, heapSize := 4096 } 1
      [.call (.register .references Descriptor.references_isWords), .call .pushRoot, .call (.addRoot ⟨0, 0⟩ (.cell 0)),
        .call (.allocateArray ⟨1⟩ 1), .writeWord (Memory.origin + 24) 8 (Memory.origin + 24),
        .setCell 0 (Memory.origin + 24), .call (.allocateArray ⟨1⟩ 0), .setCell 0 (Memory.origin + 64)]).any fun w =>
      match allocate ⟨1⟩ 8 w with
      | .ok obj _ => w.WellFormed ∧ w.heap.collector.engine.list = [Memory.origin + 24, Memory.origin + 64] ∧
          obj = Memory.origin + 24
      | .error _ _ => false) = true := by
    decide +kernel
  obtain ⟨w, played, shown⟩ := (Option.any_eq_true _ _).1 ran
  cases served : allocate ⟨1⟩ 8 w with
  | error x w' => simp only [served] at shown; cases shown
  | ok obj w' =>
    simp only [served] at shown
    obtain ⟨formed, held, rfl⟩ := of_decide_eq_true shown
    have reached := Reached.of_play played
    obtain ⟨d, w₁, registered, prepared, gains⟩ := allocate_gains reached formed served
    exact ⟨w, w', d, w₁, reached, formed, held, registered, served, prepared, gains⟩

end Heap

end TracingHeap
