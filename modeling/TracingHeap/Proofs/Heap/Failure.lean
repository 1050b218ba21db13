import TracingHeap.Proofs.Heap.Demand
import TracingHeap.Proofs.MarkSweep.Interruption
import TracingHeap.Proofs.MarkSweep.Partition

/-! Collections that fail.

Whatever a collection meets in the memory and however far it gets, if it reports a violation it has given nothing back: the
books say what they said, and the heap is poisoned before anybody can ask for room again. -/

set_option autoImplicit false

namespace TracingHeap

/-- The engines hold the same objects and have as much room. -/
structure Engine.SameBooks (e e' : Engine) : Prop where
  owns : ∀ p, e'.owns p = e.owns p
  objectCount : e'.objectCount = e.objectCount
  liveBytes : e'.liveBytes = e.liveBytes
  availableBytes : e'.availableBytes = e.availableBytes

theorem Engine.SameBooks.refl (e : Engine) : SameBooks e e := ⟨fun _ => rfl, rfl, rfl, rfl⟩

section

variable {types : TypeTable} {roots : List Slot} {e e' : Engine} {m m' : Memory} {x : Failure} {c : MarkSweep}

/-- Copies that have been made take up room in the reserve. The books are about the active space. -/
theorem Engine.sameBooks_of_error (failed : Engine.collect types roots (e, m) = .error x (e', m')) : e.SameBooks e' := by
  cases e with
  | markSweep c =>
    unfold collect at failed
    cases ran : c.collect types roots m <;> simp only [ran] at failed <;> cases failed
    exact .refl _
  | copying c =>
    unfold collect Copying.collect at failed
    cases ran : Copying.evacuateAll types roots c.resident { memory := m, reserve := c.spaces.reserve } <;>
      simp only [ran] at failed <;> cases failed
    exact ⟨fun _ => rfl, rfl, rfl, rfl⟩
  | leaky c => cases failed

theorem MarkSweep.collect_eq_error (failed : Engine.collect types roots (.markSweep c, m) = .error x (e', m')) :
    e' = .markSweep c ∧ c.collect types roots m = .error x m' := by
  unfold Engine.collect at failed
  cases ran : c.collect types roots m <;> simp only [ran] at failed <;> cases failed
  exact ⟨rfl, rfl⟩

end

/-- The slot lies outside the arenas of an engine. -/
def Slot.Outside (s : Slot) (e : Engine) : Prop := ∀ a, s = .field a → ∀ i, i < wordSize → ¬ e.Within (a + i)

/-- The state bytes of held headers lie inside. -/
theorem MarkSweep.Ledger.state_within {c : MarkSweep} (ledger : c.Ledger) {p : Nat} (owns : c.owns p = true) :
    (Engine.markSweep c).Within (blockOf p + 5) := by
  obtain ⟨-, n, record⟩ := owns_iff.1 owns
  obtain ⟨large, first, last⟩ := ledger.record _ _ record
  show c.start ≤ blockOf p + 5 ∧ blockOf p + 5 < c.start + c.size
  unfold headerSize at large
  omega

/-- The heap refuses whatever would change what it holds, and has changed nothing since it was in the first state. -/
structure World.Frozen (w : World) (x : HeapError) (w' : World) : Prop where
  poisoned : w'.heap.poisoned = some x
  books : w.heap.collector.engine.SameBooks w'.heap.collector.engine
  collect : Heap.collect w' = .error (.violation x) w'
  allocate : ∀ id extra, Heap.allocate id extra w' = .error (.violation x) w'
  allocateArray : ∀ id count, ∃ e, Heap.allocateArray id count w' = .error (.violation e) w'

/-- The world after a collection that has failed. -/
def World.interrupted (w : World) (x : HeapError) (e : Engine) (m : Memory) : World where
  heap := { w.heap with collector := { w.heap.collector with engine := e }, poisoned := some x }
  memory := m

namespace Heap

variable {w w₁ : World} {x : HeapError} {e : Engine} {m : Memory} {op : Operation}

theorem runCollection_interrupted (healthy : w.heap.poisoned = none)
    (failed : Engine.collect w.heap.types w.heap.roots.slots (w.heap.collector.engine, w.memory) =
      .error (.violation x) (e, m)) : runCollection w = .error (.violation x) (w.interrupted x e m) := by
  have stopped : poisoning runCollector w = .error (.violation x) (w.interrupted x e m) := by
    simp only [poisoning, runCollector, Collector.collect, failed, violate, poison, healthy]
    rfl
  exact run_bind_error stopped

theorem finish_interrupted {x : Failure} (healthy : w.heap.poisoned = none) (empty : w.heap.roots.depth = 0)
    (failed : runCollection w = .error x w₁) : finish w = .error x w₁ := by
  unfold finish
  rw [run_bind (checkPoisoned_ok healthy), run_bind_get]
  simp only [empty, ne_eq, not_true_eq_false, if_false]
  exact run_bind_error failed

theorem allocate_interrupted {id : TypeId} {extra : Nat} {x : Failure} (triggers : (Operation.allocate id extra).Triggers w)
    (failed : runCollection w = .error x w₁) : allocate id extra w = .error x w₁.closed := by
  obtain ⟨healthy, size, asked, waits⟩ := triggers
  obtain ⟨d, registered, small, rfl⟩ := TypeTable.blockFor?_eq_some.1 asked
  obtain ⟨_, failed', rfl⟩ := (runCollection_closed w).of_error failed
  have waits' : Waits w.closed (footprint (d.fixedSize + extra)) := waits
  rw [allocate_eq healthy registered small]
  exact run_bind_error (obtainBlock_error waits' failed')

/-- The failure of a collection is the failure of the call that has triggered it. -/
theorem run_interrupted {x : Failure} (triggers : op.Triggers w) (failed : runCollection w = .error x w₁) :
    op.run w = .error x w₁ ∨ op.run w = .error x w₁.closed := by
  obtain ⟨healthy, rfl | ⟨size, asked, waits⟩⟩ := op.triggers_iff.1 triggers
  · exact .inl (run_bind_error ((collect_eq healthy).trans failed))
  · obtain ⟨id, extra, block, call⟩ := Operation.of_request asked
    have inner : allocate id extra w = .error x w₁.closed := allocate_interrupted ⟨healthy, size, block, waits⟩ failed
    rcases call with rfl | ⟨count, d, r, registered, region, rfl, rfl⟩
    · exact .inr (run_bind_error inner)
    · have outer : allocateArray id count w = .error x w₁.closed := by
        unfold allocateArray
        rw [run_bind (requireType_ok registered), region]
        exact run_bind_error inner
      exact .inr (run_bind_error outer)

/-- From now on the heap is frozen, whatever the program does. -/
theorem frozen_of_later {w' : World} (poisoned : w₁.heap.poisoned = some x)
    (books : w.heap.collector.engine.SameBooks w₁.heap.collector.engine) (later : w₁.Later w') : w.Frozen x w' := by
  obtain ⟨still, same⟩ := later.poisoned poisoned
  refine ⟨still, ?_, collect_poisoned still, allocate_poisoned still, fun id count => ⟨_, allocateArray_poisoned still id count⟩⟩
  rw [same]
  exact books

/-- A collection that reports a violation reclaims nothing, however far it has come and whatever it has met: what is held,
how much of it there is and how much room there is are as before, and where objects are not moved so are the free blocks,
the root slots and all bytes but those that hold the state of a held object. The call that has come to it fails with the
same violation, and from then on the heap hands out nothing, whatever the program does. -/
theorem failed_collection_reclaims_nothing (reached : Reached w)
    (failed : Engine.collect w.heap.types w.heap.roots.slots (w.heap.collector.engine, w.memory) =
      .error (.violation x) (e, m)) :
    w.heap.collector.engine.SameBooks e ∧
      (∀ c, w.heap.collector.engine = .markSweep c → e = .markSweep c ∧
        (∀ a, (∀ p, c.owns p = true → a ≠ blockOf p + 5) → m.byte a = w.memory.byte a) ∧
        ∀ s ∈ w.heap.roots.slots, s.Outside (.markSweep c) → m.slot s = w.memory.slot s) ∧
      (∀ op : Operation, op.Triggers w → ∃ w₁, op.run w = .error (.violation x) w₁ ∧
        w₁.heap.collector.engine = e ∧ w₁.memory = m ∧ ∀ w', w₁.Later w' → w.Frozen x w') ∧
      (w.heap.poisoned = none → w.heap.roots.depth = 0 → finish w = .error (.violation x) (w.interrupted x e m)) := by
  have books := Engine.sameBooks_of_error failed
  refine ⟨books, fun c engine => ?_, fun op triggers => ?_, fun healthy empty => ?_⟩
  · rw [engine] at failed
    obtain ⟨rfl, ran⟩ := MarkSweep.collect_eq_error failed
    obtain ⟨restated, readable⟩ := MarkSweep.collect_refused ran
    obtain ⟨complete, regular, -⟩ := reached.complete c engine
    refine ⟨rfl, restated.byte, fun s root outside => ?_⟩
    refine restated.slot_eq regular (readable s root) fun a field i lt p owns meets => ?_
    exact outside a field i lt (meets ▸ complete.ledger.state_within owns)
  · have stopped := runCollection_interrupted triggers.1 failed
    rcases run_interrupted triggers stopped with ran | ran
    · exact ⟨_, ran, rfl, rfl, fun w' later => frozen_of_later rfl books later⟩
    · exact ⟨_, ran, rfl, rfl, fun w' later => frozen_of_later rfl books later⟩
  · exact finish_interrupted healthy empty (runCollection_interrupted healthy failed)

/-- The sweep stops at the second of three objects, which nobody refers to and whose magic byte is gone. The mark of the
first one has been taken off by then, that of the third one stays. -/
theorem failed_collection_reclaims_nothing_mid_sweep : ∃ w x e m, Reached w ∧ w.heap.poisoned = none ∧
    Engine.collect w.heap.types w.heap.roots.slots (w.heap.collector.engine, w.memory) = .error (.violation x) (e, m) ∧
    x = .corrupted (Memory.origin + 56) (.badMagic 0) ∧ m.byte (Memory.origin + 5) = 0 ∧
    m.byte (Memory.origin + 69) = 1 ∧ w.memory.byte (Memory.origin + 69) = 0 ∧ e.objectCount = 3 ∧ e.liveBytes = 96 ∧
    ∃ w₁, Operation.collect.run w = .error (.violation x) w₁ ∧ w.Frozen x w₁ := by
  have ran : ((World.play (fun w _ => w.heap.poisoned = none) { heapSize := 4096 } 1
      [.call (.register .link Descriptor.link_isWords), .call .pushRoot, .call (.addRoot ⟨0, 0⟩ (.cell 0)),
        .call (.allocate ⟨1⟩ 0), .setCell 0 (Memory.origin + 24), .call (.allocate ⟨1⟩ 0), .call (.allocate ⟨1⟩ 0),
        .writeWord (Memory.origin + 24) 0 (Memory.origin + 88),
        .write (Memory.origin + 56) (Memory.origin + 36) ⟨#[0]⟩]).any fun w : World =>
      match Engine.collect w.heap.types w.heap.roots.slots (w.heap.collector.engine, w.memory) with
      | .error (.violation x) (_, m) => decide (w.heap.poisoned = none ∧
          x = .corrupted (Memory.origin + 56) (.badMagic 0) ∧ m.byte (Memory.origin + 5) = 0 ∧
          m.byte (Memory.origin + 69) = 1 ∧ w.memory.byte (Memory.origin + 69) = 0 ∧
          w.heap.collector.engine.objectCount = 3 ∧ w.heap.collector.engine.liveBytes = 96)
      | .error (.fault _) _ => false
      | .ok _ _ => false) = true := by
    decide +kernel
  obtain ⟨w, played, shown⟩ := (Option.any_eq_true _ _).1 ran
  cases failed : Engine.collect w.heap.types w.heap.roots.slots (w.heap.collector.engine, w.memory) with
  | ok report pair => rw [failed] at shown; cases shown
  | error y pair =>
    obtain ⟨e, m⟩ := pair
    rw [failed] at shown
    cases y with
    | fault f => cases shown
    | violation x =>
      obtain ⟨healthy, rfl, reset, marked, before, count, live⟩ := of_decide_eq_true shown
      obtain ⟨books, -, calls, -⟩ := failed_collection_reclaims_nothing (Reached.of_play played) failed
      obtain ⟨w₁, stopped, -, -, frozen⟩ := calls .collect ⟨healthy, trivial⟩
      exact ⟨w, _, e, m, Reached.of_play played, healthy, failed, rfl, reset, marked, before,
        books.objectCount.trans count, books.liveBytes.trans live, w₁, stopped, frozen w₁ .refl⟩

end Heap

end TracingHeap
