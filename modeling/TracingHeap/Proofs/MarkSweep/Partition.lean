import TracingHeap.Proofs.Heap.Lasting
import TracingHeap.Proofs.Heap.Scripts
import TracingHeap.Proofs.MarkSweep.Complete

/-! The records and the free list make up the arena.

Whatever a program writes, and whether its calls succeed or fail, the blocks that have been handed out and those
that are free divide the arena among them. A collection that fails changes headers but no book, so this holds
also of a heap that is poisoned. -/

set_option autoImplicit false

namespace TracingHeap

/-- The arena of a heap that does not move its objects is on its books completely. -/
def World.Complete (w : World) : Prop := ∀ c, w.heap.collector.engine = .markSweep c →
  c.Complete ∧ w.memory.Regular ∧ w.memory.holds c.start c.size = true

namespace World.Complete

-- Of a collection that does not move, only one that succeeds replaces the books. The other collectors stay what
-- they are.
theorem collected (w : World) (complete : w.Complete) : Complete (after (Heap.runCollector w)) := by
  intro c' engine'
  unfold Heap.runCollector Collector.collect Engine.collect at engine' ⊢
  cases engine : w.heap.collector.engine with
  | markSweep c =>
    obtain ⟨books, regular, inside⟩ := complete c engine
    simp only [engine] at engine' ⊢
    have shape := MarkSweep.always_collect w.heap.types w.heap.roots.slots c w.memory
    cases ran : c.collect w.heap.types w.heap.roots.slots w.memory with
    | ok pair m' =>
      obtain ⟨c₁, report⟩ := pair
      simp only [ran] at engine' ⊢
      cases engine'
      obtain ⟨-, start, size, shape⟩ := MarkSweep.ledger_collect books.ledger regular inside ran
      refine ⟨MarkSweep.complete_collect books regular inside ran, regular.of_sameShape shape, ?_⟩
      show m'.holds c'.start c'.size = true
      rw [start, size, shape.holds]
      exact inside
    | error x m' =>
      simp only [ran] at engine' shape ⊢
      cases engine'
      exact ⟨books, regular.of_sameShape shape, by rw [← inside]; exact shape.holds _ _⟩
  | copying c =>
    simp only [engine] at engine'
    cases ran : c.collect w.heap.types w.heap.roots.slots w.memory <;> simp only [ran] at engine' <;> cases engine'
  | leaky c =>
    simp only [engine] at engine'
    cases engine'

theorem taken (w : World) (size : Nat) (aligned : wordSize ∣ size) (large : smallestBlock ≤ size)
    (complete : w.Complete) : Complete (after (Heap.takeBlock size w)) := by
  intro c' engine'
  unfold Heap.takeBlock Collector.allocate at engine' ⊢
  cases allocated : w.heap.collector.engine.allocate size with
  | none =>
    simp only [allocated, Option.map_none] at engine' ⊢
    exact complete c' engine'
  | some pair =>
    simp only [allocated, Option.map_some] at engine' ⊢
    cases engine : w.heap.collector.engine with
    | markSweep c =>
      obtain ⟨books, regular, inside⟩ := complete c engine
      rw [engine] at allocated
      obtain ⟨⟨block, c₁⟩, found, same⟩ := Option.map_eq_some_iff.1 allocated
      cases same
      cases engine'
      obtain ⟨-, start, whole, -⟩ := MarkSweep.ledger_allocate books.ledger (Nat.le_trans (by decide) large) found
      exact ⟨MarkSweep.complete_allocate books aligned large found, regular, by rw [start, whole]; exact inside⟩
    | copying c =>
      rw [engine] at allocated
      obtain ⟨⟨block, c₁⟩, -, same⟩ := Option.map_eq_some_iff.1 allocated
      cases same
      cases engine'
    | leaky c =>
      rw [engine] at allocated
      obtain ⟨⟨block, c₁⟩, -, same⟩ := Option.map_eq_some_iff.1 allocated
      cases same
      cases engine'

theorem lasting : World.Lasting World.Complete where
  untouched := by
    intro w w' complete same c engine
    obtain ⟨books, regular, inside⟩ := complete c (same.engine.symm.trans engine)
    exact ⟨books, regular.of_sameShape same.shape, by rw [same.shape.holds]; exact inside⟩
  collected := collected
  taken := taken

theorem created {config : Config} {m m' : Memory} {h : Heap} (created : Heap.create config m = .ok (h, m'))
    (regular : m'.Regular) : World.Complete ⟨h, m'⟩ := by
  intro c engine
  obtain ⟨accepted, engine', started, rfl⟩ := Heap.create_eq_ok created
  cases engine
  have inside := (Heap.books_create created regular).ledger.2
  obtain ⟨large, aligned⟩ := Config.check_eq_ok.1 accepted
  have fresh := Engine.created started
  generalize config.strategy = strategy at fresh
  cases fresh with
  | markSweep granted => exact ⟨MarkSweep.complete_create large aligned granted, regular, inside⟩

end World.Complete

theorem Reached.complete {w : World} (reached : Reached w) : w.Complete := by
  refine World.Complete.lasting.reached reached World.Complete.created fun complete regular same c engine => ?_
  obtain ⟨books, -, inside⟩ := complete c engine
  refine ⟨books, regular, (same c.start ?_ c.size).trans inside⟩
  rw [engine]
  exact List.mem_singleton_self _

namespace MarkSweep

/-- In every state that a heap can reach, poisoned or not, the recorded and the free blocks make up the arena. -/
theorem blocks_partition_arena {w : World} {c : MarkSweep} (reached : Reached w)
    (engine : w.heap.collector.engine = .markSweep c) : c.Partition := (reached.complete c engine).1.partition

/-- Of three objects the one in the middle is given back, then the first loses its magic byte and the next collection
fails. -/
theorem blocks_partition_arena_poisoned : ∃ w c, Reached w ∧ w.heap.collector.engine = .markSweep c ∧
    w.heap.poisoned.isSome ∧ c.blocks = [⟨Memory.origin, 40⟩, ⟨Memory.origin + 72, 32⟩] ∧
    c.free.blocks = [⟨Memory.origin + 40, 32⟩, ⟨Memory.origin + 104, 3992⟩] ∧ c.Partition := by
  have ran : ((World.play (fun w _ => w.heap.poisoned = none) { heapSize := 4096 } 2
      [.call (.register .references Descriptor.references_isWords), .call .pushRoot, .call (.addRoot ⟨0, 0⟩ (.cell 0)),
        .call (.addRoot ⟨0, 0⟩ (.cell 1)), .call (.allocateArray ⟨1⟩ 1), .setCell 0 (Memory.origin + 24),
        .call (.allocateArray ⟨1⟩ 0), .call (.allocateArray ⟨1⟩ 0), .setCell 1 (Memory.origin + 96), .call .collect,
        .write (Memory.origin + 24) (Memory.origin + 4) ⟨#[0]⟩]).any fun w =>
      w.onRefusal .collect fun _ w' => w'.onMarkSweep fun c => w'.heap.poisoned.isSome ∧
        c.blocks = [⟨Memory.origin, 40⟩, ⟨Memory.origin + 72, 32⟩] ∧
        c.free.blocks = [⟨Memory.origin + 40, 32⟩, ⟨Memory.origin + 104, 3992⟩]) = true := by
    decide +kernel
  obtain ⟨w, played, shown⟩ := (Option.any_eq_true _ _).1 ran
  obtain ⟨e, w', failed, shown⟩ := World.onRefusal_eq_true.1 shown
  obtain ⟨c, engine, shown⟩ := World.onMarkSweep_eq_true.1 shown
  obtain ⟨poisoned, blocks, free⟩ := of_decide_eq_true shown
  have reached : Reached w' := .refused (.of_play played) failed
  exact ⟨w', c, reached, engine, poisoned, blocks, free, blocks_partition_arena reached engine⟩

end MarkSweep

end TracingHeap
