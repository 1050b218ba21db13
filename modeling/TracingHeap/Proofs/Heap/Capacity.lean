import TracingHeap.Proofs.Heap.Lasting

/-! How much a heap can hold.

The configuration decides it when the heap is created. No call changes it, not even one that fails. -/

set_option autoImplicit false

namespace TracingHeap

/-- The bytes that the engine can hand out at most. -/
def Engine.capacity : Engine → Nat
  | markSweep c => c.size
  | copying c => c.spaces.size
  | leaky c => c.space.size

/-- What a configuration asks for. A heap that moves its objects uses one half of its bytes at a time. -/
def Config.capacity (config : Config) : Nat :=
  match config.strategy with
  | .copying => Word.floor (config.heapSize / 2)
  | .markSweep | .leaky => config.heapSize

namespace Engine

variable {e e' : Engine} {m m' : Memory}

/-- The engine is of the same kind and the same capacity. -/
structure SameKind (e e' : Engine) : Prop where
  strategy : e'.strategy = e.strategy
  capacity : e'.capacity = e.capacity

theorem SameKind.refl (e : Engine) : SameKind e e := ⟨rfl, rfl⟩

theorem sameKind_allocate {size block : Nat} (found : e.allocate size = some (block, e')) : SameKind e e' := by
  cases allocated found with
  | markSweep took =>
    obtain ⟨_, -, same⟩ := Option.map_eq_some_iff.1 took
    cases same
    exact ⟨rfl, rfl⟩
  | copying room => exact ⟨rfl, rfl⟩
  | leaky room => exact ⟨rfl, rfl⟩

end Engine

namespace MarkSweep

variable {c c' : MarkSweep} {m m' : Memory}

theorem size_reclaimAll {dead : List Block} (ran : c.reclaimAll dead m = .ok c' m') : c'.size = c.size := by
  induction dead generalizing c m with
  | nil => cases ran; rfl
  | cons b rest ih =>
    cases cleared : Access.clear b.start b.size m with
    | error x m₁ =>
      have failed : c.reclaim b m = .error x m₁ := run_bind_error cleared
      rw [reclaimAll, run_bind_error failed] at ran
      cases ran
    | ok _ m₁ =>
      have reclaimed : c.reclaim b m =
          .ok { c with records := c.records.erase b.start, free := c.free.insert b.start b.size } m₁ := run_bind cleared
      rw [reclaimAll, run_bind reclaimed] at ran
      exact (ih ran).trans rfl

theorem size_collect {types : TypeTable} {roots : List Slot} {report : CollectionReport}
    (ran : c.collect types roots m = .ok (c', report) m') : c'.size = c.size := by
  obtain ⟨m₁, dead, -, -, -, reclaimed⟩ := collect_eq_ok ran
  exact size_reclaimAll reclaimed

end MarkSweep

namespace Engine

variable {e : Engine} {m : Memory}

theorem sameKind_collect (types : TypeTable) (roots : List Slot) :
    SameKind e (after (Engine.collect types roots (e, m))).1 := by
  unfold Engine.collect
  cases e with
  | markSweep c =>
    cases ran : c.collect types roots m with
    | ok pair m' =>
      simp only [ran]
      exact ⟨rfl, MarkSweep.size_collect ran⟩
    | error x m' =>
      simp only [ran]
      exact .refl _
  | copying c =>
    unfold Copying.collect
    cases ran : Copying.evacuateAll types roots c.resident { memory := m, reserve := c.spaces.reserve } <;>
      simp only [ran] <;> exact ⟨rfl, rfl⟩
  | leaky c => exact .refl _

end Engine

/-- The heap is of the kind and the size that a configuration asks for. -/
structure World.Built (config : Config) (w : World) : Prop where
  configured : w.heap.config = config
  strategy : w.heap.collector.engine.strategy = config.strategy
  capacity : w.heap.collector.engine.capacity = config.capacity

namespace World.Built

variable {config : Config} {w w' : World}

theorem of_sameKind (built : w.Built config) (unchanged : w'.heap.config = w.heap.config)
    (same : w.heap.collector.engine.SameKind w'.heap.collector.engine) : w'.Built config where
  configured := unchanged.trans built.configured
  strategy := same.strategy.trans built.strategy
  capacity := same.capacity.trans built.capacity

theorem collected (w : World) (built : w.Built config) : Built config (after (Heap.runCollector w)) := by
  have same := Engine.sameKind_collect (e := w.heap.collector.engine) (m := w.memory) w.heap.types w.heap.roots.slots
  unfold Heap.runCollector Collector.collect
  cases ran : Engine.collect w.heap.types w.heap.roots.slots (w.heap.collector.engine, w.memory) <;>
    simp only [ran] at same ⊢ <;> exact built.of_sameKind rfl same

theorem taken (w : World) (size : Nat) (built : w.Built config) : Built config (after (Heap.takeBlock size w)) := by
  unfold Heap.takeBlock Collector.allocate
  cases allocated : w.heap.collector.engine.allocate size with
  | none =>
    simp only [allocated, Option.map_none]
    exact built
  | some pair =>
    simp only [allocated, Option.map_some]
    exact built.of_sameKind rfl (Engine.sameKind_allocate allocated)

theorem lasting (config : Config) : World.Lasting (World.Built config) where
  untouched built same := built.of_sameKind same.config (same.engine ▸ .refl _)
  collected := collected
  taken w size _ _ := taken w size

theorem created {m m' : Memory} {h : Heap} (created : Heap.create config m = .ok (h, m')) :
    World.Built config ⟨h, m'⟩ := by
  obtain ⟨-, engine, started, rfl⟩ := Heap.create_eq_ok created
  have fresh := Engine.created started
  suffices engine.strategy = config.strategy ∧ engine.capacity = config.capacity from ⟨rfl, this.1, this.2⟩
  unfold Config.capacity
  generalize config.strategy = strategy at fresh ⊢
  cases fresh <;> exact ⟨rfl, rfl⟩

end World.Built

/-- In every state, poisoned or not, the heap is what its configuration asks for. -/
theorem Reached.built {w : World} (reached : Reached w) : w.Built w.heap.config := by
  have lasting := World.Lasting.exists_of World.Built.lasting
  obtain ⟨config, built⟩ : ∃ config, w.Built config :=
    lasting.reached reached (fun made _ => ⟨_, .created made⟩) fun ⟨config, built⟩ _ _ =>
      ⟨config, built.configured, built.strategy, built.capacity⟩
  rwa [built.configured]

end TracingHeap
