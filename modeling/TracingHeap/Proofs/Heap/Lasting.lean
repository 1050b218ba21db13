import TracingHeap.Proofs.Heap.Runs
import TracingHeap.Proofs.Heap.Steps
import TracingHeap.Proofs.Space.Blocks

/-! What every call leaves as it is.

A call changes the engine in two places only: when the collector runs and when a block is handed out. A property of
the engine and the arenas that outlasts these two outlasts every call, whatever its outcome: also one that fails
half-way, and also one that ends in a fault. -/

set_option autoImplicit false

namespace TracingHeap

/-- The configuration, the engine and the arenas are as before. -/
structure World.Untouched (w w' : World) : Prop where
  config : w'.heap.config = w.heap.config
  engine : w'.heap.collector.engine = w.heap.collector.engine
  shape : w.memory.SameShape w'.memory

theorem World.Untouched.of_heap {h h' : Heap} (m : Memory) (config : h'.config = h.config)
    (engine : h'.collector.engine = h.collector.engine) : Untouched ⟨h, m⟩ ⟨h', m⟩ := ⟨config, engine, .refl m⟩

/-- A property that lasts as long as the engine does what it has to. -/
structure World.Lasting (P : World → Prop) : Prop where
  untouched : ∀ {w w'}, P w → w.Untouched w' → P w'
  collected : ∀ w, P w → P (after (Heap.runCollector w))
  taken : ∀ w size, wordSize ∣ size → smallestBlock ≤ size → P w → P (after (Heap.takeBlock size w))

/-- If the property held it still does. -/
def World.Stays (P : World → Prop) (w w' : World) : Prop := P w → P w'

namespace World.Lasting

open Heap

variable {P : World → Prop} {α β : Type}

theorem refl (w : World) : w.Stays P w := fun holds => holds

theorem trans (w w' w'' : World) (first : w.Stays P w') (second : w'.Stays P w'') : w.Stays P w'' :=
  fun holds => second (first holds)

theorem pure (a : α) : Always (Stays P) (pure a : HeapM α) := .pure refl a

theorem bind {act : HeapM α} {next : α → HeapM β} (first : Always (Stays P) act)
    (later : ∀ a, Always (Stays P) (next a)) : Always (Stays P) (act >>= next) :=
  .bind trans first later

theorem exists_of {ι : Type} {P : ι → World → Prop} (lasting : ∀ i, World.Lasting (P i)) :
    World.Lasting fun w => ∃ i, P i w where
  untouched := fun ⟨i, holds⟩ same => ⟨i, (lasting i).untouched holds same⟩
  collected := fun w ⟨i, holds⟩ => ⟨i, (lasting i).collected w holds⟩
  taken := fun w size aligned large ⟨i, holds⟩ => ⟨i, (lasting i).taken w size aligned large holds⟩

variable (lasting : World.Lasting P)

include lasting

theorem of_untouched {act : HeapM α} (untouched : ∀ w : World, w.Untouched (after (act w))) : Always (Stays P) act :=
  fun w holds => lasting.untouched holds (untouched w)

theorem across : World.Across (Stays P) where
  refl := refl
  trans := trans
  noted := fun _ _ holds => lasting.untouched holds (.of_heap _ rfl rfl)
  collected := lasting.collected
  taken := fun size aligned large w => lasting.taken w size aligned large

theorem access {act : Access α} (always : Always Memory.SameShape act) : Always (Stays P) (access act) := by
  refine lasting.of_untouched fun ⟨heap, m⟩ => ?_
  have shape := always m
  unfold Heap.access
  cases ran : act m <;> rw [ran] at shape <;> simp only [ran] <;> exact ⟨rfl, rfl, shape⟩

theorem changeRoots (f : RootStack → Except RootViolation RootStack) : Always (Stays P) (changeRoots f) := by
  refine lasting.of_untouched fun ⟨heap, m⟩ => ?_
  unfold Heap.changeRoots
  cases changed : f heap.roots <;> simp only [changed] <;> exact .of_heap _ rfl rfl

theorem register (d : Descriptor) : Always (Stays P) (register d) := by
  refine lasting.of_untouched fun ⟨heap, m⟩ => ?_
  unfold Heap.register
  cases registered : heap.types.register d <;> simp only [registered] <;> exact .of_heap _ rfl rfl

theorem allocate (id : TypeId) (extra : Nat) : Always (Stays P) (allocate id extra) := by
  unfold Heap.allocate
  refine bind lasting.across.checkPoisoned fun _ => bind (lasting.across.requireType id) fun d => ?_
  refine bind (lasting.of_untouched fun _ => .of_heap _ rfl rfl) fun _ => ?_
  by_cases large : Word.saturate (d.fixedSize + extra) > largestPayload
  · simp only [large, if_true]
    exact lasting.across.refuse _
  · simp only [large, if_false]
    refine bind (lasting.across.obtainBlock (dvd_footprint _)
      (smallestBlock_le_footprint (Nat.le_of_not_lt large))) fun block => ?_
    refine bind (lasting.access ?_) fun _ => pure _
    have refl (m : Memory) : m.SameShape m := .refl m
    refine .bind (fun _ _ _ first second => first.trans second)
      (Access.always_guarded refl fun m => Memory.sameShape_clear m _ _) fun _ => ?_
    exact Access.always_guarded refl fun m => Memory.sameShape_setHeader m _ _

theorem allocateArray (id : TypeId) (count : Nat) : Always (Stays P) (allocateArray id count) := by
  unfold Heap.allocateArray
  refine bind (lasting.across.requireType id) fun d => ?_
  cases d.region with
  | none => exact .throw refl _
  | some region =>
    refine bind (lasting.allocate id _) fun obj => bind (lasting.access ?_) fun _ => pure _
    exact Access.always_guarded (fun m => .refl m) fun m => Memory.sameShape_setWord m _ _

/-- It outlasts every call, whatever the outcome. -/
theorem run (op : Operation) : Always (Stays P) op.run := by
  cases op with
  | register d words => exact bind (lasting.register d) fun _ => pure _
  | allocate id extra => exact bind (lasting.allocate id extra) fun _ => pure _
  | allocateArray id count => exact bind (lasting.allocateArray id count) fun _ => pure _
  | collect => exact bind (bind lasting.across.checkPoisoned fun _ => lasting.across.runCollection) fun _ => pure _
  | pushRoot => exact bind (lasting.of_untouched fun _ => .of_heap _ rfl rfl) fun _ => pure _
  | popRoot handle => exact lasting.changeRoots fun roots => roots.pop handle
  | addRoot handle s => exact lasting.changeRoots fun roots => roots.add handle s
  | addGlobal s => exact lasting.changeRoots fun roots => .ok (roots.addGlobal s)

/-- If it holds of every new heap, and no program can break it by writing, it holds in every state. -/
theorem reached {w : World} (reached : Reached w)
    (created : ∀ {config m h m'}, Heap.create config m = .ok (h, m') → m'.Regular → P ⟨h, m'⟩)
    (program : ∀ {w m'}, P w → m'.Regular → (∀ start ∈ w.heap.collector.engine.arenas, ∀ n,
      m'.holds start n = w.memory.holds start n) → P { w with memory := m' }) : P w := by
  induction reached with
  | create made regular => exact created made regular
  | done _ ran ih => exact (lasting.run _).of_ok ran ih
  | refused _ ran ih => exact (lasting.run _).of_error ran ih
  | program _ regular same ih => exact program ih regular same

end World.Lasting

end TracingHeap
