import TracingHeap.Heap.Allocation
import TracingHeap.Proofs.Collector.Books
import TracingHeap.Proofs.Layout.Registration

/-! What can happen to a heap.

A program may call the operations of the heap in any order, and between two of them it may write whatever it
likes. Whatever it does, the books of a heap that is not poisoned are in order. -/

set_option autoImplicit false

namespace TracingHeap

/-- What a heap that is not poisoned can rely on, whatever stands in its memory. -/
structure World.Books (w : World) : Prop where
  regular : w.memory.Regular
  types : w.heap.types.Checked
  ledger : w.heap.collector.engine.Ledger w.memory

-- A collection that fails half-way leaves headers that name copies and a space that is half full. The heap is then
-- poisoned, and the calls that would use the books refuse.
def World.Orderly (w : World) : Prop := w.heap.poisoned = none → w.Books

/-- The calls that a program can make. -/
inductive Operation where
  | register (d : Descriptor) (words : d.IsWords)
  | allocate (id : TypeId) (extra : Nat)
  | allocateArray (id : TypeId) (count : Nat)
  | collect
  | pushRoot
  | popRoot (handle : RootHandle)
  | addRoot (handle : RootHandle) (s : Slot)
  | addGlobal (s : Slot)

def Operation.run : Operation → HeapM Unit
  | register d _ => do let _ ← Heap.register d
  | allocate id extra => do let _ ← Heap.allocate id extra
  | allocateArray id count => do let _ ← Heap.allocateArray id count
  | collect => do let _ ← Heap.collect
  | pushRoot => do let _ ← Heap.pushRoot
  | popRoot handle => Heap.popRoot handle
  | addRoot handle s => Heap.addRoot handle s
  | addGlobal s => Heap.addGlobal s

/-- The states of a heap. Nothing is promised after a fault, so a run ends there. -/
inductive Reached : World → Prop where
  | create {config : Config} {m m' : Memory} {h : Heap} : Heap.create config m = .ok (h, m') → m'.Regular →
      Reached ⟨h, m'⟩
  | done {w w' : World} {op : Operation} : Reached w → op.run w = .ok () w' → Reached w'
  | refused {w w' : World} {op : Operation} {e : HeapError} : Reached w → op.run w = .error (.violation e) w' →
      Reached w'
  /-- The program writes, and may have other arenas and cells come and go. -/
  | program {w : World} {m' : Memory} : Reached w → m'.Regular →
      (∀ start ∈ w.heap.collector.engine.arenas, ∀ n, m'.holds start n = w.memory.holds start n) →
      Reached { w with memory := m' }

namespace Heap

open World

variable {α : Type}

theorem keeps_violate (e : HeapError) : Keeps Orderly (violate e : HeapM α) := by
  refine ⟨fun _ ran => (nomatch ran), fun {w w' e'} holds ran => ?_⟩
  cases ran
  intro healthy
  cases poisoned : w.heap.poisoned <;> simp [poison, poisoned] at healthy

theorem keeps_poisoning {act : HeapM α} (keeps : Keeps Orderly act) : Keeps Orderly (poisoning act) := by
  constructor
  · intro w w' a holds ran
    unfold poisoning at ran
    cases step : act w with
    | ok b t =>
      rw [step] at ran
      cases ran
      exact keeps.ok holds step
    | error x t =>
      rw [step] at ran
      cases x with
      | violation e => exact (keeps_violate e).ok (keeps.refused holds step) ran
      | fault f => cases ran
  · intro w w' e holds ran
    unfold poisoning at ran
    cases step : act w with
    | ok b t =>
      rw [step] at ran
      cases ran
    | error x t =>
      rw [step] at ran
      cases x with
      | violation e' => exact (keeps_violate e').refused (keeps.refused holds step) ran
      | fault f => cases ran

theorem keeps_access {act : Access α} (always : Always Memory.SameShape act) : Keeps Orderly (access act) := by
  have kept {w : World} {m' : Memory} (holds : Orderly w) (shape : w.memory.SameShape m') :
      Orderly ⟨w.heap, m'⟩ := fun healthy =>
    have books := holds healthy
    ⟨books.regular.of_sameShape shape, books.types, books.ledger.of_sameShape shape⟩
  constructor
  · intro w w' a holds ran
    unfold access at ran
    cases step : act w.memory with
    | ok b m' =>
      simp only [step] at ran
      cases ran
      exact kept holds (always.of_ok step)
    | error x m' => simp only [step] at ran; cases ran
  · intro w w' e holds ran
    unfold access at ran
    cases step : act w.memory with
    | ok b m' => simp only [step] at ran; cases ran
    | error x m' =>
      simp only [step] at ran
      cases ran
      exact kept holds (always.of_error step)

theorem keeps_look {f : Heap → Memory → Reading α} : Keeps Orderly (look f) := by
  constructor
  · intro w w' a holds ran
    unfold look at ran
    cases step : f w.heap w.memory <;> rw [step] at ran <;> cases ran
    exact holds
  · intro w w' e holds ran
    unfold look at ran
    cases step : f w.heap w.memory <;> rw [step] at ran <;> cases ran
    exact holds

theorem keeps_checkPoisoned : Keeps Orderly checkPoisoned := by
  constructor
  · intro w w' a holds ran
    unfold checkPoisoned at ran
    cases poisoned : w.heap.poisoned <;> rw [poisoned] at ran <;> cases ran
    exact holds
  · intro w w' e holds ran
    unfold checkPoisoned at ran
    cases poisoned : w.heap.poisoned <;> rw [poisoned] at ran <;> cases ran
    exact holds

theorem keeps_register {d : Descriptor} (words : d.IsWords) : Keeps Orderly (register d) := by
  constructor
  · intro w w' a holds ran
    unfold register at ran
    cases registered : w.heap.types.register d with
    | error e => simp only [registered] at ran; cases ran
    | ok pair =>
      simp only [registered] at ran
      cases ran
      intro healthy
      have books := holds healthy
      exact ⟨books.regular, books.types.register words registered, books.ledger⟩
  · intro w w' e holds ran
    unfold register at ran
    cases registered : w.heap.types.register d with
    | error e =>
      simp only [registered] at ran
      cases ran
      exact holds
    | ok pair => simp only [registered] at ran; cases ran

theorem keeps_changeRoots (f : RootStack → Except RootViolation RootStack) : Keeps Orderly (changeRoots f) := by
  constructor
  · intro w w' a holds ran
    unfold changeRoots at ran
    cases changed : f w.heap.roots with
    | error v => simp only [changed] at ran; cases ran
    | ok roots =>
      simp only [changed] at ran
      cases ran
      exact fun healthy => have books := holds healthy; ⟨books.regular, books.types, books.ledger⟩
  · intro w w' e holds ran
    unfold changeRoots at ran
    cases changed : f w.heap.roots with
    | error v =>
      simp only [changed] at ran
      exact (keeps_violate _).refused holds ran
    | ok roots => simp only [changed] at ran; cases ran

theorem keeps_pushRoot : Keeps Orderly pushRoot := by
  refine ⟨fun {w w' a} holds ran => ?_, fun _ ran => nomatch ran⟩
  cases ran
  exact fun healthy => have books := holds healthy; ⟨books.regular, books.types, books.ledger⟩

theorem keeps_closeTypes : Keeps Orderly closeTypes := by
  refine ⟨fun {w w' a} holds ran => ?_, fun _ ran => nomatch ran⟩
  cases ran
  exact fun healthy => have books := holds healthy; ⟨books.regular, books.types, books.ledger⟩

/-- A collection that fails poisons the heap, so only the books after a successful one matter. -/
theorem keeps_runCollector : Keeps Orderly (poisoning runCollector) := by
  constructor
  · -- It has succeeded: the engine has left its books in order, whatever it found in memory.
    intro w w' report holds ran
    unfold poisoning runCollector at ran
    cases collected : Collector.collect w.heap.types w.heap.roots.slots (w.heap.collector, w.memory) with
    | ok r pair =>
      simp only [collected] at ran
      cases ran
      unfold Collector.collect at collected
      cases engine : Engine.collect w.heap.types w.heap.roots.slots (w.heap.collector.engine, w.memory) with
      | ok r' pair' =>
        simp only [engine] at collected
        cases collected
        intro healthy
        have books := holds healthy
        obtain ⟨ledger, shape⟩ := Engine.ledger_collect books.ledger books.regular engine
        exact ⟨books.regular.of_sameShape shape, books.types, ledger⟩
      | error x pair' => simp only [engine] at collected; cases collected
    | error x pair =>
      simp only [collected] at ran
      cases x <;> cases ran
  · -- It has failed, and the heap that is left is not healthy.
    intro w w' e holds ran healthy
    unfold poisoning at ran
    cases step : runCollector w with
    | ok r t => simp only [step] at ran; cases ran
    | error x t =>
      simp only [step] at ran
      cases x with
      | fault f => cases ran
      | violation e' =>
        cases ran
        cases poisoned : t.heap.poisoned <;> simp [poison, poisoned] at healthy

theorem keeps_runCollection : Keeps Orderly runCollection := by
  unfold runCollection
  refine .bind keeps_runCollector fun report => .bind .get fun w => ?_
  split
  · exact .bind (keeps_poisoning keeps_look) fun _ => .pure _
  · exact .pure _

theorem keeps_takeBlock {size : Nat} (large : headerSize ≤ size) : Keeps Orderly (takeBlock size) := by
  constructor
  · intro w w' a holds ran
    unfold takeBlock at ran
    cases allocated : w.heap.collector.allocate size with
    | none =>
      simp only [allocated] at ran
      cases ran
      exact holds
    | some pair =>
      simp only [allocated] at ran
      cases ran
      obtain ⟨⟨block, engine⟩, found, rfl⟩ := Option.map_eq_some_iff.1 allocated
      intro healthy
      have books := holds healthy
      exact ⟨books.regular, books.types, Engine.ledger_allocate books.ledger large found⟩
  · intro w w' e holds ran
    unfold takeBlock at ran
    cases allocated : w.heap.collector.allocate size <;> simp only [allocated] at ran <;> cases ran

theorem keeps_refuse (size : Nat) : Keeps Orderly (refuse size : HeapM α) := .bind .get fun _ => keeps_violate _

theorem keeps_obtainBlock {size : Nat} (large : headerSize ≤ size) : Keeps Orderly (obtainBlock size) := by
  have taken {rest : Option Nat → HeapM Nat} (found : ∀ block, Keeps Orderly (rest (some block)))
      (missed : Keeps Orderly (rest none)) : Keeps Orderly (takeBlock size >>= rest) := by
    refine .bind (keeps_takeBlock large) fun block => ?_
    cases block with
    | some block => exact found block
    | none => exact missed
  unfold obtainBlock
  refine .bind .get fun w => ?_
  cases w.heap.collector.shouldCollect size with
  | true =>
    refine .bind keeps_runCollection fun _ => taken (fun block => .pure block) ?_
    exact taken (fun block => .pure block) (keeps_refuse size)
  | false =>
    refine taken (fun block => .pure block) (.bind keeps_runCollection fun _ => ?_)
    exact taken (fun block => .pure block) (keeps_refuse size)

theorem keeps_requireType (id : TypeId) : Keeps Orderly (requireType id) := by
  refine .bind .get fun w => ?_
  cases w.heap.types.get id with
  | ok d => exact .pure d
  | error e => exact keeps_violate e

theorem headerSize_le_footprint {size : Nat} (small : ¬ size > largestPayload) : headerSize ≤ footprint size :=
  Nat.le_trans (Nat.le_add_right _ _) (le_footprint (Nat.le_of_not_lt small))

theorem keeps_allocate (id : TypeId) (extra : Nat) : Keeps Orderly (allocate id extra) := by
  unfold allocate
  refine .bind keeps_checkPoisoned fun _ => .bind (keeps_requireType id) fun d => .bind keeps_closeTypes fun _ => ?_
  by_cases large : Word.saturate (d.fixedSize + extra) > largestPayload
  · simp only [large, if_true]
    exact .bind_of_fails (keeps_refuse _) fun w a w' ran => nomatch ran
  · simp only [large, if_false]
    refine .bind (keeps_obtainBlock (headerSize_le_footprint large)) fun block => ?_
    refine .bind (keeps_access ?_) fun _ => .pure _
    have refl (m : Memory) : m.SameShape m := .refl m
    refine .bind (fun _ _ _ first second => first.trans second)
      (Access.always_guarded refl fun m => Memory.sameShape_clear m _ _) fun _ => ?_
    exact Access.always_guarded refl fun m => Memory.sameShape_setHeader m _ _

theorem keeps_allocateArray (id : TypeId) (count : Nat) : Keeps Orderly (allocateArray id count) := by
  unfold allocateArray
  refine .bind (keeps_requireType id) fun d => ?_
  cases d.region with
  | none => exact .throw _
  | some region =>
    refine .bind (keeps_allocate id _) fun obj => .bind (keeps_access ?_) fun _ => .pure _
    exact Access.always_guarded (fun m => .refl m) fun m => Memory.sameShape_setWord m _ _

theorem keeps_run (op : Operation) : Keeps Orderly op.run := by
  cases op with
  | register d words => exact .bind (keeps_register words) fun _ => .pure _
  | allocate id extra => exact .bind (keeps_allocate id extra) fun _ => .pure _
  | allocateArray id count => exact .bind (keeps_allocateArray id count) fun _ => .pure _
  | collect => exact .bind (.bind keeps_checkPoisoned fun _ => keeps_runCollection) fun _ => .pure _
  | pushRoot => exact .bind keeps_pushRoot fun _ => .pure _
  | popRoot handle => exact keeps_changeRoots fun roots => roots.pop handle
  | addRoot handle s => exact keeps_changeRoots fun roots => roots.add handle s
  | addGlobal s => exact keeps_changeRoots fun roots => .ok (roots.addGlobal s)

theorem create_eq_ok {config : Config} {m m' : Memory} {h : Heap} (created : create config m = .ok (h, m')) :
    config.check = .ok () ∧ ∃ engine, Engine.create config.strategy m config.heapSize = .ok (engine, m') ∧
      h = { config, collector := { engine, layers := Layer.ofMode config.mode } } := by
  unfold create at created
  cases accepted : config.check with
  | error e => rw [accepted] at created; cases created
  | ok _ =>
    rw [accepted] at created
    unfold Collector.create at created
    cases engine : Engine.create config.strategy m config.heapSize with
    | error e => rw [engine] at created; cases created
    | ok pair =>
      rw [engine] at created
      cases created
      exact ⟨rfl, pair.1, rfl, rfl⟩

theorem books_create {config : Config} {m m' : Memory} {h : Heap} (created : create config m = .ok (h, m'))
    (regular : m'.Regular) : World.Books ⟨h, m'⟩ := by
  obtain ⟨accepted, engine, started, rfl⟩ := create_eq_ok created
  refine ⟨regular, fun d member => ?_, (Engine.ledger_create (Config.pos_of_check accepted) (Engine.created started)).1⟩
  exact absurd member (Array.not_mem_empty d)

end Heap

/-- In every state of a heap that is not poisoned the books are in order. -/
theorem Reached.orderly {w : World} (reached : Reached w) : w.Orderly := by
  induction reached with
  | create created regular => exact fun _ => Heap.books_create created regular
  | done _ ran ih => exact (Heap.keeps_run _).ok ih ran
  | refused _ ran ih => exact (Heap.keeps_run _).refused ih ran
  | program _ regular same ih =>
    exact fun healthy => have books := ih healthy; ⟨regular, books.types, books.ledger.congr same⟩

end TracingHeap
