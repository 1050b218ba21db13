import TracingHeap.Heap.Allocation
import TracingHeap.Proofs.Computation
import TracingHeap.Space.FreeList

/-! What holds across every step of a request.

A request looks at the heap, notes a violation, runs the collector and takes a block. What relates the worlds before and
after each of these relates those before and after the whole. -/

set_option autoImplicit false

namespace TracingHeap

/-- The relation holds across the steps of which requests consist. -/
structure World.Across (R : World → World → Prop) : Prop where
  refl : ∀ w, R w w
  trans : ∀ u v w, R u v → R v w → R u w
  noted : ∀ w e, R w { w with heap := w.heap.poison e }
  collected : Always R Heap.runCollector
  taken : ∀ size, wordSize ∣ size → smallestBlock ≤ size → Always R (Heap.takeBlock size)

namespace World.Across

open Heap

variable {R : World → World → Prop} {α β : Type} (across : World.Across R)

include across

theorem pure (a : α) : Always R (pure a : HeapM α) := .pure across.refl a

theorem bind {act : HeapM α} {next : α → HeapM β} (first : Always R act) (later : ∀ a, Always R (next a)) :
    Always R (act >>= next) :=
  .bind across.trans first later

theorem get : Always R (get : HeapM World) := .get across.refl

theorem violate (e : HeapError) : Always R (violate e : HeapM α) := fun w => across.noted w e

theorem refuse (size : Nat) : Always R (refuse size : HeapM α) := across.bind across.get fun _ => across.violate _

theorem poisoning {act : HeapM α} (always : Always R act) : Always R (poisoning act) := by
  intro w
  have next := always w
  unfold Heap.poisoning
  cases ran : act w with
  | ok a w' => rwa [ran] at next
  | error x w' =>
    rw [ran] at next
    cases x with
    | violation e => exact across.trans _ _ _ next (across.noted w' e)
    | fault f => exact next

theorem look (f : Heap → Memory → Reading α) : Always R (look f) := by
  intro w
  unfold Heap.look
  cases f w.heap w.memory <;> exact across.refl w

theorem checkPoisoned : Always R checkPoisoned := by
  intro w
  unfold Heap.checkPoisoned
  cases w.heap.poisoned <;> exact across.refl w

theorem requireType (id : TypeId) : Always R (requireType id) := by
  refine across.bind across.get fun w => ?_
  cases w.heap.types.get id with
  | ok d => exact across.pure d
  | error e => exact across.violate e

theorem runCollection : Always R runCollection := by
  unfold Heap.runCollection
  refine across.bind (across.poisoning across.collected) fun report => across.bind across.get fun w => ?_
  split
  · exact across.bind (across.poisoning (across.look _)) fun _ => across.pure _
  · exact across.pure _

theorem obtainBlock {size : Nat} (aligned : wordSize ∣ size) (large : smallestBlock ≤ size) : Always R (obtainBlock size) := by
  have taken {next : Option Nat → HeapM Nat} (found : ∀ block, Always R (next (some block))) (missed : Always R (next none)) :
      Always R (takeBlock size >>= next) := by
    refine across.bind (across.taken size aligned large) fun block => ?_
    cases block with
    | some block => exact found block
    | none => exact missed
  unfold Heap.obtainBlock
  refine across.bind across.get fun w => ?_
  cases w.heap.collector.shouldCollect size with
  | true =>
    refine across.bind across.runCollection fun _ => taken across.pure ?_
    exact taken across.pure (across.refuse size)
  | false =>
    refine taken across.pure (across.bind across.runCollection fun _ => ?_)
    exact taken across.pure (across.refuse size)

end World.Across

end TracingHeap
