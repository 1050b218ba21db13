import TracingHeap.Heap.Allocation
import TracingHeap.Proofs.Computation

/-! Heaps that differ in something that a collection takes no notice of.

Two such heaps come out of a collection with the same report or the same failure, and differ in nothing else. -/

set_option autoImplicit false

namespace TracingHeap

variable {R : World → World → Prop}

/-- A difference between two heaps that their collections do not see. -/
structure World.Unseen (R : World → World → Prop) : Prop where
  poison : ∀ {w v}, R w v → ∀ e, R { w with heap := w.heap.poison e } { v with heap := v.heap.poison e }
  checked : ∀ {w v}, R w v → v.heap.config.verifyHeap = w.heap.config.verifyHeap
  collector : InStep R Heap.runCollector Heap.runCollector
  verify : InStep R Heap.verify Heap.verify

namespace Heap

variable {α : Type}

theorem inStep_look {f : Heap → Memory → Reading α} (same : ∀ w v, R w v → f v.heap v.memory = f w.heap w.memory) :
    InStep R (look f) (look f) := by
  intro w v related
  unfold look
  rw [same w v related]
  cases f w.heap w.memory with
  | ok a => exact .ok a related
  | error x => exact .error x related

end Heap

namespace World.Unseen

variable {α : Type} (unseen : World.Unseen R)

include unseen

theorem violate (e : HeapError) : InStep R (Heap.violate e : HeapM α) (Heap.violate e) :=
  fun _ _ related => .error _ (unseen.poison related e)

theorem poisoning {act act' : HeapM α} (same : InStep R act act') : InStep R (Heap.poisoning act) (Heap.poisoning act') := by
  intro w v related
  have outcome := same w v related
  unfold Heap.poisoning
  cases ranLeft : act w <;> cases ranRight : act' v <;> rw [ranLeft, ranRight] at outcome <;> cases outcome
  case ok.ok.ok a w' v' related' => exact .ok a related'
  case error.error.error x w' v' related' =>
    cases x with
    | violation e => exact unseen.violate e w' v' related'
    | fault f => exact .error _ related'

theorem runCollection : InStep R Heap.runCollection Heap.runCollection := by
  unfold Heap.runCollection
  refine .bind (unseen.poisoning unseen.collector) fun report => .get_bind fun w v related => ?_
  rw [unseen.checked related]
  split
  · exact InStep.bind (unseen.poisoning unseen.verify) (fun _ => .pure report) w v related
  · exact .ok report related

end World.Unseen

end TracingHeap
