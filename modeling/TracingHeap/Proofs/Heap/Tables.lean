import TracingHeap.Proofs.Heap.Calls
import TracingHeap.Proofs.Heap.Conduct
import TracingHeap.Proofs.Heap.Poison
import TracingHeap.Proofs.Heap.Steps
import TracingHeap.Proofs.Layout.History
import TracingHeap.Proofs.RootFrames

/-! What calls do to the tables of a heap.

Its types and its roots are no business of the collector. Types are registered, and a request that is considered at all
closes their table, whatever comes of it. Roots are pushed, popped and added. No other call touches either. -/

set_option autoImplicit false

namespace TracingHeap

/-- The types and the roots are as before. -/
structure World.SameTables (w w' : World) : Prop where
  types : w'.heap.types = w.heap.types
  roots : w'.heap.roots = w.heap.roots

namespace World.SameTables

theorem refl (w : World) : w.SameTables w := ⟨rfl, rfl⟩

theorem trans (u v w : World) (first : u.SameTables v) (second : v.SameTables w) : u.SameTables w :=
  ⟨second.types.trans first.types, second.roots.trans first.roots⟩

theorem access {α : Type} (act : Access α) : Always SameTables (Heap.access act) := by
  intro ⟨heap, m⟩
  unfold Heap.access
  cases ran : act m <;> simp only [ran] <;> exact ⟨rfl, rfl⟩

theorem runCollector : Always SameTables Heap.runCollector := by
  intro ⟨heap, m⟩
  unfold Heap.runCollector
  cases ran : Collector.collect heap.types heap.roots.slots (heap.collector, m) <;> simp only [ran] <;> exact ⟨rfl, rfl⟩

theorem takeBlock (size : Nat) : Always SameTables (Heap.takeBlock size) := by
  intro ⟨heap, m⟩
  unfold Heap.takeBlock
  cases taken : heap.collector.allocate size <;> simp only [taken] <;> exact ⟨rfl, rfl⟩

theorem across : World.Across SameTables := ⟨refl, trans, fun _ _ => ⟨rfl, rfl⟩, runCollector, fun size _ _ => takeBlock size⟩

end World.SameTables

/-! ### Requests -/

/-- A request for an object of the type gets past the table: the heap is not poisoned, and the type is registered. -/
def World.Considers (w : World) (id : TypeId) : Prop := w.heap.poisoned = none ∧ (w.heap.types.get? id).isSome

instance (w : World) (id : TypeId) : Decidable (w.Considers id) := inferInstanceAs (Decidable (_ ∧ _))

namespace Heap

open World

variable {w : World} {id : TypeId}

/-- A request that is considered closes the table, whatever comes of it. -/
theorem allocate_closes (considered : w.Considers id) (extra : Nat) : w.closed.SameTables (after (allocate id extra w)) := by
  obtain ⟨healthy, registered⟩ := considered
  obtain ⟨d, found⟩ := Option.isSome_iff_exists.1 registered
  by_cases small : d.fixedSize + extra ≤ largestPayload
  · rw [allocate_eq healthy found small]
    have block := SameTables.across.obtainBlock (dvd_footprint _) (smallestBlock_le_footprint small)
    exact SameTables.across.bind block (fun _ => SameTables.across.bind (SameTables.access _) fun _ => SameTables.across.pure _) _
  · rw [allocate_large healthy found small]
    exact SameTables.across.refuse _ _

/-- Any other request is refused before it gets there. -/
theorem allocate_ignored (ignored : ¬ w.Considers id) (extra : Nat) :
    w.SameTables (after (allocate id extra w)) ∧ Fails (allocate id extra w) := by
  cases poison : w.heap.poisoned with
  | some e =>
    rw [allocate_poisoned poison]
    exact ⟨.refl w, fails_error _ _⟩
  | none =>
    have unknown : w.heap.types.get? id = none := by
      rw [Considers, poison] at ignored
      simpa using ignored
    rw [allocate_unknown poison unknown]
    exact ⟨⟨rfl, rfl⟩, fails_error _ _⟩

/-- An array of a type without a region is not requested at all. -/
theorem allocateArray_ignored (none : (w.heap.types.get? id).bind Descriptor.region = none) (count : Nat) :
    w.SameTables (after (allocateArray id count w)) ∧ Fails (allocateArray id count w) := by
  unfold allocateArray
  cases found : w.heap.types.get? id with
  | none =>
    have unknown : requireType id w = violate (.unregisteredType id) w := requireType_none found
    rw [run_bind_error unknown]
    exact ⟨⟨rfl, rfl⟩, fails_error _ _⟩
  | some d =>
    rw [found, Option.bind_some] at none
    rw [run_bind (requireType_ok found)]
    simp only [none]
    exact ⟨.refl w, fails_error _ _⟩

/-- An array is a request for an object, and the count written to it. -/
theorem allocateArray_requests {region : Region} (some : (w.heap.types.get? id).bind Descriptor.region = some region)
    (count : Nat) :
    (after (allocate id (Word.saturate (count * region.elementSize)) w)).SameTables (after (allocateArray id count w)) := by
  obtain ⟨d, found, some⟩ := Option.bind_eq_some_iff.1 some
  unfold allocateArray
  rw [run_bind (requireType_ok found)]
  simp only [some]
  cases ran : allocate id (Word.saturate (count * region.elementSize)) w with
  | error e w' =>
    rw [run_bind_error ran]
    exact .refl w'
  | ok obj w' =>
    rw [run_bind ran]
    exact SameTables.across.bind (SameTables.access _) (fun _ => SameTables.across.pure _) w'

end Heap

/-! ### Calls -/

namespace Call

variable {α : Type}

/-- What a call asks of the root stack. -/
def rootRequests : Call α → List RootRequest
  | pushRoot => [.push]
  | popRoot handle => [.pop handle]
  | addRoot handle s => [.add handle s]
  | addGlobal s => [.addGlobal s]
  | _ => []

/-- What a call asks of the type table. -/
def typeRequests (w : World) : Call α → List TypeRequest
  | register d => [.register d]
  | allocate id _ => if w.Considers id then [.close] else []
  | allocateArray id _ =>
    if w.Considers id ∧ ((w.heap.types.get? id).bind Descriptor.region).isSome then [.close] else []
  | _ => []

/-- A call has asked the two tables for what it says. -/
structure Asks (c : Call α) (w w' : World) : Prop where
  types : w'.heap.types = w.heap.types.served (c.typeRequests w)
  roots : w'.heap.roots = w.heap.roots.served c.rootRequests

theorem asks_register (d : Descriptor) (w : World) : (register d).Asks w (after (Heap.register d w)) := by
  cases registered : w.heap.types.register d with
  | ok pair =>
    rw [Heap.register_ok registered]
    exact ⟨(TypeTable.serve_of_ok registered).symm, rfl⟩
  | error e =>
    rw [Heap.register_error registered]
    exact ⟨(TypeTable.serve_of_error registered).symm, rfl⟩

theorem asks_allocate (id : TypeId) (extra : Nat) (w : World) : (allocate id extra).Asks w (after (Heap.allocate id extra w)) := by
  by_cases considered : w.Considers id
  · have same := Heap.allocate_closes considered extra
    refine ⟨?_, same.roots⟩
    rw [typeRequests, if_pos considered]
    exact same.types
  · have same := (Heap.allocate_ignored considered extra).1
    refine ⟨?_, same.roots⟩
    rw [typeRequests, if_neg considered]
    exact same.types

theorem asks_allocateArray (id : TypeId) (count : Nat) (w : World) :
    (allocateArray id count).Asks w (after (Heap.allocateArray id count w)) := by
  cases region : (w.heap.types.get? id).bind Descriptor.region with
  | none =>
    have same := (Heap.allocateArray_ignored region count).1
    refine ⟨?_, same.roots⟩
    rw [typeRequests, region, if_neg fun ⟨_, other⟩ => nomatch other]
    exact same.types
  | some r =>
    have same := Heap.allocateArray_requests region count
    have asked := asks_allocate id (Word.saturate (count * r.elementSize)) w
    refine ⟨same.types.trans (asked.types.trans ?_), same.roots.trans asked.roots⟩
    simp only [typeRequests, region, Option.isSome_some, and_true]

theorem asks_changeRoots (c : Call α) (f : RootStack → Except RootViolation RootStack) (w : World)
    (quiet : c.typeRequests w = [])
    (same : (f w.heap.roots).toOption.getD w.heap.roots = w.heap.roots.served c.rootRequests) :
    c.Asks w (after (Heap.changeRoots f w)) := by
  cases changed : f w.heap.roots with
  | ok roots =>
    rw [changed] at same
    rw [Heap.changeRoots_ok changed]
    exact ⟨quiet ▸ rfl, same⟩
  | error v =>
    rw [changed] at same
    rw [Heap.changeRoots_error changed]
    exact ⟨quiet ▸ rfl, same⟩

theorem asks_run (c : Call α) (w : World) : c.Asks w (after (c.run w)) := by
  have collect : Always World.SameTables Heap.collect :=
    World.SameTables.across.bind World.SameTables.across.checkPoisoned fun _ => World.SameTables.across.runCollection
  have looks (f : Heap → Memory → Reading α) (quiet : c.typeRequests w = [] ∧ c.rootRequests = []) :
      c.Asks w (after (Heap.look f w)) := by
    have same := World.SameTables.across.look f w
    refine ⟨?_, ?_⟩
    · rw [quiet.1]
      exact same.types
    · rw [quiet.2]
      exact same.roots
  cases c with
  | register d => exact asks_register d w
  | allocate id extra => exact asks_allocate id extra w
  | allocateArray id count => exact asks_allocateArray id count w
  | pushRoot => exact ⟨rfl, rfl⟩
  | popRoot handle => exact asks_changeRoots _ (fun roots => roots.pop handle) w rfl rfl
  | addRoot handle s => exact asks_changeRoots _ (fun roots => roots.add handle s) w rfl rfl
  | addGlobal s => exact ⟨rfl, rfl⟩
  | collect => exact ⟨(collect w).types, (collect w).roots⟩
  | write m => exact ⟨rfl, rfl⟩
  | verify | census | typeOf | payloadSize | descriptor | contains | objectCount | liveBytes | availableBytes | poisoned
  | memory =>
    simp only [run, Heap.verify, Heap.census, Heap.typeOf, Heap.payloadSize, Heap.descriptor]
    exact looks _ ⟨rfl, rfl⟩

end Call

end TracingHeap
