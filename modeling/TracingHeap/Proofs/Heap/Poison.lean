import TracingHeap.Heap.Shutdown
import TracingHeap.Proofs.Heap.Requests
import TracingHeap.Proofs.Heap.Scripts

/-! After the first violation.

A poisoned heap stays poisoned with the violation that it observed first, whatever the program does afterwards. Its
collector is not asked again and nothing is written on its behalf. The requests and the collections that it is asked for
answer with that violation, save that the request for an array looks up the type before it looks at the heap. -/

set_option autoImplicit false

namespace TracingHeap

variable {w w' : World} {e : HeapError}

/-- What a program may make of a heap: it calls, whatever comes of it, and it writes whatever it likes. A scope is a frame
that is pushed, the calls of its body, and the frame popped; questions leave everything as it is. -/
inductive World.Later (w : World) : World → Prop where
  | refl : Later w w
  | call {w' : World} (op : Operation) : Later w w' → Later w (after (op.run w'))
  | program {w' : World} (m : Memory) : Later w w' → Later w { w' with memory := m }

namespace Heap

/-- The violation that is known already is kept, so a poisoned heap takes no notice of another. -/
theorem violate_poisoned {α : Type} (poisoned : w.heap.poisoned = some e) (e' : HeapError) :
    (violate e' : HeapM α) w = .error (.violation e') w := by
  obtain ⟨⟨config, types, roots, collector, poison⟩, m⟩ := w
  cases poisoned
  rfl

theorem allocate_poisoned (poisoned : w.heap.poisoned = some e) (id : TypeId) (extra : Nat) :
    allocate id extra w = .error (.violation e) w :=
  run_bind_error (checkPoisoned_poisoned poisoned)

theorem collect_poisoned (poisoned : w.heap.poisoned = some e) : collect w = .error (.violation e) w :=
  run_bind_error (checkPoisoned_poisoned poisoned)

theorem finish_poisoned (poisoned : w.heap.poisoned = some e) : finish w = .error (.violation e) w :=
  run_bind_error (checkPoisoned_poisoned poisoned)

theorem shutdown_poisoned (poisoned : w.heap.poisoned = some e) :
    shutdown w.heap w.memory = (.error (.violation e), w.heap.release w.memory) := by
  have stopped : finish ⟨w.heap, w.memory⟩ = .error (.violation e) w := finish_poisoned poisoned
  simp only [shutdown, stopped]

/-- What is wrong with a request for an array by its type alone. -/
def arrayObjection (types : TypeTable) (id : TypeId) : Option HeapError :=
  match types.get? id with
  | none => some (.unregisteredType id)
  | some d =>
    match d.region with
    | none => some (.invalidDescriptor d.name .noRegion)
    | some _ => none

theorem allocateArray_poisoned (poisoned : w.heap.poisoned = some e) (id : TypeId) (count : Nat) :
    allocateArray id count w = .error (.violation ((arrayObjection w.heap.types id).getD e)) w := by
  unfold allocateArray arrayObjection
  cases registered : w.heap.types.get? id with
  | none =>
    exact run_bind_error ((requireType_none registered).trans (violate_poisoned poisoned _))
  | some d =>
    rw [run_bind (requireType_ok registered)]
    cases region : d.region with
    | none => simp only [region]; rfl
    | some region' =>
      simp only [region]
      exact run_bind_error (allocate_poisoned poisoned id _)

theorem after_register (d : Descriptor) (w : World) :
    ∃ types, after (register d w) = { w with heap := { w.heap with types } } := by
  unfold register
  cases registered : w.heap.types.register d with
  | error e => exact ⟨w.heap.types, by simp only [registered]; rfl⟩
  | ok pair => exact ⟨pair.2, by simp only [registered]; rfl⟩

theorem after_changeRoots (poisoned : w.heap.poisoned = some e) (f : RootStack → Except RootViolation RootStack) :
    ∃ roots, after (changeRoots f w) = { w with heap := { w.heap with roots } } := by
  unfold changeRoots
  cases changed : f w.heap.roots with
  | error v =>
    have unchanged : (violate (.rootDiscipline v) : HeapM Unit) w = .error (.violation (.rootDiscipline v)) w :=
      violate_poisoned poisoned _
    exact ⟨w.heap.roots, by simp only [changed]; exact congrArg after unchanged⟩
  | ok roots => exact ⟨roots, by simp only [changed]; rfl⟩

end Heap

/-- The answer of a call may be dropped. -/
theorem after_discard {ε σ α : Type} (act : EStateM ε σ α) (s : σ) : after ((do let _ ← act; pure ()) s) = after (act s) := by
  cases ran : act s with
  | ok a s' => rw [run_bind ran]; rfl
  | error x s' => rw [run_bind_error ran]; rfl

/-- A call on a poisoned heap can change what types and roots it knows, and nothing else. -/
theorem Operation.run_poisoned (poisoned : w.heap.poisoned = some e) (op : Operation) :
    ∃ types roots, after (op.run w) = { w with heap := { w.heap with types, roots } } := by
  have refused {α : Type} {act : HeapM α} {x : Failure} (failed : act w = .error x w) :
      ∃ types roots, after ((do let _ ← act; pure ()) w) = { w with heap := { w.heap with types, roots } } :=
    ⟨w.heap.types, w.heap.roots, by rw [after_discard, failed]; rfl⟩
  have rooted (f : RootStack → Except RootViolation RootStack) :
      ∃ types roots, after (Heap.changeRoots f w) = { w with heap := { w.heap with types, roots } } :=
    ⟨w.heap.types, Heap.after_changeRoots poisoned f⟩
  cases op with
  | register d words =>
    obtain ⟨types, changed⟩ := Heap.after_register d w
    exact ⟨types, w.heap.roots, (after_discard _ w).trans changed⟩
  | allocate id extra => exact refused (Heap.allocate_poisoned poisoned id extra)
  | allocateArray id count => exact refused (Heap.allocateArray_poisoned poisoned id count)
  | collect => exact refused (Heap.collect_poisoned poisoned)
  | pushRoot => exact ⟨w.heap.types, _, rfl⟩
  | popRoot handle => exact rooted fun roots => roots.pop handle
  | addRoot handle s => exact rooted fun roots => roots.add handle s
  | addGlobal s => exact rooted fun roots => .ok (roots.addGlobal s)

-- The induction is on what the program does; each call is the lemma above.
theorem World.Later.poisoned (later : w.Later w') (poisoned : w.heap.poisoned = some e) :
    w'.heap.poisoned = some e ∧ w'.heap.collector = w.heap.collector := by
  induction later with
  | refl => exact ⟨poisoned, rfl⟩
  | call op _ ih =>
    obtain ⟨types, roots, changed⟩ := op.run_poisoned ih.1
    rw [changed]
    exact ih
  | program m _ ih => exact ih

namespace Heap

/-- The first violation is the last one that a heap observes, whatever the program goes on to do: what is held, how much
of it there is and how much room there is never change again, and every request, every collection and the end of the heap
answer with it. Only a request for an array of a type that it cannot have reports that instead. -/
theorem violation_latches (poisoned : w.heap.poisoned = some e) (later : w.Later w') :
    w'.heap.poisoned = some e ∧ w'.heap.collector = w.heap.collector ∧ (∀ p, w'.heap.contains p = w.heap.contains p) ∧
      w'.heap.liveBytes = w.heap.liveBytes ∧ w'.heap.availableBytes = w.heap.availableBytes ∧
      (∀ op : Operation, (after (op.run w')).memory = w'.memory) ∧
      (∀ id extra, allocate id extra w' = .error (.violation e) w') ∧
      (∀ id count, allocateArray id count w' =
        .error (.violation ((arrayObjection w'.heap.types id).getD e)) w') ∧
      collect w' = .error (.violation e) w' ∧ (shutdown w'.heap w'.memory).1 = .error (.violation e) := by
  obtain ⟨still, same⟩ := later.poisoned poisoned
  refine ⟨still, same, fun p => by rw [contains, same]; rfl, by rw [liveBytes, same]; rfl,
    by rw [availableBytes, same]; rfl, fun op => ?_, allocate_poisoned still, allocateArray_poisoned still,
    collect_poisoned still, congrArg Prod.fst (shutdown_poisoned still)⟩
  obtain ⟨types, roots, changed⟩ := op.run_poisoned still
  rw [changed]

/-- A request for more than there is room for has poisoned the heap. A frame that was never pushed is popped and the only
root slot is overwritten, and still the object is held and the answers are about the room there was. -/
theorem violation_latches_out_of_memory : ∃ w w' e, Reached w ∧ w.heap.poisoned = some e ∧ w.Later w' ∧
    e = .outOfMemory .markSweep 5032 4056 ∧ w'.memory.slot (.cell 0) = 0 ∧
    w'.heap.contains (Memory.origin + 24) = true ∧ w'.heap.liveBytes = 40 ∧ w'.heap.availableBytes = 4056 ∧
    allocate ⟨1⟩ 0 w' = .error (.violation e) w' ∧ collect w' = .error (.violation e) w' ∧
    allocateArray ⟨2⟩ 0 w' = .error (.violation (.unregisteredType ⟨2⟩)) w' := by
  have ran : ((World.play (fun w _ => w.heap.poisoned = none) { heapSize := 4096 } 1
      [.call (.register .references Descriptor.references_isWords), .call .pushRoot, .call (.addRoot ⟨0, 0⟩ (.cell 0)),
        .call (.allocateArray ⟨1⟩ 1), .setCell 0 (Memory.origin + 24)]).any fun w =>
      w.onRefusal (.allocate ⟨1⟩ 5000) fun e w =>
        w.heap.poisoned = some e ∧ e = .outOfMemory .markSweep 5032 4056 ∧
          arrayObjection (after ((Operation.popRoot ⟨3, 7⟩).run w)).heap.types ⟨2⟩ = some (.unregisteredType ⟨2⟩) ∧
          w.heap.contains (Memory.origin + 24) = true ∧ w.heap.liveBytes = 40 ∧ w.heap.availableBytes = 4056) = true := by
    decide +kernel
  obtain ⟨w₀, played, shown⟩ := (Option.any_eq_true _ _).1 ran
  obtain ⟨e, w, failed, shown⟩ := World.onRefusal_eq_true.1 shown
  have reached := (Reached.of_play played).refused failed
  obtain ⟨poisoned, rfl, unknown, held, live, room⟩ := of_decide_eq_true shown
  have popped := World.Later.call (.popRoot ⟨3, 7⟩) (.refl (w := w))
  have later := popped.program { w.memory with cells := #[] }
  obtain ⟨-, -, same, live', room', -, allocates, arrays, collects, -⟩ := violation_latches poisoned later
  have refused := arrays ⟨2⟩ 0
  rw [unknown] at refused
  exact ⟨w, _, _, reached, poisoned, later, rfl, rfl, (same _).trans held, live'.trans live, room'.trans room,
    allocates _ _, collects, refused⟩

/-- A request for a type that was never registered has poisoned the heap. A request for an array of another such type is
refused with the type that it asked for. -/
theorem allocateArray_masks_violation : ∃ w, Reached w ∧ w.heap.poisoned = some (.unregisteredType ⟨9⟩) ∧
    allocate ⟨8⟩ 0 w = .error (.violation (.unregisteredType ⟨9⟩)) w ∧
    allocateArray ⟨8⟩ 0 w = .error (.violation (.unregisteredType ⟨8⟩)) w := by
  have ran : ((World.play (fun w _ => w.heap.poisoned = none) { heapSize := 4096 } 0 []).any fun w =>
      w.onRefusal (.allocate ⟨9⟩ 0) fun e w => e = .unregisteredType ⟨9⟩ ∧ w.heap.poisoned = some e ∧
        arrayObjection w.heap.types ⟨8⟩ = some (.unregisteredType ⟨8⟩)) = true := by
    decide +kernel
  obtain ⟨w₀, played, shown⟩ := (Option.any_eq_true _ _).1 ran
  obtain ⟨e, w, failed, shown⟩ := World.onRefusal_eq_true.1 shown
  have reached := (Reached.of_play played).refused failed
  obtain ⟨rfl, poisoned, unknown⟩ := of_decide_eq_true shown
  have refused := allocateArray_poisoned poisoned ⟨8⟩ 0
  rw [unknown] at refused
  exact ⟨w, reached, poisoned, allocate_poisoned poisoned ⟨8⟩ 0, refused⟩

end Heap

end TracingHeap
