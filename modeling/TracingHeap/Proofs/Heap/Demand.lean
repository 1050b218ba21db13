import TracingHeap.Proofs.Heap.Likeness
import TracingHeap.Proofs.Heap.Poison

/-! What a call asks of the collector.

A call asks it for at most one block, and lets it run at most once before that. Which of the two it does can be told from
the heap that the call finds, and so can what becomes of the collector. -/

set_option autoImplicit false

namespace TracingHeap

variable {w w' : World}

/-- The size of the block for an object, if an object may be as large. -/
def TypeTable.blockFor? (types : TypeTable) (id : TypeId) (extra : Nat) : Option Nat :=
  (types.get? id).bind fun d =>
    if d.fixedSize + extra ≤ largestPayload then some (footprint (d.fixedSize + extra)) else none

theorem TypeTable.blockFor?_eq_some {types : TypeTable} {id : TypeId} {extra size : Nat} :
    types.blockFor? id extra = some size ↔ ∃ d, types.get? id = some d ∧ d.fixedSize + extra ≤ largestPayload ∧
      footprint (d.fixedSize + extra) = size := by
  simp only [blockFor?, Option.bind_eq_some_iff, Option.ite_none_right_eq_some, Option.some.injEq]

/-- The size of the block that a call asks for. One that is refused before it does asks for none. -/
def Operation.request? (types : TypeTable) : Operation → Option Nat
  | allocate id extra => types.blockFor? id extra
  | allocateArray id count =>
    (types.get? id).bind fun d => d.region.bind fun r => types.blockFor? id (Word.saturate (count * r.elementSize))
  | register .. | collect | pushRoot | popRoot _ | addRoot .. | addGlobal _ => none

instance (w : World) (size : Nat) : Decidable (Heap.Waits w size) := inferInstanceAs (Decidable (_ ∨ _))

/-- The call lets the collector run. -/
def Operation.Triggers (op : Operation) (w : World) : Prop :=
  w.heap.poisoned = none ∧
    match op with
    | collect => True
    | op => ∃ size ∈ op.request? w.heap.types, Heap.Waits w size

instance (op : Operation) (w : World) : Decidable (op.Triggers w) := by
  cases op <;> exact inferInstanceAs (Decidable (_ ∧ _))

theorem Operation.triggers_iff {op : Operation} : op.Triggers w ↔
    w.heap.poisoned = none ∧ (op = .collect ∨ ∃ size ∈ op.request? w.heap.types, Heap.Waits w size) := by
  cases op <;> simp [Triggers, request?]

/-- What asks for a block is an allocation, or one of an array, which goes on as an allocation. -/
theorem Operation.of_request {types : TypeTable} {op : Operation} {size : Nat} (asked : op.request? types = some size) :
    ∃ id extra, types.blockFor? id extra = some size ∧ (op = .allocate id extra ∨
      ∃ count d r, types.get? id = some d ∧ d.region = some r ∧ extra = Word.saturate (count * r.elementSize) ∧
        op = .allocateArray id count) := by
  cases op with
  | allocate id extra => exact ⟨id, extra, asked, .inl rfl⟩
  | allocateArray id count =>
    obtain ⟨d, registered, asked⟩ := Option.bind_eq_some_iff.1 asked
    obtain ⟨r, region, asked⟩ := Option.bind_eq_some_iff.1 asked
    exact ⟨id, _, asked, .inr ⟨count, d, r, registered, region, rfl, rfl⟩⟩
  | register d words => cases asked
  | collect => cases asked
  | pushRoot => cases asked
  | popRoot handle => cases asked
  | addRoot handle s => cases asked
  | addGlobal s => cases asked

/-- The world in which a call asks for its block. -/
def Operation.prepared (op : Operation) (w : World) : World := if op.Triggers w then after (Heap.runCollection w) else w

theorem Operation.prepared_of_idle {op : Operation} (idle : ¬ op.Triggers w) : op.prepared w = w := if_neg idle

/-- Unless it is a collection, a call that asks for no block finds the collector as it is. -/
theorem Operation.prepared_of_unasked {op : Operation} (other : op ≠ .collect)
    (unasked : w.heap.poisoned = none → op.request? w.heap.types = none) : op.prepared w = w := by
  refine prepared_of_idle fun triggers => ?_
  obtain ⟨healthy, same | ⟨size, asked, -⟩⟩ := op.triggers_iff.1 triggers
  · exact other same
  · cases (unasked healthy).symm.trans asked

/-! ### Whether types can still be registered -/

namespace TypeTable

variable (types : TypeTable)

theorem mark_close (c : MarkSweep) (rounds : Nat) (work : List Nat) :
    c.mark types.close rounds work = c.mark types rounds work := by
  induction rounds generalizing work with
  | zero => rfl
  | succ rounds ih =>
    funext m
    rw [MarkSweep.mark_succ, MarkSweep.mark_succ]
    cases work.dropWhile (c.isSettled m) with
    | nil => rfl
    | cons p rest => exact congrFun (congrArg (c.markObject types p >>= ·) (funext fun found => ih _)) m

theorem scan_close (resident : Std.TreeSet Nat) (rounds block : Nat) :
    Evacuate.scan types.close resident rounds block = Evacuate.scan types resident rounds block := by
  induction rounds generalizing block with
  | zero => rfl
  | succ rounds ih =>
    rw [Evacuate.scan, Evacuate.scan]
    simp only [ih]
    rfl

theorem collect_close (roots : List Slot) (state : Engine × Memory) :
    Engine.collect types.close roots state = Engine.collect types roots state := by
  obtain ⟨e, m⟩ := state
  cases e with
  | markSweep c =>
    have same : c.collect types.close roots = c.collect types roots := by
      unfold MarkSweep.collect
      simp only [mark_close]
    simp only [Engine.collect, same]
  | copying c =>
    have same : Copying.evacuateAll types.close roots = Copying.evacuateAll types roots := by
      funext resident
      unfold Copying.evacuateAll
      simp only [scan_close]
    simp only [Engine.collect, Copying.collect, same]
  | leaky c => rfl

end TypeTable

theorem World.unseen_closed : World.Unseen fun w v => v = w.closed where
  poison := fun related e => by rw [related]; rfl
  checked := fun related => by rw [related]; rfl
  collector := by
    rintro ⟨heap, m⟩ _ rfl
    simp only [Heap.runCollector, World.closed, Collector.collect, TypeTable.collect_close]
    cases Engine.collect heap.types heap.roots.slots (heap.collector.engine, m) with
    | ok report pair => exact .ok report rfl
    | error x pair => exact .error x rfl
  verify := Heap.inStep_look fun w v related => by rw [related]; rfl

namespace Heap

variable {op : Operation} {id : TypeId} {d : Descriptor} {size : Nat}

/-- A closed type table makes no difference to a collection. -/
theorem runCollection_closed (w : World) :
    Matches (fun w v => v = w.closed) (runCollection w) (runCollection w.closed) :=
  World.unseen_closed.runCollection w w.closed rfl

theorem after_runCollection_closed (w : World) : after (runCollection w.closed) = (after (runCollection w)).closed :=
  (runCollection_closed w).after

theorem look_eq_ok {α : Type} {f : Heap → Memory → Reading α} {a : α} (ran : look f w = .ok a w') : w' = w := by
  unfold look at ran
  cases read : f w.heap w.memory with
  | ok b => simp only [read] at ran; cases ran; rfl
  | error x => simp only [read] at ran; cases ran

theorem poisoning_look_ok {α : Type} {f : Heap → Memory → Reading α} {a : α} (ran : poisoning (look f) w = .ok a w') :
    w' = w := by
  unfold poisoning at ran
  cases looked : look f w with
  | ok b u => rw [looked] at ran; cases ran; exact look_eq_ok looked
  | error x u => rw [looked] at ran; cases x <;> cases ran

/-- A collection that succeeds has run the engine, and nothing else has changed. -/
theorem runCollection_eq_ok {report : CollectionReport} (ran : runCollection w = .ok report w') :
    ∃ e m, Engine.collect w.heap.types w.heap.roots.slots (w.heap.collector.engine, w.memory) = .ok report (e, m) ∧
      w' = w.afterCollection report e m := by
  unfold runCollection at ran
  cases collected : Engine.collect w.heap.types w.heap.roots.slots (w.heap.collector.engine, w.memory) with
  | error x pair =>
    have failed : Fails (poisoning runCollector w) := by
      simp only [poisoning, runCollector, Collector.collect, collected]
      cases x <;> exact fails_error ..
    obtain ⟨x', w₁, failed⟩ := failed
    cases ran.symm.trans (run_bind_error failed)
  | ok report' pair =>
    obtain ⟨e, m⟩ := pair
    rw [run_bind (runCollector_ok collected), run_bind_get] at ran
    split at ran
    · cases checked : poisoning verify (w.afterCollection report' e m) with
      | error x w₁ => cases ran.symm.trans (run_bind_error checked)
      | ok found w₁ =>
        rw [run_bind checked] at ran
        cases ran
        exact ⟨e, m, rfl, poisoning_look_ok checked⟩
    · cases ran
      exact ⟨e, m, rfl, rfl⟩

/-! ### What becomes of a request -/

theorem obtainBlock_ok {block : Nat} (ran : obtainBlock size w = .ok block w') :
    let u := if Waits w size then after (runCollection w) else w
    ∃ e, u.heap.collector.engine.allocate size = some (block, e) ∧ w' = handedOut u e size := by
  by_cases waits : Waits w size
  · simp only [waits, if_true]
    cases collected : runCollection w with
    | error x w₁ => cases ran.symm.trans (obtainBlock_error waits collected)
    | ok report w₁ =>
      rw [obtainBlock_later waits collected] at ran
      cases allocated : w₁.heap.collector.engine.allocate size with
      | none => rw [allocated] at ran; cases ran
      | some pair =>
        rw [allocated] at ran
        cases ran
        exact ⟨_, allocated, rfl⟩
  · obtain ⟨block', e, allocated, ran'⟩ := obtainBlock_now waits
    cases ran.symm.trans ran'
    simp only [waits, if_false]
    exact ⟨e, allocated, rfl⟩

theorem obtainBlock_failed {x : Failure} (ran : obtainBlock size w = .error x w') :
    Waits w size ∧ w'.heap.collector = (after (runCollection w)).heap.collector := by
  by_cases waits : Waits w size
  · refine ⟨waits, ?_⟩
    cases collected : runCollection w with
    | error x' w₁ => cases ran.symm.trans (obtainBlock_error waits collected); rfl
    | ok report w₁ =>
      rw [obtainBlock_later waits collected] at ran
      cases allocated : w₁.heap.collector.engine.allocate size with
      | none => rw [allocated] at ran; cases ran; rfl
      | some pair => rw [allocated] at ran; cases ran
  · obtain ⟨block', e, -, ran'⟩ := obtainBlock_now waits
    cases ran.symm.trans ran'

/-- A write that leads out of the arenas is a fault, and no violation. -/
theorem leaves_guarded {R : Memory → Prop} (a n : Nat) (f : Memory → Memory) (m : Memory) :
    Leaves (fun _ _ => True) R (Access.guarded a n f m) := by
  unfold Access.guarded
  split <;> trivial

theorem leaves_access {α : Type} {act : Access α} {R : World → Prop} (w : World)
    (faults : Leaves (fun _ _ => True) (fun _ => False) (act w.memory)) :
    Leaves (fun _ w' => w'.heap = w.heap) R (access act w) := by
  unfold access
  cases ran : act w.memory with
  | ok a m => simp only [ran, Leaves]
  | error x m =>
    rw [ran] at faults
    simp only [ran]
    cases x with
    | violation e => exact faults.elim
    | fault f => trivial

/-- The collector has handed out a block of this size. -/
def Serves (u : World) (size : Nat) (w' : World) : Prop :=
  ∃ block e, u.heap.collector.engine.allocate size = some (block, e) ∧
    w'.heap.collector = (handedOut u e size).heap.collector

theorem prepared_closed {extra : Nat} (healthy : w.heap.poisoned = none)
    (request : w.heap.types.blockFor? id extra = some size) :
    ((Operation.allocate id extra).prepared w).closed =
      if Waits w.closed size then after (runCollection w.closed) else w.closed := by
  have asks : (Operation.allocate id extra).Triggers w ↔ Waits w.closed size := by
    refine ⟨fun ⟨_, size', asked, waits⟩ => ?_, fun waits => ⟨healthy, size, request, waits⟩⟩
    cases asked.symm.trans request
    exact waits
  unfold Operation.prepared
  by_cases waits : Waits w.closed size
  · rw [if_pos waits, if_pos (asks.2 waits), after_runCollection_closed]
  · rw [if_neg waits, if_neg (mt asks.1 waits)]

theorem leaves_allocate_collector (w : World) (id : TypeId) (extra : Nat) :
    let u := (Operation.allocate id extra).prepared w
    Leaves (fun _ w' => ∃ size ∈ w.heap.types.blockFor? id extra, Serves u size w')
      (fun w' => w'.heap.collector = u.heap.collector) (allocate id extra w) := by
  intro u
  have idle (unasked : w.heap.poisoned = none → w.heap.types.blockFor? id extra = none) : u = w :=
    Operation.prepared_of_unasked nofun unasked
  cases poisoned : w.heap.poisoned with
  | some e =>
    rw [allocate_poisoned poisoned, idle fun healthy => nomatch healthy.symm.trans poisoned]
    exact rfl
  | none =>
    cases registered : w.heap.types.get? id with
    | none =>
      have unasked : w.heap.types.blockFor? id extra = none := by
        simp only [TypeTable.blockFor?, registered, Option.bind_none]
      rw [allocate_unknown poisoned registered, idle fun _ => unasked]
      exact rfl
    | some d =>
      by_cases small : d.fixedSize + extra ≤ largestPayload
      · have request : w.heap.types.blockFor? id extra = some (footprint (d.fixedSize + extra)) := by
          simp only [TypeTable.blockFor?, registered, Option.bind_some, small, if_true]
        have prepared := prepared_closed poisoned request
        rw [allocate_eq poisoned registered small]
        cases ran : obtainBlock (footprint (d.fixedSize + extra)) w.closed with
        | error x w' =>
          obtain ⟨waits, same⟩ := obtainBlock_failed ran
          rw [if_pos waits] at prepared
          rw [run_bind_error ran]
          cases x with
          | violation e => exact same.trans (congrArg (·.heap.collector) prepared.symm)
          | fault f => trivial
        | ok block w' =>
          obtain ⟨e, allocated, rfl⟩ := obtainBlock_ok ran
          rw [← prepared] at allocated
          rw [run_bind ran, ← prepared]
          refine .bind (leaves_access _ ?_) fun _ w' same => ?_
          · exact .bind (leaves_guarded _ _ _ _) fun _ m _ => leaves_guarded _ _ _ m
          · have collector : w'.heap.collector = (handedOut u e (footprint (d.fixedSize + extra))).heap.collector := by
              rw [same]
              rfl
            exact ⟨_, request, block, e, allocated, collector⟩
      · have unasked : w.heap.types.blockFor? id extra = none := by
          simp only [TypeTable.blockFor?, registered, Option.bind_some, small, if_false]
        rw [allocate_large poisoned registered small, idle fun _ => unasked]
        exact rfl

/-- The count is written when the block has been handed out. -/
theorem leaves_allocateArray_collector (w : World) (id : TypeId) (count : Nat) :
    let u := (Operation.allocateArray id count).prepared w
    Leaves (fun _ w' => ∃ size ∈ (Operation.allocateArray id count).request? w.heap.types, Serves u size w')
      (fun w' => w'.heap.collector = u.heap.collector) (allocateArray id count w) := by
  intro u
  have idle (unasked : (Operation.allocateArray id count).request? w.heap.types = none) : u = w :=
    Operation.prepared_of_unasked nofun fun _ => unasked
  unfold allocateArray
  cases registered : w.heap.types.get? id with
  | none =>
    have unasked : (Operation.allocateArray id count).request? w.heap.types = none := by
      simp only [Operation.request?, registered, Option.bind_none]
    rw [run_bind_error (requireType_none registered), idle unasked]
    exact rfl
  | some d =>
    rw [run_bind (requireType_ok registered)]
    cases region : d.region with
    | none =>
      have unasked : (Operation.allocateArray id count).request? w.heap.types = none := by
        simp only [Operation.request?, registered, Option.bind_some, region, Option.bind_none]
      rw [idle unasked]
      exact rfl
    | some r =>
      have request : (Operation.allocateArray id count).request? w.heap.types =
          (Operation.allocate id (Word.saturate (count * r.elementSize))).request? w.heap.types := by
        simp only [Operation.request?, registered, Option.bind_some, region]
      have triggers : (Operation.allocateArray id count).Triggers w ↔
          (Operation.allocate id (Word.saturate (count * r.elementSize))).Triggers w := by
        simp only [Operation.Triggers, request]
      have prepared : u = (Operation.allocate id (Word.saturate (count * r.elementSize))).prepared w :=
        if_congr triggers rfl rfl
      rw [prepared, request]
      refine .bind (leaves_allocate_collector w id _) fun obj w₁ served => ?_
      refine .bind (leaves_access _ (leaves_guarded _ _ _ _)) fun _ w' same => ?_
      obtain ⟨size, asked, block, e, allocated, collector⟩ := served
      exact ⟨size, asked, block, e, allocated, (congrArg Heap.collector same).trans collector⟩

end Heap

/-- A call that succeeds leaves the collector as it has prepared it, or with one more block if it has asked for one. -/
def Operation.Obtains (op : Operation) (w w' : World) : Prop :=
  match op.request? w.heap.types with
  | some size => Heap.Serves (op.prepared w) size w'
  | none => w'.heap.collector = (op.prepared w).heap.collector

namespace Heap

theorem leaves_register_collector (w : World) (d : Descriptor) :
    Leaves (fun _ w' => w'.heap.collector = w.heap.collector) (fun w' => w'.heap.collector = w.heap.collector)
      (register d w) := by
  unfold register
  cases registered : w.heap.types.register d <;> simp only [registered] <;> exact rfl

theorem leaves_changeRoots_collector (w : World) (f : RootStack → Except RootViolation RootStack) :
    Leaves (fun _ w' => w'.heap.collector = w.heap.collector) (fun w' => w'.heap.collector = w.heap.collector)
      (changeRoots f w) := by
  unfold changeRoots
  cases changed : f w.heap.roots <;> simp only [changed] <;> exact rfl

/-- A call that is refused leaves the collector as it has prepared it. -/
theorem leaves_collector (w : World) (op : Operation) :
    Leaves (fun _ => op.Obtains w) (fun w' => w'.heap.collector = (op.prepared w).heap.collector) (op.run w) := by
  have quiet {op : Operation} (unasked : op.request? w.heap.types = none) (idle : ¬ op.Triggers w)
      (same : Leaves (fun _ w' => w'.heap.collector = w.heap.collector) (fun w' => w'.heap.collector = w.heap.collector)
        (op.run w)) :
      Leaves (fun _ => op.Obtains w) (fun w' => w'.heap.collector = (op.prepared w).heap.collector) (op.run w) := by
    rw [op.prepared_of_idle idle]
    refine same.imp fun _ w' collector => ?_
    rw [Operation.Obtains, unasked, op.prepared_of_idle idle]
    exact collector
  have served {op : Operation} {w' : World} (asked : ∃ size ∈ op.request? w.heap.types, Serves (op.prepared w) size w') :
      op.Obtains w w' := by
    obtain ⟨size, asked, serves⟩ := asked
    rw [Operation.Obtains, Option.mem_def.1 asked]
    exact serves
  cases op with
  | register d words =>
    exact quiet rfl (fun ⟨_, _, asked, _⟩ => nomatch asked) (.bind (leaves_register_collector w d) fun _ _ same => same)
  | allocate id extra => exact .bind (leaves_allocate_collector w id extra) fun _ _ asked => served asked
  | allocateArray id count => exact .bind (leaves_allocateArray_collector w id count) fun _ _ asked => served asked
  | collect =>
    cases poisoned : w.heap.poisoned with
    | some e =>
      refine quiet rfl (fun ⟨healthy, _⟩ => nomatch healthy.symm.trans poisoned) (.bind ?_ fun _ _ same => same)
      rw [collect_poisoned poisoned]
      exact rfl
    | none =>
      have prepared : Operation.collect.prepared w = after (runCollection w) := if_pos ⟨poisoned, trivial⟩
      refine .bind (Q := fun _ => Operation.collect.Obtains w) ?_ fun _ _ obtains => obtains
      rw [collect_eq poisoned]
      cases ran : runCollection w with
      | ok report w' =>
        rw [ran] at prepared
        exact congrArg (·.heap.collector) prepared.symm
      | error x w' =>
        rw [ran] at prepared
        cases x with
        | violation e => exact congrArg (·.heap.collector) prepared.symm
        | fault f => trivial
  | pushRoot => exact quiet rfl (fun ⟨_, _, asked, _⟩ => nomatch asked) rfl
  | popRoot handle =>
    exact quiet rfl (fun ⟨_, _, asked, _⟩ => nomatch asked) (leaves_changeRoots_collector w fun roots => roots.pop handle)
  | addRoot handle s =>
    exact quiet rfl (fun ⟨_, _, asked, _⟩ => nomatch asked) (leaves_changeRoots_collector w fun roots => roots.add handle s)
  | addGlobal s =>
    exact quiet rfl (fun ⟨_, _, asked, _⟩ => nomatch asked)
      (leaves_changeRoots_collector w fun roots => .ok (roots.addGlobal s))

end Heap

end TracingHeap
