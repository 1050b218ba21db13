import TracingHeap.Proofs.Collector.Policy
import TracingHeap.Proofs.Heap.Capacity
import TracingHeap.Proofs.Heap.Modes

/-! The collections of a call.

Which collections a call has run does not show in what it returns. So the calls are written once more, with a log that
each collection is entered in. They do what the calls without a log do, and the log has one entry if the call lets the
collector run, and none otherwise. -/

set_option autoImplicit false

namespace TracingHeap

/-- What a collection comes to. -/
abbrev Outcome := Except Failure CollectionReport

/-- A computation of a program on its heap that logs the collections. -/
abbrev LoggedM (α : Type) := EStateM Failure (World × List Outcome) α

namespace Logged

variable {α β : Type}

/-- An action that does not collect. -/
def quiet (act : HeapM α) : LoggedM α := fun (w, log) =>
  match act w with
  | .ok a w => .ok a (w, log)
  | .error x w => .error x (w, log)

def runCollection : LoggedM CollectionReport := fun (w, log) =>
  quiet Heap.runCollection (w, log ++ [answer (Heap.runCollection w)])

def obtainBlock (size : Nat) : LoggedM Nat := do
  let early := (← get).1.heap.collector.shouldCollect size
  if early then
    let _ ← runCollection
  match ← quiet (Heap.takeBlock size) with
  | some block => return block
  | none =>
    if !early then
      let _ ← runCollection
    match ← quiet (Heap.takeBlock size) with
    | some block => return block
    | none => quiet (Heap.refuse size)

def allocate (id : TypeId) (extra : Nat) : LoggedM Nat := do
  quiet Heap.checkPoisoned
  let d ← quiet (Heap.requireType id)
  quiet Heap.closeTypes
  let size := Word.saturate (d.fixedSize + extra)
  if size > largestPayload then quiet (Heap.refuse size)
  let block ← obtainBlock (footprint size)
  quiet <| Heap.access do
    Access.clear block (footprint size)
    Access.storeHeader block (Header.fresh id size)
  return payloadOf block

def allocateArray (id : TypeId) (count : Nat) : LoggedM Nat := do
  let d ← quiet (Heap.requireType id)
  match d.region with
  | none => throw (.violation (.invalidDescriptor d.name .noRegion))
  | some region =>
    let obj ← allocate id (Word.saturate (count * region.elementSize))
    quiet (Heap.access (Access.storeWord (slotAt obj region.countOffset) count))
    return obj

def collect : LoggedM CollectionReport := do
  quiet Heap.checkPoisoned
  runCollection

end Logged

/-- A call that logs its collections. -/
def Operation.logged : Operation → LoggedM Unit
  | allocate id extra => do let _ ← Logged.allocate id extra
  | allocateArray id count => do let _ ← Logged.allocateArray id count
  | collect => do let _ ← Logged.collect
  | op => Logged.quiet op.run

/-- The collections that a call runs. -/
def Operation.collections (op : Operation) (w : World) : List Outcome := (after (op.logged (w, []))).2

/-- The computation does what it does without a log, and logs these collections. -/
def Logs {α : Type} (logged : LoggedM α) (plain : HeapM α) (w : World) (entries : List Outcome) : Prop :=
  ∀ log, logged (w, log) = Logged.quiet plain (w, log ++ entries)

namespace Logs

open Logged

variable {α β : Type} {w : World} {entries : List Outcome}

theorem quiet (act : HeapM α) (w : World) : Logs (Logged.quiet act) act w [] := fun log => by rw [List.append_nil]

theorem pure (a : α) (w : World) : Logs (Pure.pure a) (Pure.pure a) w [] := quiet (Pure.pure a) w

theorem collect (w : World) : Logs runCollection Heap.runCollection w [answer (Heap.runCollection w)] := fun _ => rfl

/-- After a computation that logs nothing comes what follows it. -/
theorem bind_ok {x : HeapM α} {g : α → LoggedM β} {f : α → HeapM β} {a : α} {w' : World} (ran : x w = .ok a w')
    (later : Logs (g a) (f a) w' entries) : Logs (Logged.quiet x >>= g) (x >>= f) w entries := by
  intro log
  have first : Logged.quiet x (w, log) = .ok a (w', log) := by simp only [Logged.quiet, ran]
  rw [run_bind first, later log]
  simp only [Logged.quiet, run_bind ran]

theorem bind_fails {x : HeapM α} {g : α → LoggedM β} {f : α → HeapM β} (fails : Fails (x w)) :
    Logs (Logged.quiet x >>= g) (x >>= f) w [] := by
  obtain ⟨e, w', ran⟩ := fails
  intro log
  have first : Logged.quiet x (w, log) = .error e (w', log) := by simp only [Logged.quiet, ran]
  rw [run_bind_error first, List.append_nil]
  simp only [Logged.quiet, run_bind_error ran]

/-- What follows a computation that logs does not. -/
theorem bind {x' : LoggedM α} {x : HeapM α} {g : α → LoggedM β} {f : α → HeapM β} (first : Logs x' x w entries)
    (later : ∀ a w', x w = .ok a w' → Logs (g a) (f a) w' []) : Logs (x' >>= g) (x >>= f) w entries := by
  intro log
  have step := first log
  cases ran : x w with
  | ok a w' =>
    simp only [Logged.quiet, ran] at step
    rw [run_bind step, later a w' ran, List.append_nil]
    simp only [Logged.quiet, run_bind ran]
  | error e w' =>
    simp only [Logged.quiet, ran] at step
    rw [run_bind_error step]
    simp only [Logged.quiet, run_bind_error ran]

theorem cast {x' : LoggedM α} {x : HeapM α} {entries' : List Outcome} (logs : Logs x' x w entries)
    (same : entries = entries') : Logs x' x w entries' := same ▸ logs

/-- Only what the computations do in this world matters. -/
theorem congr {x' y' : LoggedM α} {x y : HeapM α} (logs : Logs y' y w entries) (same' : ∀ log, x' (w, log) = y' (w, log))
    (same : x w = y w) : Logs x' x w entries := by
  intro log
  rw [same', logs log]
  simp only [Logged.quiet, same]

theorem collections {op : Operation} (logs : Logs op.logged op.run w entries) : op.collections w = entries := by
  unfold Operation.collections
  rw [logs, List.nil_append]
  simp only [Logged.quiet]
  cases op.run w <;> rfl

end Logs

/-- The collections of a request: one if it waits, and none otherwise. -/
def World.collectionsFor (w : World) (size : Nat) : List Outcome :=
  if Heap.Waits w size then [answer (Heap.runCollection w)] else []

/-- The collection that a call lets run, if it does. -/
def Operation.due (op : Operation) (w : World) : List Outcome :=
  if op.Triggers w then [answer (Heap.runCollection w)] else []

theorem Operation.due_of_unasked {op : Operation} {w : World} (other : op ≠ .collect)
    (unasked : w.heap.poisoned = none → op.request? w.heap.types = none) : op.due w = [] := by
  refine if_neg fun triggers => ?_
  obtain ⟨healthy, same | ⟨size, asked, -⟩⟩ := op.triggers_iff.1 triggers
  · exact other same
  · cases (unasked healthy).symm.trans asked

/-- The collections of a call that asks for a block are those of its request. -/
theorem Operation.due_of_request {op : Operation} {w : World} {size : Nat} (healthy : w.heap.poisoned = none)
    (asked : op.request? w.heap.types = some size) : op.due w = w.collectionsFor size := by
  have other : op ≠ .collect := by
    rintro rfl
    cases asked
  refine if_congr (op.triggers_iff.trans ⟨?_, fun waits => ⟨healthy, .inr ⟨size, asked, waits⟩⟩⟩) rfl rfl
  rintro ⟨-, same | ⟨size', asked', waits⟩⟩
  · exact absurd same other
  · cases asked.symm.trans asked'
    exact waits

/-- A closed type table makes no difference. -/
theorem World.collectionsFor_closed (w : World) (size : Nat) : w.closed.collectionsFor size = w.collectionsFor size := by
  unfold collectionsFor
  rw [(Heap.runCollection_closed w).answer_eq]
  rfl

namespace Logged

open Heap (Waits)

variable {w : World} {id : TypeId} {extra count size : Nat}

/-- A block, or what follows if there is none. -/
theorem logs_takeBlock (size : Nat) (w : World) {missed' : LoggedM Nat} {missed : HeapM Nat} {entries : List Outcome}
    (found : w.heap.collector.engine.allocate size ≠ none → entries = [])
    (logs : w.heap.collector.engine.allocate size = none → Logs missed' missed w entries) :
    Logs (do match ← quiet (Heap.takeBlock size) with
      | some block => return block
      | none => missed') (do
      match ← Heap.takeBlock size with
      | some block => return block
      | none => missed) w entries := by
  cases allocated : w.heap.collector.engine.allocate size with
  | some pair =>
    rw [found (allocated ▸ Option.some_ne_none _)]
    exact .bind_ok (Heap.takeBlock_some allocated) (.pure _ _)
  | none => exact .bind_ok (Heap.takeBlock_none allocated) (logs allocated)

/-- The last attempt. -/
theorem logs_lastAttempt (size : Nat) (w : World) :
    Logs (do match ← quiet (Heap.takeBlock size) with
      | some block => return block
      | none => quiet (Heap.refuse size)) (do
      match ← Heap.takeBlock size with
      | some block => return block
      | none => Heap.refuse size) w [] :=
  logs_takeBlock size w (fun _ => rfl) fun _ => .quiet _ w

-- The collection comes before the first attempt or after it, and never a second time.
theorem logs_obtainBlock (w : World) (size : Nat) :
    Logs (obtainBlock size) (Heap.obtainBlock size) w (w.collectionsFor size) := by
  cases early : w.heap.collector.shouldCollect size with
  | true =>
    have entry : w.collectionsFor size = [answer (Heap.runCollection w)] := if_pos (.inl early)
    rw [entry]
    refine .congr (.bind (.collect w) fun _ w' _ => logs_takeBlock size w' (fun _ => rfl) fun _ => logs_lastAttempt size w')
      (fun log => ?_) ?_
    · unfold obtainBlock
      rw [run_bind_get, early]
      rfl
    · unfold Heap.obtainBlock
      rw [run_bind_get, early]
      rfl
  | false =>
    have idle : w.heap.collector.shouldCollect size ≠ true := Bool.eq_false_iff.1 early
    have entry (full : w.heap.collector.engine.allocate size = none) :
        [answer (Heap.runCollection w)] = w.collectionsFor size := (if_pos (.inr full)).symm
    have late := Logs.bind (.collect w) fun _ w' _ => logs_lastAttempt size w'
    refine .congr (logs_takeBlock size w (fun found => if_neg (not_or.2 ⟨idle, found⟩)) fun full => late.cast (entry full))
      (fun log => ?_) ?_
    · unfold obtainBlock
      rw [run_bind_get, early]
      rfl
    · unfold Heap.obtainBlock
      rw [run_bind_get, early]
      rfl

theorem logs_allocate (w : World) (id : TypeId) (extra : Nat) :
    Logs (allocate id extra) (Heap.allocate id extra) w ((Operation.allocate id extra).due w) := by
  have idle (unasked : w.heap.poisoned = none → w.heap.types.blockFor? id extra = none) :
      (Operation.allocate id extra).due w = [] :=
    Operation.due_of_unasked nofun unasked
  unfold allocate Heap.allocate
  cases poisoned : w.heap.poisoned with
  | some e =>
    rw [idle fun healthy => nomatch healthy.symm.trans poisoned]
    exact .bind_fails (Heap.checkPoisoned_poisoned poisoned ▸ fails_error _ _)
  | none =>
    refine .bind_ok (Heap.checkPoisoned_ok poisoned) ?_
    cases registered : w.heap.types.get? id with
    | none =>
      rw [idle fun _ => by simp only [TypeTable.blockFor?, registered, Option.bind_none]]
      exact .bind_fails (Heap.requireType_none registered ▸ fails_error _ _)
    | some d =>
      have close : Heap.closeTypes w = .ok () w.closed := rfl
      refine .bind_ok (Heap.requireType_ok registered) (.bind_ok close ?_)
      by_cases small : d.fixedSize + extra ≤ largestPayload
      · have request : (Operation.allocate id extra).request? w.heap.types = some (footprint (d.fixedSize + extra)) := by
          simp only [Operation.request?, TypeTable.blockFor?, registered, Option.bind_some, small, if_true]
        have exact' : Word.saturate (d.fixedSize + extra) = d.fixedSize + extra :=
          Word.saturate_of_lt (Nat.lt_of_le_of_lt small (by decide))
        rw [Operation.due_of_request poisoned request, ← World.collectionsFor_closed]
        simp only [exact', Nat.not_lt.2 small, if_false]
        refine .bind (logs_obtainBlock w.closed _) fun block w₁ _ => ?_
        exact .bind (.quiet _ w₁) fun _ w₂ _ => .pure _ w₂
      · have large : Word.saturate (d.fixedSize + extra) > largestPayload := by
          unfold Word.saturate wordLimit largestPayload at *
          omega
        rw [idle fun _ => by simp only [TypeTable.blockFor?, registered, Option.bind_some, small, if_false]]
        simp only [large, if_true]
        exact .bind_fails (fails_error _ _)

theorem logs_allocateArray (w : World) (id : TypeId) (count : Nat) :
    Logs (allocateArray id count) (Heap.allocateArray id count) w ((Operation.allocateArray id count).due w) := by
  have idle (unasked : (Operation.allocateArray id count).request? w.heap.types = none) :
      (Operation.allocateArray id count).due w = [] :=
    Operation.due_of_unasked nofun fun _ => unasked
  unfold allocateArray Heap.allocateArray
  cases registered : w.heap.types.get? id with
  | none =>
    rw [idle (by simp only [Operation.request?, registered, Option.bind_none])]
    exact .bind_fails (Heap.requireType_none registered ▸ fails_error _ _)
  | some d =>
    refine .bind_ok (Heap.requireType_ok registered) ?_
    cases region : d.region with
    | none =>
      rw [idle (by simp only [Operation.request?, registered, Option.bind_some, region, Option.bind_none])]
      exact .quiet (throw _) w
    | some r =>
      have request : (Operation.allocateArray id count).request? w.heap.types =
          (Operation.allocate id (Word.saturate (count * r.elementSize))).request? w.heap.types := by
        simp only [Operation.request?, registered, Option.bind_some, region]
      have due : (Operation.allocateArray id count).due w =
          (Operation.allocate id (Word.saturate (count * r.elementSize))).due w :=
        if_congr (by simp only [Operation.Triggers, request]) rfl rfl
      rw [due]
      refine .bind (logs_allocate w id _) fun obj w₁ _ => ?_
      exact .bind (.quiet _ w₁) fun _ w₂ _ => .pure _ w₂

theorem logs_collect (w : World) : Logs collect Heap.collect w (Operation.collect.due w) := by
  unfold collect Heap.collect
  cases poisoned : w.heap.poisoned with
  | some e =>
    have idle : Operation.collect.due w = [] := if_neg fun ⟨healthy, _⟩ => nomatch healthy.symm.trans poisoned
    rw [idle]
    exact .bind_fails (Heap.checkPoisoned_poisoned poisoned ▸ fails_error _ _)
  | none =>
    have due : Operation.collect.due w = [answer (Heap.runCollection w)] := if_pos ⟨poisoned, trivial⟩
    rw [due]
    exact .bind_ok (Heap.checkPoisoned_ok poisoned) (.collect w)

end Logged

/-- A call does what it does without a log, and runs one collection or none. -/
theorem Operation.logs (op : Operation) (w : World) : Logs op.logged op.run w (op.due w) := by
  have quiet {op : Operation} (other : op ≠ .collect) (unasked : op.request? w.heap.types = none)
      (same : op.logged = Logged.quiet op.run) : Logs op.logged op.run w (op.due w) := by
    rw [op.due_of_unasked other fun _ => unasked, same]
    exact .quiet _ w
  cases op with
  | allocate id extra => exact .bind (Logged.logs_allocate w id extra) fun _ w' _ => .pure _ w'
  | allocateArray id count => exact .bind (Logged.logs_allocateArray w id count) fun _ w' _ => .pure _ w'
  | collect => exact .bind (Logged.logs_collect w) fun _ w' _ => .pure _ w'
  | register d words => exact quiet nofun rfl rfl
  | pushRoot => exact quiet nofun rfl rfl
  | popRoot handle => exact quiet nofun rfl rfl
  | addRoot handle s => exact quiet nofun rfl rfl
  | addGlobal s => exact quiet nofun rfl rfl

theorem Operation.collections_eq (op : Operation) (w : World) : op.collections w = op.due w := (op.logs w).collections

end TracingHeap
