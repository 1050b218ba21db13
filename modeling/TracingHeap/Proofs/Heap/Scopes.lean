import TracingHeap.Proofs.Heap.Tables

/-! What a scope leaves behind.

The body of a scope is any program: it looks at what it likes, and calls the heap depending on what it has been told, also
with handles that are none of its own. Whatever it does, a scope that succeeds leaves the frames that were there before,
and one whose frame is not where it should be does not succeed. -/

set_option autoImplicit false

namespace TracingHeap

/-- A program that runs on a heap. -/
inductive Body : Type → Type 1 where
  | done {α : Type} (outcome : Except Failure α) : Body α
  /-- Look at everything there is. -/
  | look {α : Type} (next : World → Body α) : Body α
  | call {α β : Type} (c : Call β) (next : Except Failure β → Body α) : Body α
  /-- Run a program in a scope of its own. -/
  | scope {α β : Type} (body : RootHandle → Body β) (next : Except Failure β → Body α) : Body α

namespace Body

def run : {α : Type} → Body α → HeapM α
  | _, done (.ok a) => return a
  | _, done (.error e) => throw e
  | _, look next => do (next (← get)).run
  | _, call c next => do (next (← attempt c.run)).run
  | _, scope body next => do (next (← attempt (Heap.inScope fun frame => (body frame).run))).run

end Body

/-- The world in which the body of a scope starts. -/
def World.entered (w : World) : World := { w with heap := { w.heap with roots := w.heap.roots.push.2 } }

/-- The world with other frames. -/
def World.reframed (w : World) (frames : Array RootFrame) : World :=
  { w with heap := { w.heap with roots := { w.heap.roots with frames } } }

namespace Heap

variable {α : Type} {w : World} {frame : RootHandle} {v : RootViolation}

theorem inScope_eq (body : RootHandle → HeapM α) (w : World) : inScope body w =
    leaveScope w.heap.roots.push.1 (answer (body w.heap.roots.push.1 w.entered)) (after (body w.heap.roots.push.1 w.entered)) := by
  have pushed : pushRoot w = .ok w.heap.roots.push.1 w.entered := rfl
  unfold inScope
  rw [run_bind pushed, run_bind_attempt]

/-- A frame that is on top is popped, and the outcome is that of the body. -/
theorem leaveScope_of_onTop (top : w.heap.roots.OnTop frame) (outcome : Except Failure α) :
    answer (leaveScope frame outcome w) = outcome ∧
      after (leaveScope frame outcome w) = w.reframed w.heap.roots.frames.pop := by
  have popped : popRoot frame w = .ok () (w.reframed w.heap.roots.frames.pop) :=
    changeRoots_ok (RootStack.pop_of_onTop top)
  unfold leaveScope
  rw [run_bind (attempt_ok popped)]
  cases outcome <;> exact ⟨rfl, rfl⟩

/-- The failure to report when a frame could not be popped. -/
def complaint (outcome : Except Failure α) (v : RootViolation) : Failure :=
  match outcome with
  | .error e => e
  | .ok _ => .violation (.rootDiscipline v)

theorem leaveScope_of_error (refused : w.heap.roots.pop frame = .error v) (outcome : Except Failure α) :
    answer (leaveScope frame outcome w) = .error (complaint outcome v) ∧
      after (leaveScope frame outcome w) = { w with heap := w.heap.poison (.rootDiscipline v) } := by
  have failed : popRoot frame w = .error (.violation (.rootDiscipline v)) { w with heap := w.heap.poison (.rootDiscipline v) } :=
    changeRoots_error refused
  unfold leaveScope
  rw [run_bind (attempt_error failed)]
  cases outcome <;> exact ⟨rfl, rfl⟩

theorem roots_leaveScope (frame : RootHandle) (outcome : Except Failure α) (w : World) :
    (after (leaveScope frame outcome w)).heap.roots = w.heap.roots.serve (.pop frame) := by
  by_cases top : w.heap.roots.OnTop frame
  · rw [(leaveScope_of_onTop top outcome).2, RootStack.serve, RootStack.pop_of_onTop top]
    rfl
  · obtain ⟨v, refused⟩ := RootStack.pop_of_not_onTop top
    rw [(leaveScope_of_error refused outcome).2, RootStack.serve, refused]
    rfl

end Heap

namespace Body

variable {α : Type}

/-- What a program asks of the root stack, also through the scopes that it opens. -/
def requests : {α : Type} → Body α → World → List RootRequest
  | _, done _, _ => []
  | _, look next, w => (next w).requests w
  | _, call c next, w => c.rootRequests ++ (next (answer (c.run w))).requests (after (c.run w))
  | _, scope body next, w =>
    let frame := w.heap.roots.push.1
    let ran := Heap.inScope (fun frame => (body frame).run) w
    .push :: ((body frame).requests w.entered ++ .pop frame :: (next (answer ran)).requests (after ran))

theorem roots_run (body : Body α) (w : World) : (after (body.run w)).heap.roots = w.heap.roots.served (body.requests w) := by
  induction body generalizing w with
  | done outcome => cases outcome <;> rfl
  | look next ih => exact ih w w
  | call c next ih =>
    rw [run, run_bind_attempt, ih, (c.asks_run w).roots, requests, RootStack.served_append]
  | scope body next inner ih =>
    have left : (after (Heap.inScope (fun frame => (body frame).run) w)).heap.roots =
        (w.entered.heap.roots.served ((body w.heap.roots.push.1).requests w.entered)).serve (.pop w.heap.roots.push.1) := by
      rw [Heap.inScope_eq, Heap.roots_leaveScope, inner]
    rw [run, run_bind_attempt, ih, left, ← RootStack.served_concat, ← RootStack.served_append, requests, List.append_assoc]
    rfl

end Body

/-- Whatever has run on a new heap, its root stack is in use. -/
theorem Heap.inUse_of_create {α : Type} {config : Config} {m m' : Memory} {h : Heap} (created : create config m = .ok (h, m'))
    (body : Body α) : (after (body.run ⟨h, m'⟩)).heap.roots.InUse := by
  obtain ⟨-, engine, -, rfl⟩ := create_eq_ok created
  rw [body.roots_run]
  exact ⟨_, rfl⟩

/-- Whatever the body of a scope does, the scope keeps the root discipline. If its frame is on top when the body ends, the
frames are those from before, with the slots that the body has added to them, and the outcome is the body's own.
Otherwise there are frames that the body has pushed and not popped, or it has popped the frame of the scope. Then the
stack stays as the body has left it, the violation is noted, and it is reported unless the body has failed before. So a
scope that succeeds never changes the sequence of the frames. -/
theorem Heap.inScope_keeps_discipline {α : Type} {w : World} (used : w.heap.roots.InUse) (body : RootHandle → Body α) :
    let frame := w.heap.roots.push.1
    let ran := (body frame).run w.entered
    let requests := (body frame).requests w.entered
    let scope := inScope (fun frame => (body frame).run) w
    ((after ran).heap.roots.OnTop frame →
      answer scope = answer ran ∧ after scope = (after ran).reframed (w.heap.roots.gained requests)) ∧
    (¬ (after ran).heap.roots.OnTop frame →
      (w.entered.heap.roots.Stands requests (after ran).heap.roots ∧
          w.heap.roots.frames.size + 1 < (after ran).heap.roots.frames.size ∨
        RootStack.Gone frame.sequence (after ran).heap.roots) ∧
      ∃ v, (after ran).heap.roots.pop frame = .error v ∧ answer scope = .error (complaint (answer ran) v) ∧
        after scope = { after ran with heap := (after ran).heap.poison (.rootDiscipline v) }) ∧
    (∀ a w', scope = .ok a w' →
      w'.heap.roots.frames.map RootFrame.sequence = w.heap.roots.frames.map RootFrame.sequence) := by
  intro frame ran requests scope
  have left : (after ran).heap.roots = w.heap.roots.push.2.served requests := (body frame).roots_run w.entered
  have stands := RootStack.stands_or_gone used.issued requests
  rw [← left] at stands
  have popped (top : (after ran).heap.roots.OnTop frame) :
      answer scope = answer ran ∧ after scope = (after ran).reframed (w.heap.roots.gained requests) := by
    have standing := stands.resolve_right fun gone => gone.not_onTop top
    have left := leaveScope_of_onTop top (answer ran)
    rwa [standing.pop_frames top, ← inScope_eq (fun frame => (body frame).run) w] at left
  have kept (other : ¬ (after ran).heap.roots.OnTop frame) : ∃ v, (after ran).heap.roots.pop frame = .error v ∧
      answer scope = .error (complaint (answer ran) v) ∧
        after scope = { after ran with heap := (after ran).heap.poison (.rootDiscipline v) } := by
    obtain ⟨v, refused⟩ := RootStack.pop_of_not_onTop other
    have left := leaveScope_of_error refused (answer ran)
    rw [← inScope_eq (fun frame => (body frame).run) w] at left
    exact ⟨v, refused, left⟩
  refine ⟨popped, fun other => ⟨?_, kept other⟩, ?_⟩
  · exact stands.imp_left fun standing =>
      ⟨standing, Nat.lt_of_le_of_ne standing.size_lt fun same => other (standing.onTop same.symm)⟩
  · intro a w' succeeded
    by_cases top : (after ran).heap.roots.OnTop frame
    · have ended : w' = (after ran).reframed (w.heap.roots.gained requests) := by
        rw [← (popped top).2, succeeded]
        rfl
      rw [ended]
      exact RootStack.sequence_gained _ _
    · obtain ⟨v, -, failed, -⟩ := kept top
      rw [succeeded] at failed
      cases failed

/-- It adds a slot to an outer frame, and opens a scope that fails. -/
def Body.thrifty (outer own : RootHandle) : Body Unit :=
  .call (.addRoot outer (.cell 0)) fun _ => .call (.addRoot own (.cell 1)) fun _ =>
    .scope (fun _ => .done (.error (.violation (.unregisteredType ⟨9⟩)) : Except Failure Unit)) fun _ => .done (.ok ())

/-- It pops its frame, and leaves another one in the same place. -/
def Body.careless (own : RootHandle) : Body Unit :=
  .call (.popRoot own) fun _ => .call .pushRoot fun _ => .done (.ok ())

/-- The outer frame gets its slot, also from a body with a scope that fails. A frame in the place of another is no match. -/
theorem Heap.inScope_keeps_discipline_of_two : ∃ w w' v, w.heap.roots.InUse ∧
    inScope (fun own => (Body.thrifty ⟨0, 0⟩ own).run) w = .ok () w' ∧ w'.heap.roots.frames = #[⟨0, [.cell 0]⟩] ∧
    answer (inScope (fun own => (Body.careless own).run) w) = .error (.violation (.rootDiscipline v)) ∧
    (after (inScope (fun own => (Body.careless own).run) w)).heap.poisoned = some (.rootDiscipline v) := by
  have ran : ((World.play (fun w _ => w.heap.poisoned = none) { heapSize := 4096 } 2 [.call .pushRoot]).any fun w =>
      w.heap.roots = RootStack.served {} [.push] ∧
        w.entered.onSuccess (Body.thrifty ⟨0, 0⟩ w.heap.roots.push.1).run (fun _ left =>
          left.heap.roots.OnTop w.heap.roots.push.1 ∧
            w.heap.roots.gained ((Body.thrifty ⟨0, 0⟩ w.heap.roots.push.1).requests w.entered) = #[⟨0, [.cell 0]⟩]) ∧
        w.entered.onSuccess (Body.careless w.heap.roots.push.1).run (fun _ left =>
          ¬ left.heap.roots.OnTop w.heap.roots.push.1 ∧ left.heap.poisoned = none)) = true := by
    decide +kernel
  obtain ⟨w, -, shown⟩ := (Option.any_eq_true _ _).1 ran
  obtain ⟨used, thrifty, careless⟩ := of_decide_eq_true shown
  obtain ⟨_, u, ended, shown⟩ := World.onSuccess_eq_true.1 thrifty
  obtain ⟨_, u', ended', shown'⟩ := World.onSuccess_eq_true.1 careless
  obtain ⟨top, gained⟩ := of_decide_eq_true shown
  obtain ⟨other, healthy⟩ := of_decide_eq_true shown'
  obtain ⟨popped, -, -⟩ := inScope_keeps_discipline ⟨[.push], used⟩ (Body.thrifty ⟨0, 0⟩)
  obtain ⟨-, refused, -⟩ := inScope_keeps_discipline ⟨[.push], used⟩ Body.careless
  rw [ended] at popped
  rw [ended'] at refused
  obtain ⟨told, left⟩ := popped top
  obtain ⟨-, v, -, complains, noted⟩ := refused other
  refine ⟨w, _, v, ⟨_, used⟩, eq_ok_of_answer told, ?_, complains, ?_⟩
  · rw [left, ← gained]
    rfl
  · rw [noted]
    simp only [after, poison, healthy]
    rfl

end TracingHeap
