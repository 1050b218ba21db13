import TracingHeap.Proofs.Heap.Capacity
import TracingHeap.Proofs.Program.Simulation

/-! A program observes the same on every heap.

Whatever the collector, the mode and the size of a heap, a program observes on it what it observes on a store
whose objects never move and are never reclaimed, until the heap runs out of memory. -/

set_option autoImplicit false

namespace TracingHeap

/-! ### What happens to a store -/

namespace Store

/-- No object is reclaimed, and none changes its type or its size. -/
def Grows (s s' : Store) : Prop := ∀ (o : Nat) (obj : Object), s.objects[o]? = some obj →
  ∃ obj' : Object, s'.objects[o]? = some obj' ∧ obj'.type = obj.type ∧ obj'.size = obj.size

/-- No object is empty. -/
def Full (s : Store) : Prop := ∀ obj ∈ s.objects, 0 < obj.size

variable {s s' s'' : Store} {rule : Rule} {seen : Observation}

theorem Grows.refl (s : Store) : s.Grows s := fun _ obj found => ⟨obj, found, rfl, rfl⟩

theorem Grows.trans (first : s.Grows s') (second : s'.Grows s'') : s.Grows s'' := by
  intro o obj found
  obtain ⟨obj', found', type, size⟩ := first o obj found
  obtain ⟨obj'', found'', type', size'⟩ := second o obj' found'
  exact ⟨obj'', found'', type'.trans type, size'.trans size⟩

theorem Grows.full (grows : s.Grows s') (full : s'.Full) : s.Full := by
  intro obj member
  obtain ⟨o, found⟩ := Array.getElem?_of_mem member
  obtain ⟨obj', found', -, size⟩ := grows o obj found
  exact size ▸ full obj' (Array.mem_of_getElem? found')

theorem grows_forget (s : Store) : s.Grows s.forget := by
  intro o obj found
  refine ⟨obj.forget s.types, ?_, rfl, rfl⟩
  show (s.objects.map _)[o]? = _
  rw [Array.getElem?_map, found]
  rfl

theorem grows_setCell {x : Nat} {v : Value} (stored : s.setCell x v = some (seen, s')) : s.Grows s' := by
  obtain ⟨-, -, rfl⟩ := setCell_eq_some.1 stored
  exact .refl s

theorem grows_enter {id : TypeId} {size x : Nat} {words : Nat → Nat}
    (entered : s.close.forget.enter id size words x = some (seen, s')) : s.Grows s' := by
  have closed : s.Grows s.close := .refl s
  refine closed.trans ((grows_forget _).trans (.trans ?_ (grows_setCell entered)))
  intro o obj found
  refine ⟨obj, ?_, rfl, rfl⟩
  show (s.close.forget.objects.push _)[o]? = _
  rw [Array.getElem?_push, if_neg (Nat.ne_of_lt (Array.getElem?_eq_some_iff.1 found).1), found]

theorem grows_write {x offset : Nat} {v : Value} (written : s.write rule x offset v = some (seen, s')) : s.Grows s' := by
  obtain ⟨⟨o, obj⟩, held, later⟩ := Option.bind_eq_some_iff.1 written
  obtain ⟨d, -, stored⟩ := Option.bind_eq_some_iff.1 later
  obtain ⟨-, known⟩ := held_eq_some.1 held
  split at stored
  · cases stored
    intro o' obj' found
    show ∃ obj'' : Object, (s.objects.setIfInBounds o _)[o']? = some obj'' ∧ _
    by_cases same : o = o'
    · subst same
      cases known.symm.trans found
      rw [Array.getElem?_setIfInBounds_self_of_lt (Array.getElem?_eq_some_iff.1 known).1]
      exact ⟨_, rfl, rfl, rfl⟩
    · rw [Array.getElem?_setIfInBounds_ne same]
      exact ⟨obj', found, rfl, rfl⟩
  · cases stored

theorem grows_step {c : Command} (stepped : s.step rule c = some (seen, s')) : s.Grows s' := by
  cases c with
  | register d words =>
    simp only [step] at stepped
    split at stepped
    · cases stepped; exact .refl s
    · cases stepped; exact .refl s
  | pushRoot => cases stepped; exact .refl s
  | popRoot handle =>
    simp only [step] at stepped
    split at stepped
    · cases stepped; exact .refl s
    · cases stepped
  | addRoot handle x =>
    obtain ⟨v, -, later⟩ := Option.bind_eq_some_iff.1 stepped
    split at later
    · cases later; exact .refl s
    · cases later
  | addGlobal x =>
    obtain ⟨v, -, same⟩ := Option.map_eq_some_iff.1 stepped
    cases same
    exact .refl s
  | allocate id extra x =>
    obtain ⟨d, -, entered⟩ := Option.bind_eq_some_iff.1 stepped
    exact grows_enter entered
  | allocateArray id count x =>
    obtain ⟨d, -, later⟩ := Option.bind_eq_some_iff.1 stepped
    obtain ⟨r, -, entered⟩ := Option.bind_eq_some_iff.1 later
    exact grows_enter entered
  | collect => cases stepped; exact grows_forget s
  | copy x y =>
    obtain ⟨v, -, stored⟩ := Option.bind_eq_some_iff.1 stepped
    exact grows_setCell stored
  | clear x => exact grows_setCell stepped
  | load x offset y =>
    obtain ⟨v, -, later⟩ := Option.bind_eq_some_iff.1 stepped
    split at later
    · exact grows_setCell later
    · cases later
  | store x offset y =>
    obtain ⟨v, -, written⟩ := Option.bind_eq_some_iff.1 stepped
    exact grows_write written
  | read x offset =>
    obtain ⟨v, -, later⟩ := Option.bind_eq_some_iff.1 stepped
    split at later
    · cases later; exact .refl s
    · cases later
  | write x offset n =>
    simp only [step] at stepped
    split at stepped
    · exact grows_write stepped
    · cases stepped
  | isNull x =>
    obtain ⟨v, -, same⟩ := Option.map_eq_some_iff.1 stepped
    cases same
    exact .refl s
  | same x y =>
    obtain ⟨v, -, later⟩ := Option.bind_eq_some_iff.1 stepped
    obtain ⟨u, -, same⟩ := Option.map_eq_some_iff.1 later
    cases same
    exact .refl s
  | typeOf x =>
    obtain ⟨held, -, same⟩ := Option.map_eq_some_iff.1 stepped
    cases same
    exact .refl s
  | payloadSize x =>
    obtain ⟨held, -, same⟩ := Option.map_eq_some_iff.1 stepped
    cases same
    exact .refl s

end Store

theorem Program.grows_model {program : Program} {rule : Rule} {s s' : Store} {observed : List Observation}
    (modelled : program.model rule s = some (observed, s')) : s.Grows s' := by
  induction program generalizing s observed with
  | done => cases modelled; exact .refl _
  | step c next ih =>
    obtain ⟨⟨seen, s₁⟩, stepped, later⟩ := Option.bind_eq_some_iff.1 modelled
    obtain ⟨⟨rest, s₂⟩, modelled', same⟩ := Option.map_eq_some_iff.1 later
    cases same
    exact (Store.grows_step stepped).trans (ih seen modelled')

/-! ### Runs -/

theorem Agrees.isPrefix {meant : List Observation} {run : List Observation × Option Failure} (agrees : Agrees meant run) :
    run.1 <+: meant := by
  rcases agrees with rfl | ⟨seen, strategy, requested, free, part, rfl⟩
  · exact List.prefix_refl _
  · exact part

theorem Agrees.eq_of_none {meant : List Observation} {run : List Observation × Option Failure}
    (agrees : Agrees meant run) (ended : run.2 = none) : run = (meant, none) := by
  rcases agrees with same | ⟨seen, strategy, requested, free, part, rfl⟩
  · exact same
  · cases ended

/-- What stops a run is the want of memory. -/
theorem Agrees.eq_outOfMemory {meant : List Observation} {run : List Observation × Option Failure} {e : Failure}
    (agrees : Agrees meant run) (stopped : run.2 = some e) :
    ∃ strategy requested free, e = .violation (.outOfMemory strategy requested free) := by
  rcases agrees with rfl | ⟨seen, strategy, requested, free, -, rfl⟩
  · cases stopped
  · exact ⟨strategy, requested, free, (Option.some.inj stopped).symm⟩

-- By induction on the program, for any store and heap that represents it. The placement changes with each command,
-- and no two heaps need have the same one.
/-- Whatever a program does, the heap follows the store. -/
theorem Store.Represents.agrees {program : Program} {s s' : Store} {w : World} {placed : Nat → Nat → Prop}
    {observed : List Observation} (rep : s.Represents w placed)
    (modelled : program.model Rule.orderly s = some (observed, s'))
    (full : w.heap.collector.engine.strategy = .copying → s'.Full) : Agrees observed (program.observe w) := by
  induction program generalizing s w placed observed with
  | done => cases modelled; exact .inl rfl
  | step c next ih =>
    obtain ⟨⟨seen, s₁⟩, stepped, later⟩ := Option.bind_eq_some_iff.1 modelled
    obtain ⟨⟨rest, s₂⟩, modelled', same⟩ := Option.map_eq_some_iff.1 later
    cases same
    have full₁ := fun moves => (Program.grows_model modelled').full (full moves)
    rcases rep.follow stepped full₁ with ⟨strategy, requested, free, w', refused, -⟩ | ⟨w', placed', ran, rep', strategy⟩
    · refine .inr ⟨[], strategy, requested, free, List.nil_prefix, ?_⟩
      simp only [Program.observe, refused]
    · simp only [Program.observe, ran]
      rcases ih seen rep' modelled' (strategy ▸ full) with all | ⟨shown, strategy, requested, free, part, ended⟩
      · rw [all]
        exact .inl rfl
      · rw [ended]
        exact .inr ⟨seen :: shown, strategy, requested, free, List.prefix_cons_inj seen |>.2 part, rfl⟩

/-- The world is a heap that has just been created, beside cells that are null. -/
def World.Starts (config : Config) (cells : Nat) (w : World) : Prop := ∃ m : Memory,
  m.cells = Array.replicate cells 0 ∧ Heap.create config m = .ok (w.heap, w.memory) ∧ w.memory.Regular

theorem World.Starts.of_start {config : Config} {cells : Nat} {w : World} (started : start config cells = some w) :
    w.Starts config cells := ⟨_, rfl, start_eq_some started⟩

theorem World.Starts.built {config : Config} {cells : Nat} {w : World} (starts : w.Starts config cells) :
    w.Built config := by
  obtain ⟨m, -, created, -⟩ := starts
  exact .created created

theorem World.Starts.represents {config : Config} {cells : Nat} {w : World} (starts : w.Starts config cells) :
    (Store.start cells).Represents w (fun _ _ => False) := by
  obtain ⟨m, blank, created, regular⟩ := starts
  have sound := Heap.sound_create created regular
  have same : w.memory.cells = m.cells := Heap.cells_create created
  obtain ⟨-, engine, -, fresh⟩ := Heap.create_eq_ok created
  constructor
  case sound => exact sound
  case types => rw [fresh]; rfl
  case roots => rw [fresh]; rfl
  case width => rw [same, blank]; simp [Store.start]
  case functional => exact fun _ _ _ none => none.elim
  case injective => exact fun _ _ _ none => none.elim
  case held => exact fun _ _ none => none.elim
  case object => exact fun _ _ none => none.elim
  case cell =>
    intro x v found
    obtain ⟨below, rfl⟩ := Array.getElem?_eq_some_iff.1 found
    have null : (Store.start cells).cells[x] = .null := Array.getElem_replicate ..
    rw [null]
    show w.memory.cells[x]?.getD 0 = 0
    rw [same, blank, Array.getElem?_replicate]
    split
    · rfl
    · rfl
  case root =>
    intro x v _ found
    obtain ⟨below, rfl⟩ := Array.getElem?_eq_some_iff.1 found
    have null : (Store.start cells).cells[x] = .null := Array.getElem_replicate ..
    rw [null]
    rfl

/-- A program that keeps to the rules observes the same on any two heaps, namely what it observes on the store,
until one of them runs out of memory. On a heap that moves its objects it creates no empty ones. -/
theorem Program.observes_store {program : Program} {cells : Nat} {observed : List Observation} {s : Store}
    (modelled : program.model Rule.orderly (Store.start cells) = some (observed, s)) {config config' : Config}
    {w w' : World} (starts : w.Starts config cells) (starts' : w'.Starts config' cells)
    (full : config.strategy = .copying ∨ config'.strategy = .copying → s.Full) :
    Agrees observed (program.observe w) ∧ Agrees observed (program.observe w') ∧
      ((program.observe w).1 <+: (program.observe w').1 ∨ (program.observe w').1 <+: (program.observe w).1) ∧
      ((program.observe w).2 = none → (program.observe w').2 = none → program.observe w = program.observe w') := by
  have first := starts.represents.agrees modelled fun moves => full (.inl (starts.built.strategy.symm.trans moves))
  have second := starts'.represents.agrees modelled fun moves => full (.inr (starts'.built.strategy.symm.trans moves))
  refine ⟨first, second, List.prefix_or_prefix_of_prefix first.isPrefix second.isPrefix, fun ended ended' => ?_⟩
  rw [first.eq_of_none ended, second.eq_of_none ended']

/-- An array that refers to itself, on a heap that collects at every request and on one that moves its objects. The
second array is forgotten, as its cell is no root. -/
theorem Program.observes_store_of_loop : ∃ w w', w.Starts { mode := .stress, heapSize := 4096 } 2 ∧
    w'.Starts { strategy := .copying, heapSize := 8192 } 2 ∧ ∃ program : Program,
      Agrees [.registered (some ⟨1⟩), .handle ⟨0, 0⟩, .done, .done, .done, .done, .done, .done, .answer true,
        .number 1, .number 16] (program.observe w) ∧
      Agrees [.registered (some ⟨1⟩), .handle ⟨0, 0⟩, .done, .done, .done, .done, .done, .done, .answer true,
        .number 1, .number 16] (program.observe w') := by
  have first : (World.start { mode := .stress, heapSize := 4096 } 2).isSome = true := by decide +kernel
  have second : (World.start { strategy := .copying, heapSize := 8192 } 2).isSome = true := by decide +kernel
  obtain ⟨w, started⟩ := Option.isSome_iff_exists.1 first
  obtain ⟨w', started'⟩ := Option.isSome_iff_exists.1 second
  have ran : ((Program.ofList [.register .references Descriptor.references_isWords, .pushRoot, .addRoot ⟨0, 0⟩ 0,
      .allocateArray ⟨1⟩ 1 0, .store 0 8 0, .allocateArray ⟨1⟩ 0 1, .collect, .load 0 8 1, .same 0 1, .read 0 0,
      .payloadSize 0]).model Rule.orderly (Store.start 2)).any (fun r => r.1 = [.registered (some ⟨1⟩),
        .handle ⟨0, 0⟩, .done, .done, .done, .done, .done, .done, .answer true, .number 1, .number 16] ∧
      r.2.objects.all fun obj => 0 < obj.size) = true := by decide +kernel
  obtain ⟨⟨observed, s⟩, modelled, shown⟩ := (Option.any_eq_true _ _).1 ran
  obtain ⟨rfl, full⟩ := of_decide_eq_true shown
  obtain ⟨agrees, agrees', -⟩ := Program.observes_store modelled (.of_start started) (.of_start started') fun _ obj member =>
    of_decide_eq_true (Array.all_eq_true'.1 full obj member)
  exact ⟨w, w', .of_start started, .of_start started', _, agrees, agrees'⟩

/-- A count is a scalar word, but not any number may be written to it. When it exceeds the capacity, the collection
fails, though every traced word is a reference. -/
theorem Program.overcount_not_observed : ∃ (program : Program) (observed : List Observation) (s : Store) (w : World),
    program.model Rule.typed (Store.start 1) = some (observed, s) ∧ w.Starts { heapSize := 4096 } 1 ∧
      ¬ Agrees observed (program.observe w) := by
  have ran : ((Program.ofList [.register .references Descriptor.references_isWords, .pushRoot, .addRoot ⟨0, 0⟩ 0,
      .allocateArray ⟨1⟩ 1 0, .write 0 0 2, .collect]).model Rule.typed (Store.start 1)).isSome = true := by
    decide +kernel
  have failed : (World.start { heapSize := 4096 } 1).any (fun w => ((Program.ofList
      [.register .references Descriptor.references_isWords, .pushRoot, .addRoot ⟨0, 0⟩ 0, .allocateArray ⟨1⟩ 1 0,
        .write 0 0 2, .collect]).observe w).2 = some (.corrupted (Memory.origin + 24) (.regionOverflow 2 1))) = true := by
    decide +kernel
  obtain ⟨⟨observed, s⟩, modelled⟩ := Option.isSome_iff_exists.1 ran
  obtain ⟨w, started, ended⟩ := (Option.any_eq_true _ _).1 failed
  have ended := of_decide_eq_true ended
  refine ⟨_, observed, s, w, modelled, .of_start started, ?_⟩
  rintro (all | ⟨shown, strategy, requested, free, -, refused⟩)
  · rw [all] at ended
    cases ended
  · rw [refused] at ended
    cases ended

end TracingHeap
