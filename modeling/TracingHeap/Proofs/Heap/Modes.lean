import TracingHeap.Proofs.Heap.Calls
import TracingHeap.Proofs.Heap.Demand
import TracingHeap.Proofs.Heap.NewObjects
import TracingHeap.Proofs.MarkSweep.Room

/-! What the modes of a heap make of it.

The layers around a collector count what it does, or have it run before every request. But for the counts and for the
collections that are forced, a program cannot tell them from no layers at all. -/

set_option autoImplicit false

namespace TracingHeap

/-- The world in another mode, with other layers. -/
def World.dressed (w : World) (mode : Mode) (layers : List Layer) : World where
  heap := { w.heap with
    config := { w.heap.config with mode }
    collector := { engine := w.heap.collector.engine, layers } }
  memory := w.memory

/-- The world in the normal mode, which has no layers. -/
def World.plain (w : World) : World := w.dressed .normal []

/-- The layers have the collector run before every request. -/
def World.forced (w : World) : Bool := w.heap.collector.layers.any Layer.isStressing

/-- The report without the counts. -/
def ShutdownReport.bare (r : ShutdownReport) : ShutdownReport := { r with counters := none }

/-- The outcome of a shutdown but for the counts, and the memory that it leaves. -/
def World.ended (w : World) : Except Failure ShutdownReport × Memory :=
  let (outcome, m) := Heap.shutdown w.heap w.memory
  (outcome.map ShutdownReport.bare, m)

/-- Two worlds differ in their modes and layers only. Whether the layers of each force collections is known. -/
structure World.Twin (b b' : Bool) (w v : World) : Prop where
  same : v = w.dressed v.heap.config.mode v.heap.collector.layers
  left : w.forced = b
  right : v.forced = b'

theorem World.Twin.dressed {b b' : Bool} {w v : World} (twin : w.Twin b b' v) : ∃ mode layers, v = w.dressed mode layers :=
  ⟨_, _, twin.same⟩

theorem World.Twin.plain {b b' : Bool} {w v : World} (twin : w.Twin b b' v) : v.plain = w.plain := by
  obtain ⟨mode, layers, rfl⟩ := twin.dressed
  rfl

theorem World.Twin.of_plain {w v : World} (same : v.plain = w.plain) : w.Twin w.forced v.forced v := by
  refine ⟨?_, rfl, rfl⟩
  -- The mode and the layers are all that the plain world lacks.
  have restored (u : World) (mode : Mode) (layers : List Layer) : u.dressed mode layers = u.plain.dressed mode layers := rfl
  rw [restored, ← same]
  rfl

theorem World.Twin.refl (w : World) : w.Twin w.forced w.forced w := ⟨rfl, rfl, rfl⟩

/-- No layer stops or begins to force collections. -/
theorem Layer.any_isStressing_map {record : Layer → Layer} (keeps : ∀ l, (record l).isStressing = l.isStressing)
    (layers : List Layer) : (layers.map record).any isStressing = layers.any isStressing := by
  simp only [List.any_map, Function.comp_def, keeps]

theorem Layer.any_isStressing_recordCollection (r : CollectionReport) (layers : List Layer) :
    (layers.map (recordCollection r)).any isStressing = layers.any isStressing :=
  any_isStressing_map (fun l => by cases l <;> rfl) layers

theorem Layer.any_isStressing_recordAllocation (size : Nat) (layers : List Layer) :
    (layers.map (recordAllocation size)).any isStressing = layers.any isStressing :=
  any_isStressing_map (fun l => by cases l <;> rfl) layers

theorem World.unseen_twin (b b' : Bool) : World.Unseen (World.Twin b b') where
  poison := by
    intro w v twin e
    obtain ⟨mode, layers, rfl⟩ := twin.dressed
    exact ⟨rfl, twin.left, twin.right⟩
  checked := by
    intro w v twin
    obtain ⟨mode, layers, rfl⟩ := twin.dressed
    rfl
  collector := by
    rintro ⟨heap, m⟩ v twin
    obtain ⟨mode, layers, rfl⟩ := twin.dressed
    simp only [Heap.runCollector, World.dressed, Collector.collect]
    cases Engine.collect heap.types heap.roots.slots (heap.collector.engine, m) with
    | ok report pair =>
      exact .ok report ⟨rfl, (Layer.any_isStressing_recordCollection report _).trans twin.left,
        (Layer.any_isStressing_recordCollection report _).trans twin.right⟩
    | error x pair => exact .error x ⟨rfl, twin.left, twin.right⟩
  verify := Heap.inStep_look fun w v twin => by
    obtain ⟨mode, layers, rfl⟩ := twin.dressed
    rfl

theorem World.twin_plain (w : World) : w.Twin w.forced false w.plain := ⟨rfl, rfl, rfl⟩

/-! ### Calls -/

namespace Heap

open World (Twin)

variable {b b' : Bool} {α : Type}

theorem inStep_checkPoisoned : InStep (Twin b b') checkPoisoned checkPoisoned := by
  rintro ⟨⟨config, types, roots, collector, poisoned⟩, m⟩ v twin
  obtain ⟨mode, layers, rfl⟩ := twin.dressed
  cases poisoned with
  | none => exact .ok () twin
  | some e => exact .error _ twin

theorem inStep_access (act : Access α) : InStep (Twin b b') (access act) (access act) := by
  rintro ⟨heap, m⟩ v twin
  obtain ⟨mode, layers, rfl⟩ := twin.dressed
  unfold access World.dressed
  cases ran : act m <;> simp only [ran]
  case ok a m' => exact .ok a ⟨rfl, twin.left, twin.right⟩
  case error x m' => exact .error x ⟨rfl, twin.left, twin.right⟩

theorem inStep_register (d : Descriptor) : InStep (Twin b b') (register d) (register d) := by
  rintro ⟨heap, m⟩ v twin
  obtain ⟨mode, layers, rfl⟩ := twin.dressed
  unfold register World.dressed
  cases registered : heap.types.register d <;> simp only [registered]
  · exact .error _ ⟨rfl, twin.left, twin.right⟩
  · exact .ok _ ⟨rfl, twin.left, twin.right⟩

theorem inStep_changeRoots (f : RootStack → Except RootViolation RootStack) :
    InStep (Twin b b') (changeRoots f) (changeRoots f) := by
  rintro ⟨heap, m⟩ v twin
  obtain ⟨mode, layers, rfl⟩ := twin.dressed
  unfold changeRoots World.dressed
  cases changed : f heap.roots <;> simp only [changed]
  · exact (World.unseen_twin b b').violate _ ⟨heap, m⟩ _ twin
  · exact .ok () ⟨rfl, twin.left, twin.right⟩

theorem inStep_pushRoot : InStep (Twin b b') pushRoot pushRoot := by
  rintro ⟨heap, m⟩ v twin
  obtain ⟨mode, layers, rfl⟩ := twin.dressed
  exact .ok _ ⟨rfl, twin.left, twin.right⟩

theorem inStep_closeTypes : InStep (Twin b b') closeTypes closeTypes := by
  rintro ⟨heap, m⟩ v twin
  obtain ⟨mode, layers, rfl⟩ := twin.dressed
  exact .ok _ ⟨rfl, twin.left, twin.right⟩

theorem inStep_requireType (id : TypeId) : InStep (Twin b b') (requireType id) (requireType id) := by
  refine .get_bind fun w v twin => ?_
  have types : v.heap.types = w.heap.types := congrArg (·.heap.types) twin.same
  rw [types]
  cases w.heap.types.get id with
  | ok d => exact .ok d twin
  | error e => exact (World.unseen_twin b b').violate e w v twin

theorem inStep_refuse (size : Nat) : InStep (Twin b b') (refuse size : HeapM α) (refuse size) := by
  refine .get_bind fun w v twin => ?_
  have engine : v.heap.collector.engine = w.heap.collector.engine := congrArg (·.heap.collector.engine) twin.same
  simp only [strategy, availableBytes, engine]
  exact (World.unseen_twin b b').violate _ w v twin

theorem inStep_takeBlock (size : Nat) : InStep (Twin b b') (takeBlock size) (takeBlock size) := by
  rintro ⟨heap, m⟩ v twin
  obtain ⟨mode, layers, rfl⟩ := twin.dressed
  unfold takeBlock World.dressed Collector.allocate
  cases allocated : heap.collector.engine.allocate size <;> simp only [allocated, Option.map_none, Option.map_some]
  case none => exact .ok none twin
  case some pair =>
    exact .ok (some pair.1) ⟨rfl, (Layer.any_isStressing_recordAllocation size _).trans twin.left,
      (Layer.any_isStressing_recordAllocation size _).trans twin.right⟩

/-- The collector runs for the same requests if it is forced to in both worlds or in neither. -/
theorem inStep_obtainBlock (size : Nat) : InStep (Twin b b) (obtainBlock size) (obtainBlock size) := by
  have collected := (World.unseen_twin b b).runCollection
  have taken {rest : Option Nat → HeapM Nat} (found : ∀ block, InStep (Twin b b) (rest (some block)) (rest (some block)))
      (missed : InStep (Twin b b) (rest none) (rest none)) :
      InStep (Twin b b) (takeBlock size >>= rest) (takeBlock size >>= rest) := by
    refine .bind (inStep_takeBlock size) fun block => ?_
    cases block with
    | some block => exact found block
    | none => exact missed
  refine .get_bind fun w v twin => ?_
  have due : v.heap.collector.shouldCollect size = w.heap.collector.shouldCollect size := by
    have engine : v.heap.collector.engine = w.heap.collector.engine := congrArg (·.heap.collector.engine) twin.same
    have force : v.heap.collector.layers.any Layer.isStressing = w.heap.collector.layers.any Layer.isStressing :=
      twin.right.trans twin.left.symm
    simp only [Collector.shouldCollect, engine, force]
  rw [due]
  cases w.heap.collector.shouldCollect size with
  | true =>
    refine InStep.bind collected (fun _ => taken (fun block => .pure block) ?_) w v twin
    exact taken (fun block => .pure block) (inStep_refuse size)
  | false =>
    refine taken (fun block => .pure block) (.bind collected fun _ => ?_) w v twin
    exact taken (fun block => .pure block) (inStep_refuse size)

theorem inStep_allocate (id : TypeId) (extra : Nat) : InStep (Twin b b) (allocate id extra) (allocate id extra) := by
  unfold allocate
  refine .bind inStep_checkPoisoned fun _ => .bind (inStep_requireType id) fun d => .bind inStep_closeTypes fun _ => ?_
  have served (size : Nat) := InStep.bind (inStep_obtainBlock (b := b) (footprint size)) fun block =>
    .bind (inStep_access (do
      Access.clear block (footprint size)
      Access.storeHeader block (Header.fresh id size))) fun _ => .pure (payloadOf block)
  by_cases large : Word.saturate (d.fixedSize + extra) > largestPayload
  · simp only [large, if_true]
    exact .bind (inStep_refuse _) fun _ => served _
  · simp only [large, if_false]
    exact served _

theorem inStep_allocateArray (id : TypeId) (count : Nat) :
    InStep (Twin b b) (allocateArray id count) (allocateArray id count) := by
  unfold allocateArray
  refine .bind (inStep_requireType id) fun d => ?_
  cases d.region with
  | none => exact .throw _
  | some region => exact .bind (inStep_allocate id _) fun _ => .bind (inStep_access _) fun _ => .pure _

theorem inStep_collect : InStep (Twin b b') collect collect :=
  .bind inStep_checkPoisoned fun _ => (World.unseen_twin b b').runCollection

/-- A call answers the same in both worlds. -/
theorem inStep_call (c : Call α) : InStep (Twin b b) c.run c.run := by
  have looks {α : Type} (f : Heap → Memory → Reading α)
      (same : ∀ (w : World) mode layers, f (w.dressed mode layers).heap w.memory = f w.heap w.memory) :
      InStep (Twin b b) (look f) (look f) := by
    refine inStep_look fun w v twin => ?_
    obtain ⟨mode, layers, rfl⟩ := twin.dressed
    exact same w mode layers
  cases c with
  | register d => exact inStep_register d
  | allocate id extra => exact inStep_allocate id extra
  | allocateArray id count => exact inStep_allocateArray id count
  | collect => exact inStep_collect
  | pushRoot => exact inStep_pushRoot
  | popRoot handle => exact inStep_changeRoots fun roots => roots.pop handle
  | addRoot handle s => exact inStep_changeRoots fun roots => roots.add handle s
  | addGlobal s => exact inStep_changeRoots fun roots => .ok (roots.addGlobal s)
  | verify | census | typeOf | payloadSize | descriptor | contains | objectCount | liveBytes | availableBytes | poisoned
  | memory =>
    simp only [Call.run, verify, census, typeOf, payloadSize, descriptor]
    exact looks _ fun _ _ _ => rfl
  | write m =>
    intro w v twin
    obtain ⟨mode, layers, rfl⟩ := twin.dressed
    exact .ok () ⟨rfl, twin.left, twin.right⟩

theorem inStep_census : InStep (Twin b b') census census := by
  refine inStep_look fun w v twin => ?_
  obtain ⟨mode, layers, rfl⟩ := twin.dressed
  rfl

/-- The end of a heap, without a look at the counts. -/
def finishUncounted : HeapM ShutdownReport := do return (← finish).bare

theorem inStep_finishUncounted : InStep (Twin b b') finishUncounted finishUncounted := by
  unfold finishUncounted finish
  simp only [bind_assoc]
  refine .bind inStep_checkPoisoned fun _ => .get_bind fun w v twin => ?_
  have roots : v.heap.roots = w.heap.roots := congrArg (·.heap.roots) twin.same
  rw [roots]
  by_cases deep : w.heap.roots.depth ≠ 0
  · rw [if_pos deep]
    exact .error _ twin
  · rw [if_neg deep]
    simp only [bind_assoc]
    refine InStep.bind (World.unseen_twin b b').runCollection (fun report => ?_) w v twin
    refine .bind inStep_census fun surviving => .get_bind fun w v twin => ?_
    have lenient : v.heap.config.leakTolerant = w.heap.config.leakTolerant :=
      congrArg (·.heap.config.leakTolerant) twin.same
    have strategy : v.heap.strategy = w.heap.strategy := congrArg (·.heap.collector.engine.strategy) twin.same
    rw [lenient, strategy]
    -- Whether anything leaks cannot be told from the counts.
    split <;> split
    next => exact .error _ twin
    next leaks fine => exact absurd leaks fine
    next fine leaks => exact absurd leaks fine
    next => exact .ok _ twin

theorem ended_eq (w : World) :
    w.ended = let finished := finishUncounted w
      (answer finished, (after finished).heap.release (after finished).memory) := by
  unfold World.ended shutdown finishUncounted
  cases ran : finish w with
  | error x w' =>
    rw [run_bind_error ran]
    rfl
  | ok report w' =>
    rw [run_bind ran]
    rfl

/-- A shutdown comes to the same but for the counts, and leaves the same memory. -/
theorem ended_twin {w v : World} (twin : w.Twin b b' v) : v.ended = w.ended := by
  have outcome := inStep_finishUncounted w v twin
  have released : (after (finishUncounted v)).heap.release (after (finishUncounted v)).memory =
      (after (finishUncounted w)).heap.release (after (finishUncounted w)).memory := by
    obtain ⟨mode, layers, same⟩ := outcome.after.dressed
    rw [same]
    rfl
  simp only [ended_eq, outcome.answer_eq, released]

end Heap

/-! ### Counting -/

namespace World

variable {b : Bool} {w v : World}

theorem Twin.following (twin : w.Twin b b v) (calls : List (Σ α, Call α)) :
    Twin b b (w.following calls) (v.following calls) := by
  induction calls generalizing w v with
  | nil => exact twin
  | cons c rest ih => exact ih (Heap.inStep_call c.2 w v twin).after

theorem Twin.trace (twin : w.Twin b b v) (calls : List (Σ α, Call α)) :
    (v.trace calls).map (fun (outcome, u) => (outcome, u.plain)) =
      (w.trace calls).map fun (outcome, u) => (outcome, u.plain) := by
  induction calls generalizing w v with
  | nil => rfl
  | cons c rest ih =>
    have step := Heap.inStep_call c.2 w v twin
    simp only [World.trace, List.map_cons, step.answer_eq, step.after.plain, ih step.after]

/-- Whatever a program does, it is told the same in both worlds, and they pass through the same states. -/
structure Mirrors (w v : World) : Prop where
  trace : ∀ calls, (v.trace calls).map (fun (outcome, u) => (outcome, u.plain)) =
    (w.trace calls).map fun (outcome, u) => (outcome, u.plain)
  ended : ∀ calls, (v.following calls).ended = (w.following calls).ended

theorem Twin.mirrors (twin : w.Twin b b v) : w.Mirrors v :=
  ⟨twin.trace, fun calls => Heap.ended_twin (twin.following calls)⟩

/-- Layers that force collections go on to do so. -/
theorem forced_following (w : World) (calls : List (Σ α, Call α)) : (w.following calls).forced = w.forced :=
  ((Twin.refl w).following calls).left

end World

/-! ### Collecting first -/

theorem Engine.ready_of_allocate {e : Engine} {size : Nat} {found : Nat × Engine} (allocated : e.allocate size = some found) :
    e.shouldCollect size = false := by
  cases e with
  | markSweep c =>
    have room : c.free.canSatisfy size = true := by rw [← MarkSweep.isSome_allocate, allocated, Option.isSome_some]
    simp only [shouldCollect, room, Bool.not_true]
  | copying c =>
    obtain ⟨_, bumped, -⟩ := Option.map_eq_some_iff.1 (Option.map_eq_some_iff.1 allocated).choose_spec.1
    obtain ⟨room, -⟩ := Space.bump_eq_some bumped
    have enough : size ≤ c.availableBytes := Nat.le_sub_of_add_le' room
    exact decide_eq_false (Nat.not_lt.2 enough)
  | leaky c => rfl

namespace Heap

variable {w w' : World} {id : TypeId} {extra count obj : Nat}

theorem collect_plain {u : World} {report : CollectionReport} (ran : collect w = .ok report u) :
    collect w.plain = .ok report u.plain := by
  obtain ⟨v, ran', -⟩ := (inStep_collect w w.plain w.twin_plain).of_ok ran
  have healthy : w.heap.poisoned = none := healthy_of_ok ran
  rw [collect_eq healthy] at ran
  obtain ⟨e, m, collected, rfl⟩ := runCollection_eq_ok ran
  obtain ⟨e', m', collected', rfl⟩ := runCollection_eq_ok ((collect_eq (w := w.plain) healthy).symm.trans ran')
  cases collected.symm.trans collected'
  exact ran'

theorem access_twin {b b' : Bool} {v : World} {act : Access Unit} {α : Type} {a a' : α} (twin : w.Twin b b' v)
    (ran : (do access act; return a) w = .ok a' w') : ∃ v', (do access act; return a) v = .ok a' v' ∧ w'.Twin b b' v' :=
  (InStep.bind (inStep_access act) (fun _ => .pure a) w v twin).of_ok ran

/-- Where collections are forced, a block that is found has been found after a collection. -/
theorem obtainBlock_forced {size block : Nat} (forced : w.forced = true) (ran : obtainBlock size w.closed = .ok block w') :
    ∃ report u e, runCollection w = .ok report u ∧ u.heap.collector.engine.allocate size = some (block, e) ∧
      w' = handedOut u.closed e size := by
  have due : w.closed.heap.collector.shouldCollect size = true := Bool.or_eq_true_iff.2 (.inl forced)
  obtain ⟨e, allocated, same⟩ := obtainBlock_ok ran
  rw [if_pos (.inl due), after_runCollection_closed] at allocated same
  cases collected : runCollection w with
  | error x u =>
    obtain ⟨v, failed, -⟩ := (runCollection_closed w).of_error collected
    cases ran.symm.trans (obtainBlock_error (.inl due) failed)
  | ok report u =>
    rw [collected] at allocated same
    exact ⟨report, u, e, rfl, allocated, same⟩

/-- Without layers the engine alone decides whether to collect, and it does not if it has a block. -/
theorem obtainBlock_plain {u : World} {size block : Nat} {e : Engine}
    (allocated : u.heap.collector.engine.allocate size = some (block, e)) :
    obtainBlock size u.plain.closed = .ok block (handedOut u.plain.closed e size) := by
  have ready : ¬ Waits u.plain.closed size := by
    rintro (late | full)
    · exact Bool.false_ne_true ((Engine.ready_of_allocate allocated).symm.trans late)
    · cases full.symm.trans allocated
  obtain ⟨block', e', allocated', obtained⟩ := obtainBlock_now ready
  cases allocated.symm.trans allocated'
  exact obtained

/-- Where collections are forced, a request that is answered has collected, and has found what it needs afterwards. -/
theorem allocate_forced (forced : w.forced = true) (ran : allocate id extra w = .ok obj w') :
    ∃ report u v, collect w = .ok report u ∧ u.heap.types = w.heap.types ∧
      allocate id extra u.plain = .ok obj v ∧ v.plain = w'.plain := by
  obtain ⟨healthy, d, registered, small⟩ := allocate_eq_ok ran
  rw [allocate_eq healthy registered small] at ran
  cases obtained : obtainBlock (footprint (d.fixedSize + extra)) w.closed with
  | error x u => cases ran.symm.trans (run_bind_error obtained)
  | ok block w₁ =>
    rw [run_bind obtained] at ran
    obtain ⟨report, u, e, collected, allocated, rfl⟩ := obtainBlock_forced forced obtained
    obtain ⟨_, _, -, same⟩ := runCollection_eq_ok collected
    have types : u.heap.types = w.heap.types := by rw [same]; rfl
    have healthy' : u.plain.heap.poisoned = none := Eq.trans (by rw [same]; rfl) healthy
    have registered' : u.plain.heap.types.get? id = some d := types ▸ registered
    have twin : World.Twin u.forced false (handedOut u.closed e (footprint (d.fixedSize + extra)))
        (handedOut u.plain.closed e (footprint (d.fixedSize + extra))) :=
      ⟨rfl, Layer.any_isStressing_recordAllocation _ _, rfl⟩
    obtain ⟨v, ran', twin'⟩ := access_twin twin ran
    refine ⟨report, u, v, (collect_eq healthy).trans collected, types, ?_, twin'.plain⟩
    rw [allocate_eq healthy' registered' small, run_bind (obtainBlock_plain allocated)]
    exact ran'

theorem allocateArray_forced (forced : w.forced = true) (ran : allocateArray id count w = .ok obj w') :
    ∃ report u v, collect w = .ok report u ∧ allocateArray id count u.plain = .ok obj v ∧ v.plain = w'.plain := by
  unfold allocateArray at ran ⊢
  cases registered : w.heap.types.get? id with
  | none => cases ran.symm.trans (run_bind_error (requireType_none registered))
  | some d =>
    rw [run_bind (requireType_ok registered)] at ran
    cases region : d.region with
    | none => simp only [region] at ran; cases ran
    | some r =>
      simp only [region] at ran
      cases served : allocate id (Word.saturate (count * r.elementSize)) w with
      | error x w₁ => cases ran.symm.trans (run_bind_error served)
      | ok obj₁ w₁ =>
        rw [run_bind served] at ran
        obtain ⟨report, u, v₁, collected, types, served', same⟩ := allocate_forced forced served
        obtain ⟨v, ran', twin⟩ := access_twin (.of_plain same) ran
        refine ⟨report, u, v, collected, ?_, twin.plain⟩
        rw [run_bind (requireType_ok (w := u.plain) (types ▸ registered))]
        simp only [region]
        rw [run_bind served']
        exact ran'

end Heap

-- A heap in the normal mode finds it has enough room after a collection, and does not collect again.
/-- A request that is answered here is answered in the normal mode after a collection, with the same outcome. -/
structure World.CollectsFirst (w : World) : Prop where
  allocate : ∀ {id extra obj w'}, Heap.allocate id extra w = .ok obj w' → ∃ report u v,
    Heap.collect w.plain = .ok report u ∧ Heap.allocate id extra u = .ok obj v ∧ v.plain = w'.plain
  allocateArray : ∀ {id count obj w'}, Heap.allocateArray id count w = .ok obj w' → ∃ report u v,
    Heap.collect w.plain = .ok report u ∧ Heap.allocateArray id count u = .ok obj v ∧ v.plain = w'.plain

namespace Heap

open World (Twin)

/-- The mode decides on the layers of a new heap and on nothing else. -/
theorem create_plain (config : Config) (mode : Mode) (m : Memory) :
    (create { config with mode := .normal } m).map (fun (h, m') => World.mk h m') =
      (create { config with mode } m).map fun (h, m') => (World.mk h m').plain := by
  have accepted (mode : Mode) : { config with mode }.check = config.check := rfl
  unfold create Collector.create
  simp only [accepted]
  cases config.check with
  | error e => rfl
  | ok _ => cases Engine.create config.strategy m config.heapSize <;> rfl

theorem forced_create {config : Config} {m m' : Memory} {h : Heap} (created : create config m = .ok (h, m')) :
    World.forced ⟨h, m'⟩ = (Layer.ofMode config.mode).any Layer.isStressing := by
  obtain ⟨-, engine, -, rfl⟩ := create_eq_ok created
  rfl

-- The layers of a heap that only counts never stop to be such. They see what happens, but the engine does not see them.
/-- To a program, a heap that keeps counts is one that keeps none. In stress mode, every request that is answered
is answered as after a collection. -/
theorem layers_only_observe (config : Config) (m : Memory) :
    (create { config with mode := .normal } m).map (fun (h, m') => World.mk h m') =
        (create { config with mode := .statistics } m).map (fun (h, m') => (World.mk h m').plain) ∧
      (∀ h m', create { config with mode := .statistics } m = .ok (h, m') →
        (World.mk h m').Mirrors (World.mk h m').plain) ∧
      ∀ h m', create { config with mode := .stress } m = .ok (h, m') →
        ∀ calls, ((World.mk h m').following calls).CollectsFirst := by
  refine ⟨create_plain config .statistics m, fun h m' created => ?_, fun h m' created calls => ?_⟩
  · have twin := World.twin_plain ⟨h, m'⟩
    rw [forced_create created] at twin
    exact twin.mirrors
  · have forced : ((World.mk h m').following calls).forced = true :=
      (World.forced_following _ calls).trans (forced_create created)
    constructor
    · intro id extra obj w' ran
      obtain ⟨report, u, v, ran₁, -, ran₂, same⟩ := allocate_forced forced ran
      exact ⟨report, _, v, collect_plain ran₁, ran₂, same⟩
    · intro id count obj w' ran
      obtain ⟨report, u, v, ran₁, ran₂, same⟩ := allocateArray_forced forced ran
      exact ⟨report, _, v, collect_plain ran₁, ran₂, same⟩

/-- In stress mode the second of two objects that nothing leads to takes the place of the first, as it does after a
collection. -/
theorem layers_only_observe_garbage :
    (∃ w, World.start { mode := .statistics, heapSize := 4096 } 0 = some w ∧ w.Mirrors w.plain) ∧
      ∃ w w' report u v, (World.start { mode := .stress, heapSize := 4096 } 0).map (fun w =>
          w.following [⟨_, .register .link⟩, ⟨_, .allocate ⟨1⟩ 0⟩]) = some w ∧
        allocate ⟨1⟩ 0 w = .ok (Memory.origin + 24) w' ∧ collect w.plain = .ok report u ∧ report.objectsReclaimed = 1 ∧
        allocate ⟨1⟩ 0 u = .ok (Memory.origin + 24) v ∧ v.plain = w'.plain := by
  have counted : (World.start { mode := .statistics, heapSize := 4096 } 0).isSome = true := by decide +kernel
  have stressed : ((World.start { mode := .stress, heapSize := 4096 } 0).any fun w =>
      let w := w.following [⟨_, .register .link⟩, ⟨_, .allocate ⟨1⟩ 0⟩]
      match allocate ⟨1⟩ 0 w, collect w.plain with
        | .ok obj _, .ok report _ => obj = Memory.origin + 24 ∧ report.objectsReclaimed = 1
        | _, _ => false) = true := by
    decide +kernel
  constructor
  · obtain ⟨w, started⟩ := Option.isSome_iff_exists.1 counted
    obtain ⟨created, -⟩ := World.start_eq_some started
    exact ⟨w, started, (layers_only_observe { heapSize := 4096 } _).2.1 w.heap w.memory created⟩
  · obtain ⟨first, started, shown⟩ := (Option.any_eq_true _ _).1 stressed
    obtain ⟨created, -⟩ := World.start_eq_some started
    have collects := (layers_only_observe { heapSize := 4096 } _).2.2 first.heap first.memory created
      [⟨_, .register .link⟩, ⟨_, .allocate ⟨1⟩ 0⟩]
    generalize arrived : World.following first [⟨_, .register .link⟩, ⟨_, .allocate ⟨1⟩ 0⟩] = w at shown collects
    cases served : allocate ⟨1⟩ 0 w with
    | error x w' => simp only [served] at shown; cases shown
    | ok obj w' =>
      obtain ⟨report, u, v, collected, served', same⟩ := collects.allocate served
      simp only [served, collected] at shown
      obtain ⟨rfl, reclaimed⟩ := of_decide_eq_true shown
      refine ⟨w, w', report, u, v, ?_, served, collected, reclaimed, served', same⟩
      rw [started]
      exact congrArg some arrived

end Heap

end TracingHeap
