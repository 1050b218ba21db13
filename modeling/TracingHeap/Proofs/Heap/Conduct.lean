import TracingHeap.Proofs.Audit.Census
import TracingHeap.Proofs.Heap.Requests
import TracingHeap.Proofs.Heap.Scripts

/-! Programs that keep to the rules.

A program registers its types before the first allocation, writes into the payloads of held objects only, and
stores nothing but references where the collectors look for them. Besides, it leaves no stale word where a slot
is registered or a count is raised. Then the heap stays sound until a request is refused for want of room. -/

set_option autoImplicit false

namespace TracingHeap

namespace World

/-- What a program keeps to: types come before objects, handles are live and popped in order, roots are cells,
and what is written to a root or to a traced word is a reference. No count exceeds the capacity, or the slots
could not be listed. -/
def Proper (w : World) : Action → Prop
  | .call (.register _ _) => w.heap.types.closed = false
  | .call (.allocate id _) => ∃ d, w.heap.types.get? id = some d
  | .call (.allocateArray id _) => ∃ d, w.heap.types.get? id = some d
  | .call .collect => True
  | .call .pushRoot => True
  | .call (.popRoot handle) => ∃ roots, w.heap.roots.pop handle = .ok roots
  | .call (.addRoot handle s) => w.heap.roots.isLive handle = true ∧ ∃ i, s = .cell i ∧ i < w.memory.cells.size
  | .call (.addGlobal s) => ∃ i, s = .cell i ∧ i < w.memory.cells.size
  | .write p a bytes => w.Held p ∧ p ≤ a ∧ a + bytes.size ≤ p + w.memory.payloadSize p ∧
      ∃ slots, w.heap.types.tracedSlots (w.memory.store a bytes) p = .ok slots ∧
        ∀ s ∈ slots, s < a + bytes.size → a < s + wordSize → w.IsReference ((w.memory.store a bytes).word s)
  | .setCell i v => i < w.memory.cells.size ∧ (.cell i ∈ w.heap.roots.slots → w.IsReference v)

-- The elements behind a count are not traced, so what they lead to may be freed while they keep the address.
/-- What it has to keep to besides: a slot holds a reference when it is registered, and so does every word that
a new count exposes. A heap that moves its objects is not asked for an empty one. -/
def Careful (w : World) : Action → Prop
  | .call (.allocate id extra) => w.heap.collector.engine.strategy = .copying →
      ∀ d, w.heap.types.get? id = some d → 0 < d.fixedSize + extra
  | .call (.allocateArray id count) => w.heap.collector.engine.strategy = .copying →
      ∀ d, w.heap.types.get? id = some d → ∀ r, d.region = some r → 0 < d.fixedSize + count * r.elementSize
  | .call (.addRoot _ s) => w.IsReference (w.memory.slot s)
  | .call (.addGlobal s) => w.IsReference (w.memory.slot s)
  | .write p a bytes => ∀ old, w.heap.types.tracedSlots w.memory p = .ok old →
      ∀ new, w.heap.types.tracedSlots (w.memory.store a bytes) p = .ok new → ∀ s ∈ new, s ∉ old →
        w.IsReference ((w.memory.store a bytes).word s)
  | _ => True

/-- What a careful program does. -/
def Allows (w : World) (a : Action) : Prop := w.Proper a ∧ w.Careful a

section

variable (w : World) (a : Action)

instance (p : Nat) : Decidable (w.Held p) := inferInstanceAs (Decidable (w.heap.collector.engine.Held p))

instance : Decidable (w.Proper a) :=
  match a with
  | .call (.register _ _) => inferInstanceAs (Decidable (_ = _))
  | .call (.allocate id _) => decidable_of_iff ((w.heap.types.get? id).isSome = true) Option.isSome_iff_exists
  | .call (.allocateArray id _) => decidable_of_iff ((w.heap.types.get? id).isSome = true) Option.isSome_iff_exists
  | .call .collect => isTrue trivial
  | .call .pushRoot => isTrue trivial
  | .call (.popRoot handle) => decidable_of_iff ((w.heap.roots.pop handle).isOk = true) (by
      show _ ↔ ∃ roots, w.heap.roots.pop handle = .ok roots
      cases w.heap.roots.pop handle <;> simp [Except.isOk, Except.toBool])
  | .call (.addRoot handle s) => decidable_of_iff (w.heap.roots.isLive handle = true ∧ w.memory.isCell s = true)
      (and_congr_right fun _ => Memory.isCell_iff)
  | .call (.addGlobal s) => decidable_of_iff (w.memory.isCell s = true) Memory.isCell_iff
  | .write _ _ _ => inferInstanceAs (Decidable (_ ∧ _ ∧ _ ∧ ∃ slots, _ = _ ∧ ∀ s ∈ slots, _ → _ → _))
  | .setCell _ _ => inferInstanceAs (Decidable (_ ∧ (_ → _)))

instance : Decidable (w.Careful a) :=
  match a with
  | .call (.allocate _ _) => inferInstanceAs (Decidable (_ → ∀ d, _ = some d → _))
  | .call (.allocateArray _ _) => inferInstanceAs (Decidable (_ → ∀ d, _ = some d → ∀ r, _ = some r → _))
  | .call (.addRoot _ _) | .call (.addGlobal _) => inferInstanceAs (Decidable (w.IsReference _))
  | .write p a bytes => inferInstanceAs (Decidable (∀ old, w.heap.types.tracedSlots w.memory p = .ok old →
      ∀ new, w.heap.types.tracedSlots (w.memory.store a bytes) p = .ok new → ∀ s ∈ new, s ∉ old → _))
  | .call (.register _ _) | .call .collect | .call .pushRoot | .call (.popRoot _) | .setCell _ _ => isTrue trivial

instance : Decidable (w.Allows a) := inferInstanceAs (Decidable (_ ∧ _))

end

end World

-- A call that fails for another reason does not end the run: registering a type that does not pass the check, or
-- asking for an array of a type without a region, leaves the heap as it was.
/-- The states of a heap whose program keeps to a rule, before the first request that is refused for want of
room. -/
inductive Behaved (rule : World → Action → Prop) : World → Prop where
  | create {config : Config} {m m' : Memory} {h : Heap} : Heap.create config m = .ok (h, m') → m'.Regular →
      Behaved rule ⟨h, m'⟩
  | done {w w' : World} {a : Action} : Behaved rule w → rule w a → a.run w = .ok () w' → Behaved rule w'
  | failed {w w' : World} {a : Action} {e : HeapError} : Behaved rule w → rule w a →
      a.run w = .error (.violation e) w' → (∀ strategy requested free, e ≠ .outOfMemory strategy requested free) →
      Behaved rule w'

/-- A program that was followed has kept to its rule. -/
theorem Behaved.of_play {rule : World → Action → Prop} [∀ w a, Decidable (rule w a)] {config : Config} {cells : Nat}
    {actions : List Action} {w : World} (ran : World.play rule config cells actions = some w) : Behaved rule w := by
  obtain ⟨first, started, ran⟩ := Option.bind_eq_some_iff.1 ran
  obtain ⟨created, regular⟩ := World.start_eq_some started
  refine World.follow_induction (fun w a w' behaved allowed outcome => ?_) (.create created regular) ran
  exact .done behaved (of_decide_eq_true allowed) outcome

/-- What a call does to the root stack, if that is all that it does. -/
def Operation.reroots : Operation → Option (RootStack → Except RootViolation RootStack)
  | pushRoot => some fun roots => .ok roots.push.2
  | popRoot handle => some fun roots => roots.pop handle
  | addRoot handle s => some fun roots => roots.add handle s
  | addGlobal s => some fun roots => .ok (roots.addGlobal s)
  | register .. | allocate .. | allocateArray .. | collect => none

/-- Each slot that a careful program adds to the root stack is a cell that holds a reference. -/
theorem World.Allows.reroots {w : World} {op : Operation} {change : RootStack → Except RootViolation RootStack}
    (allowed : w.Allows (.call op)) (rooting : op.reroots = some change) :
    op.run w = Heap.changeRoots change w ∧ ∃ roots, change w.heap.roots = .ok roots ∧
      ∀ s ∈ roots.slots, s ∈ w.heap.roots.slots ∨
        (∃ i, s = .cell i ∧ i < w.memory.cells.size) ∧ w.IsReference (w.memory.slot s) := by
  obtain ⟨proper, careful⟩ := allowed
  cases op with
  | pushRoot =>
    cases rooting
    exact ⟨rfl, _, rfl, fun s root => .inl (RootStack.mem_slots_push.1 root)⟩
  | popRoot handle =>
    cases rooting
    obtain ⟨roots, popped⟩ := proper
    exact ⟨rfl, roots, popped, fun s root => .inl (RootStack.mem_slots_pop popped root)⟩
  | addRoot handle s =>
    cases rooting
    obtain ⟨live, i, cell, below⟩ := proper
    have added : ∃ roots, w.heap.roots.add handle s = .ok roots := ⟨_, if_pos live⟩
    obtain ⟨roots, added⟩ := added
    refine ⟨rfl, roots, added, fun t root => ?_⟩
    rcases RootStack.mem_slots_add added root with rfl | old
    · exact .inr ⟨⟨i, cell, below⟩, careful⟩
    · exact .inl old
  | addGlobal s =>
    cases rooting
    obtain ⟨i, cell, below⟩ := proper
    refine ⟨rfl, _, rfl, fun t root => ?_⟩
    rcases RootStack.mem_slots_addGlobal root with rfl | old
    · exact .inr ⟨⟨i, cell, below⟩, careful⟩
    · exact .inl old
  | register d words => cases rooting
  | allocate id extra => cases rooting
  | allocateArray id count => cases rooting
  | collect => cases rooting

namespace Heap

open World

theorem sound_create {config : Config} {m m' : Memory} {h : Heap} (created : create config m = .ok (h, m'))
    (regular : m'.Regular) : Sound ⟨h, m'⟩ := by
  have books := books_create created regular
  obtain ⟨accepted, engine, started, rfl⟩ := create_eq_ok created
  obtain ⟨-, fits, none⟩ := Engine.ledger_create (Config.pos_of_check accepted) (Engine.created started)
  refine ⟨rfl, books, .of_intact (fun p holds => absurd holds (none p)) fits fun s root => ?_, fun _ p holds =>
    absurd holds (none p)⟩
  simp [RootStack.slots] at root

variable {w : World}

/-- What an operation of a careful program comes to. -/
inductive Settled (w : World) : EStateM.Result Failure World Unit → Prop where
  | done {w' : World} : w'.Sound → w.Spares w' → Settled w (.ok () w')
  /-- A type is refused, or has no region for an array; nothing has changed. -/
  | failed {e : HeapError} : Settled w (.error (.violation e) w)
  | refused {ran : EStateM.Result Failure World Unit} : Refused w ran → Settled w ran

theorem spares_heap (w : World) (h : Heap) : w.Spares { w with heap := h } := ⟨fun _ _ => rfl, fun _ _ => rfl⟩

theorem register_ok {d : Descriptor} {id : TypeId} {types : TypeTable}
    (registered : w.heap.types.register d = .ok (id, types)) :
    register d w = .ok id { w with heap := { w.heap with types } } := by
  simp only [register, registered]

theorem register_error {d : Descriptor} {e : HeapError} (refused : w.heap.types.register d = .error e) :
    register d w = .error (.violation e) w := by
  simp only [register, refused]

theorem settled_register (sound : w.Sound) (d : Descriptor) (words : d.IsWords) :
    Settled w ((Operation.register d words).run w) := by
  cases registered : w.heap.types.register d with
  | error e =>
    rw [Operation.run, run_bind_error (register_error registered)]
    exact .failed
  | ok pair =>
    obtain ⟨id, types⟩ := pair
    rw [Operation.run, run_bind (register_ok registered)]
    refine .done ?_ (spares_heap w _)
    exact sound.replace (sound.books.types.register words registered)
      (fun _ _ found => TypeTable.get?_register registered found) fun _ root => .inl root

theorem settled_collect (sound : w.Sound) : Settled w (Operation.collect.run w) := by
  obtain ⟨report, w', f, collected, survives⟩ := collect_spec sound
  rw [Operation.run, run_bind collected]
  exact .done survives.sound survives.spares

theorem settled_allocate (sound : w.Sound) {id : TypeId} {extra : Nat} {d : Descriptor}
    (registered : w.heap.types.get? id = some d)
    (full : w.heap.collector.engine.strategy = .copying → 0 < d.fixedSize + extra) :
    Settled w ((Operation.allocate id extra).run w) := by
  rcases allocate_spec sound registered extra with refused | ⟨w₁, f, p, w', survives, -, admits, ran⟩
  · exact .refused (refused_bind refused)
  · rw [Operation.run, run_bind ran]
    have spares := admits.spares survives
    exact .done (admits.sound survives.sound fun moves => full (survives.strategy.symm.trans moves))
      ⟨spares.byte, spares.cell⟩

theorem settled_allocateArray (sound : w.Sound) {id : TypeId} {count : Nat} {d : Descriptor}
    (registered : w.heap.types.get? id = some d)
    (full : w.heap.collector.engine.strategy = .copying → ∀ r, d.region = some r →
      0 < d.fixedSize + count * r.elementSize) :
    Settled w ((Operation.allocateArray id count).run w) := by
  cases region : d.region with
  | none =>
    have ran : allocateArray id count w = .error (.violation (.invalidDescriptor d.name .noRegion)) w := by
      unfold allocateArray
      rw [run_bind (requireType_ok registered)]
      simp only [region]
      rfl
    rw [Operation.run, run_bind_error ran]
    exact .failed
  | some r =>
    rcases allocateArray_spec sound registered region count with refused | ⟨w₁, f, p, w', survives, -, admits, ran⟩
    · exact .refused (refused_bind refused)
    · rw [Operation.run, run_bind ran]
      have spares := admits.spares survives
      exact .done (admits.sound survives.sound fun moves => full (survives.strategy.symm.trans moves) r region)
        ⟨spares.byte, spares.cell⟩

theorem changeRoots_ok {change : RootStack → Except RootViolation RootStack} {roots : RootStack}
    (changed : change w.heap.roots = .ok roots) :
    changeRoots change w = .ok () { w with heap := { w.heap with roots } } := by
  simp only [changeRoots, changed]

theorem changeRoots_error {change : RootStack → Except RootViolation RootStack} {v : RootViolation}
    (refused : change w.heap.roots = .error v) : changeRoots change w = violate (.rootDiscipline v) w := by
  simp only [changeRoots, refused]

/-- The roots may change as long as each new one is a cell that holds a reference. -/
theorem settled_changeRoots (sound : w.Sound) (change : RootStack → Except RootViolation RootStack) {roots : RootStack}
    (changed : change w.heap.roots = .ok roots)
    (fine : ∀ s ∈ roots.slots, s ∈ w.heap.roots.slots ∨
      (∃ i, s = .cell i ∧ i < w.memory.cells.size) ∧ w.IsReference (w.memory.slot s)) :
    Settled w (changeRoots change w) := by
  rw [changeRoots_ok changed]
  exact .done (sound.replace sound.books.types (fun _ _ found => found) fine) (spares_heap w _)

theorem settled_run (sound : w.Sound) (op : Operation) (proper : w.Proper (.call op)) (careful : w.Careful (.call op)) :
    Settled w (op.run w) := by
  cases op with
  | register d words => exact settled_register sound d words
  | allocate id extra =>
    obtain ⟨d, registered⟩ := proper
    exact settled_allocate sound registered fun moves => careful moves d registered
  | allocateArray id count =>
    obtain ⟨d, registered⟩ := proper
    exact settled_allocateArray sound registered fun moves => careful moves d registered
  | collect => exact settled_collect sound
  | pushRoot | popRoot handle | addRoot handle s | addGlobal s =>
    obtain ⟨ran, roots, changed, fine⟩ := World.Allows.reroots ⟨proper, careful⟩ rfl
    rw [ran]
    exact settled_changeRoots sound _ changed fine

theorem holds_write {held : Nat → Prop} {p a : Nat} {bytes : ByteArray}
    (consistent : Consistent w.heap.types w.heap.roots.slots held w.memory) (holds : held p) (first : p ≤ a)
    (last : a + bytes.size ≤ p + w.memory.payloadSize p) : w.memory.holds a bytes.size = true := by
  have low := consistent.low holds
  exact Memory.holds_of_range consistent.regular (consistent.inside holds) (by unfold blockOf; omega)
    (by unfold blockOf; omega)

/-- A write that keeps to the rules. -/
theorem write_ok (sound : w.Sound) {p a : Nat} {bytes : ByteArray} (proper : w.Proper (.write p a bytes))
    (careful : w.Careful (.write p a bytes)) : ∃ w', (Action.write p a bytes).run w = .ok () w' ∧ w'.Sound := by
  obtain ⟨holds, first, last, new, listed, written⟩ := proper
  have consistent := sound.consistent
  have regular := sound.books.regular
  have low := consistent.low holds
  have inside := holds_write consistent holds first last
  have shape := Memory.sameShape_store w.memory a bytes
  obtain ⟨d, count, o, found⟩ := consistent.tracedSlots_eq holds
  have outside (b : Nat) (out : b < a ∨ a + bytes.size ≤ b) : (w.memory.store a bytes).byte b = w.memory.byte b := by
    rw [Memory.byte_store regular inside, if_neg (by omega)]
  -- A word that was traced before and is not written to is what it was; one that was not has been cared for.
  have references (s : Nat) (member : s ∈ new) : w.IsReference ((w.memory.store a bytes).word s) := by
    by_cases meets : s < a + bytes.size ∧ a < s + wordSize
    · exact written s member meets.1 meets.2
    · by_cases old : s ∈ (d.places count).map (blockOf p + ·)
      · obtain ⟨k, place, rfl⟩ := List.mem_map.1 old
        have readable := o.holds_place regular place
        have same : (w.memory.store a bytes).word (blockOf p + k) = w.memory.word (blockOf p + k) :=
          Memory.word_stay regular shape readable fun i lt => outside _ (by omega)
        rw [same]
        exact consistent.words p holds _ found _ old
      · exact careful _ found new listed s member old
  have formed := sound.formed.write sound.books holds shape (Memory.cells_modifyArena ..)
    (fun b out => outside b (by unfold blockOf headerSize at *; omega)) listed references
  have stored : Access.store a bytes w.memory = .ok () (w.memory.store a bytes) := Access.guarded_ok inside
  exact ⟨{ w with memory := w.memory.store a bytes }, access_ok stored, sound.setMemory shape formed.1 formed.2⟩

theorem setCell_ok (sound : w.Sound) {i v : Nat} (proper : w.Proper (.setCell i v)) :
    ∃ w', (Action.setCell i v).run w = .ok () w' ∧ w'.Sound := by
  obtain ⟨below, reference⟩ := proper
  have holds : w.memory.holdsSlot (.cell i) = true := by simpa [Memory.holdsSlot] using below
  have stored : Access.storeSlot (.cell i) v w.memory = .ok () (w.memory.setSlot (.cell i) v) := Access.storeSlot_ok holds
  exact ⟨{ w with memory := w.memory.setSlot (.cell i) v }, access_ok stored, sound.setCell reference⟩

end Heap

-- Soundness is an invariant with nothing added to it, so the run lemma is this step along `Behaved`.
/-- Each step of a careful program leaves the heap sound. -/
theorem World.Sound.step {w w' : World} (sound : w.Sound) {a : Action} (proper : w.Proper a) (careful : w.Careful a)
    (ran : a.run w = .ok () w' ∨ ∃ e, a.run w = .error (.violation e) w' ∧
      ∀ strategy requested free, e ≠ .outOfMemory strategy requested free) : w'.Sound := by
  cases a with
  | call op =>
    have settled := Heap.settled_run sound op proper careful
    change op.run w = _ ∨ ∃ e, op.run w = _ ∧ _ at ran
    rcases ran with done | ⟨e, failed, other⟩
    · rw [done] at settled
      cases settled with
      | done sound' => exact sound'
      | refused refused => obtain ⟨_, _, _, _, same, -⟩ := refused; cases same
    · rw [failed] at settled
      cases settled with
      | failed => exact sound
      | refused refused =>
        obtain ⟨strategy, requested, free, _, same, -⟩ := refused
        cases same
        exact absurd rfl (other strategy requested free)
  | write p a bytes =>
    obtain ⟨w₁, done, sound'⟩ := Heap.write_ok sound proper careful
    rw [done] at ran
    rcases ran with same | ⟨e, same, -⟩
    · cases same; exact sound'
    · cases same
  | setCell i v =>
    obtain ⟨w₁, done, sound'⟩ := Heap.setCell_ok sound proper
    rw [done] at ran
    rcases ran with same | ⟨e, same, -⟩
    · cases same; exact sound'
    · cases same

theorem Behaved.sound {w : World} (behaved : Behaved World.Allows w) : w.Sound := by
  induction behaved with
  | create created regular => exact Heap.sound_create created regular
  | done _ allowed ran ih => exact ih.step allowed.1 allowed.2 (.inl ran)
  | failed _ allowed ran other ih => exact ih.step allowed.1 allowed.2 (.inr ⟨_, ran, other⟩)

/-- Until a request is refused for want of room, a careful program finds its heap in order: every check passes,
every collection succeeds, every request for a registered type is served or refused for want of room, and no
operation leaves the arenas and the registered slots. -/
theorem Behaved.safe {w : World} (behaved : Behaved World.Allows w) :
    w.heap.poisoned = none ∧ (∃ report, Heap.verify w = .ok report w) ∧ (∃ count, Heap.census w = .ok count w) ∧
      (∃ report w', Heap.collect w = .ok report w') ∧
      (∀ id d extra, w.heap.types.get? id = some d →
        (∃ p w', Heap.allocate id extra w = .ok p w') ∨ Heap.Refused w (Heap.allocate id extra w)) ∧
      ∀ op, w.Allows (.call op) → (∀ f w', op.run w ≠ .error (.fault f) w') ∧ w.Spares (after (op.run w)) := by
  have sound := behaved.sound
  have consistent := sound.consistent
  refine ⟨sound.healthy, ⟨_, Heap.verify_ok sound.books sound.formed⟩, ?_, ?_, fun id d extra registered => ?_,
    fun op allowed => ?_⟩
  · obtain ⟨reached, -, -, counted⟩ := consistent.census_ok
    refine ⟨Census.of w.memory reached, ?_⟩
    simp only [Heap.census, Heap.look, counted]
  · obtain ⟨report, w', f, collected, -⟩ := Heap.collect_spec sound
    exact ⟨report, w', collected⟩
  · rcases Heap.allocate_spec sound registered extra with refused | ⟨w₁, f, p, w', -, -, -, ran⟩
    · exact .inr refused
    · exact .inl ⟨p, w', ran⟩
  · have settled := Heap.settled_run sound op allowed.1 allowed.2
    generalize op.run w = ran at settled
    constructor
    · intro f w' same
      subst same
      cases settled with
      | refused refused =>
        obtain ⟨strategy, requested, free, w', same, -⟩ := refused
        cases same
    · cases settled with
      | done sound' spares => exact spares
      | failed => exact ⟨fun _ _ => rfl, fun _ _ => rfl⟩
      | refused refused =>
        obtain ⟨strategy, requested, free, w', rfl, spares⟩ := refused
        exact spares

/-- An array whose element is a reference to itself. -/
theorem Behaved.safe_of_loop : ∃ w, Behaved World.Allows w ∧ w.heap.collector.engine.list = [Memory.origin + 24] ∧
    w.memory.word (Memory.origin + 32) = Memory.origin + 24 ∧ w.heap.poisoned = none ∧
    (∃ report, Heap.verify w = .ok report w) ∧ ∃ report w', Heap.collect w = .ok report w' := by
  have ran : ((World.play World.Allows { heapSize := 4096, mode := .stress } 1
      [.call (.register .references Descriptor.references_isWords), .call .pushRoot, .call (.addRoot ⟨0, 0⟩ (.cell 0)),
        .call (.allocateArray ⟨1⟩ 1), .setCell 0 (Memory.origin + 24),
        .writeWord (Memory.origin + 24) 8 (Memory.origin + 24)]).any fun w =>
      w.heap.collector.engine.list = [Memory.origin + 24] &&
        w.memory.word (Memory.origin + 32) = Memory.origin + 24) = true := by
    decide +kernel
  obtain ⟨w, played, shown⟩ := (Option.any_eq_true _ _).1 ran
  rw [Bool.and_eq_true] at shown
  have behaved := Behaved.of_play played
  obtain ⟨healthy, verified, -, collected, -⟩ := behaved.safe
  exact ⟨w, behaved, of_decide_eq_true shown.1, of_decide_eq_true shown.2, healthy, verified, collected⟩

/-- Care is needed. The element behind a count that is lowered leads to an object that the collection frees, and
raising the count exposes it again; every word was a reference when it was written. -/
theorem Behaved.recount_exposes_stale : ∃ w, Behaved World.Proper w ∧ ¬ ∃ report, Heap.verify w = .ok report w := by
  have ran : ((World.play World.Proper { heapSize := 4096 } 1
      [.call (.register .references Descriptor.references_isWords), .call .pushRoot, .call (.addRoot ⟨0, 0⟩ (.cell 0)),
        .call (.allocateArray ⟨1⟩ 1), .setCell 0 (Memory.origin + 24), .call (.allocateArray ⟨1⟩ 0),
        .writeWord (Memory.origin + 24) 8 (Memory.origin + 64), .writeWord (Memory.origin + 24) 0 0, .call .collect,
        .writeWord (Memory.origin + 24) 0 1]).any fun w => Fails (Heap.verify w)) = true := by
    decide +kernel
  obtain ⟨w, played, failed⟩ := (Option.any_eq_true _ _).1 ran
  refine ⟨w, .of_play played, fun ⟨report, verified⟩ => ?_⟩
  rw [verified] at failed
  exact not_fails_ok _ _ (of_decide_eq_true failed)

end TracingHeap
