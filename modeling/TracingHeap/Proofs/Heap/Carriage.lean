import TracingHeap.Proofs.Heap.Tending
import TracingHeap.Proofs.Heap.Usable

/-! What becomes of the objects in one action of a program.

If a call lets the collector run, what can be reached is carried to its new places, whether the call is served or
refused. In any other action the objects stay where they are. -/

set_option autoImplicit false

namespace TracingHeap

namespace World

/-- What can be reached in the roots and types of a heap. -/
abbrev Reaches (w : World) (p : Nat) : Prop := Reach w.heap.types w.heap.roots.slots w.memory p

/-- What can be reached in one world is in order in the other. -/
structure Carries (w w' : World) (f : Nat → Nat) : Prop where
  usable : w'.Usable
  types : ∀ id, w'.heap.types.get? id = w.heap.types.get? id
  slots : w'.heap.roots.slots = w.heap.roots.slots
  relocation : Relocation w.heap.types w.heap.roots.slots w.memory w'.memory f
  held : ∀ p, w.Reaches p → w'.Held (f p)

variable {w w' w'' : World} {f g : Nat → Nat}

/-- A world from which nothing has been carried anywhere. -/
theorem Usable.carries (usable : w.Usable) : w.Carries w id where
  usable := usable
  types := fun _ => rfl
  slots := rfl
  relocation := .of_same usable.consistent (.refl _) rfl fun _ _ _ _ => rfl
  held := fun _ reach => usable.consistent.held_of_reach reach

namespace Carries

theorem low (carries : w.Carries w' f) (p : Nat) (reach : w.Reaches p) : headerSize ≤ f p :=
  carries.usable.consistent.low (carries.held p reach)

/-- What can be reached afterwards are the new places of what could be reached. -/
theorem reaches_iff (carries : w.Carries w' f) (usable : w.Usable) {q : Nat} :
    w'.Reaches q ↔ ∃ p, w.Reaches p ∧ f p = q := by
  have value (p : Nat) (reach : w.Reaches p) : f p ≠ 0 :=
    Nat.ne_of_gt (Nat.lt_of_lt_of_le (by decide) (carries.low p reach))
  rw [← carries.relocation.reach_iff usable.consistent value, ← carries.slots]
  exact ⟨fun reach => reach.congr_types fun id => (carries.types id).symm, fun reach => reach.congr_types carries.types⟩

theorem reaches (carries : w.Carries w' f) (usable : w.Usable) {p : Nat} (reach : w.Reaches p) : w'.Reaches (f p) :=
  (carries.reaches_iff usable).2 ⟨p, reach, rfl⟩

theorem trans (first : w.Carries w' f) (second : w'.Carries w'' g) (usable : w.Usable) : w.Carries w'' (g ∘ f) where
  usable := second.usable
  types := fun id => (second.types id).trans (first.types id)
  slots := second.slots.trans first.slots
  relocation := by
    have next := second.relocation.congr_types fun id => (first.types id).symm
    rw [first.slots] at next
    exact first.relocation.trans next usable.consistent first.low
  held := fun p reach => second.held (f p) (first.reaches usable reach)

end Carries

theorem Survives.carries (survives : w.Survives w' f) : w.Carries w' f where
  usable := survives.sound.usable
  types := fun id => by rw [survives.types]
  slots := congrArg RootStack.slots survives.roots
  relocation := survives.relocation
  held := survives.held

theorem Carries.of_closed (carries : w.closed.Carries w' f) : w.Carries w' f where
  usable := carries.usable
  types := carries.types
  slots := carries.slots
  relocation := carries.relocation.congr_types fun _ => rfl
  held := fun p reach => carries.held p (reach_closed.2 reach)

/-- A root slot and the word in it. -/
structure Anchors (w : World) (s : Slot) (word : Nat) : Prop where
  root : s ∈ w.heap.roots.slots
  leads : w.memory.slot s = word

namespace Anchors

variable {s : Slot} {word : Nat}

instance : Decidable (w.Anchors s word) :=
  decidable_of_iff (s ∈ w.heap.roots.slots ∧ w.memory.slot s = word)
    ⟨fun ⟨root, leads⟩ => ⟨root, leads⟩, fun anchors => ⟨anchors.root, anchors.leads⟩⟩

theorem isReference (anchors : w.Anchors s word) (usable : w.Usable) : w.IsReference word :=
  anchors.leads ▸ (usable.root anchors.root).2

theorem load (anchors : w.Anchors s word) (usable : w.Usable) : Access.loadSlot s w.memory = .ok word w.memory := by
  obtain ⟨⟨i, rfl, below⟩, -⟩ := usable.root anchors.root
  have inside : w.memory.holdsSlot (.cell i) = true := by simpa [Memory.holdsSlot] using below
  exact Access.look_ok (by rw [Memory.readSlot, if_pos inside, anchors.leads])

theorem reaches (anchors : w.Anchors s word) (value : word ≠ 0) : w.Reaches word := by
  obtain ⟨root, rfl⟩ := anchors
  exact .root root value

theorem carry (anchors : w.Anchors s word) (carries : w.Carries w' f) : w'.Anchors s (relocated f word) := by
  obtain ⟨root, rfl⟩ := anchors
  exact ⟨carries.slots ▸ root, carries.relocation.root s root⟩

/-- Writing to objects leaves the roots alone. -/
theorem stay (anchors : w.Anchors s word) (usable : w.Usable) (slots : w'.heap.roots.slots = w.heap.roots.slots)
    (cells : w'.memory.cells = w.memory.cells) : w'.Anchors s word := by
  obtain ⟨⟨i, rfl, -⟩, -⟩ := usable.root anchors.root
  refine ⟨slots ▸ anchors.root, ?_⟩
  rw [← anchors.leads]
  simp only [Memory.slot, cells]

end Anchors

/-- There is one more object. It is none of those that could be reached. -/
structure Enters (w w' : World) (f : Nat → Nat) (id : TypeId) (size : Nat) (words : Nat → Nat) (p : Nat) : Prop where
  held : w'.Held p
  fresh : ∀ q, w.Reaches q → f q ≠ p
  type : (w'.memory.header (blockOf p)).typeId = id
  length : w'.memory.payloadSize p = size
  word : ∀ k, 16 ≤ k → wordSize ∣ k → k + wordSize ≤ headerSize + size → w'.memory.word (blockOf p + k) = words k

/-- The objects that a collection has left stay where they are when there is one more. -/
theorem Admits.carries {w₁ : World} {type : TypeId} {size p : Nat} {words : Nat → Nat}
    (admits : w₁.Admits w' type size words p) (survives : w.closed.Survives w₁ f)
    (full : w.heap.collector.engine.strategy = .copying → 0 < size) (usable : w.Usable) :
    w.Carries w' f ∧ w.Enters w' f type size words p := by
  have first : w.Carries w₁ f := survives.carries.of_closed
  have sound := admits.sound survives.sound fun moves => full (survives.strategy.symm.trans moves)
  have second : w₁.Carries w' id := by
    constructor
    case usable => exact sound.usable
    case types =>
      intro id
      rw [admits.types]
    case slots => rw [admits.roots]
    case relocation =>
      exact .of_same survives.sound.consistent admits.shape admits.cells fun q reach =>
        admits.same q (survives.sound.consistent.held_of_reach reach)
    case held => exact fun q reach => (admits.held q).2 (.inr (survives.sound.consistent.held_of_reach reach))
  refine ⟨first.trans second usable, (admits.held p).2 (.inl rfl), fun q reach same => ?_, admits.type, admits.length,
    admits.word⟩
  exact admits.fresh (same ▸ first.held q reach)

-- Whether the request is served or refused, the objects are where the collection has left them.
/-- The outcome of a request. -/
inductive Answers (w : World) (type : TypeId) (size : Nat) (words : Nat → Nat) :
    EStateM.Result Failure World Nat → Prop where
  | served {w' : World} {f : Nat → Nat} {p : Nat} : w.Carries w' f → w'.heap.roots = w.heap.roots →
      w.Enters w' f type size words p → Answers w type size words (.ok p w')
  | refused {w' : World} {f : Nat → Nat} {e : HeapError} : w.Carries w' f → w'.heap.roots = w.heap.roots →
      e.IsOutOfMemory → Answers w type size words (.error (.violation e) w')

end World

namespace Heap

open World

variable {w w₁ : World} {f : Nat → Nat} {type : TypeId} {size : Nat} {words : Nat → Nat}

/-- A request that is refused has noted that there is no room. -/
theorem answers_refuse (survives : w.closed.Survives w₁ f) (n : Nat) : w.Answers type size words (refuse n w₁) := by
  have carries : w.Carries w₁ f := survives.carries.of_closed
  have healthy := survives.sound.healthy
  have usable : (Heap.refused w₁ n).Usable := by
    constructor
    case sound =>
      have sound := survives.sound
      rw [← healed_of_healthy healthy] at sound
      exact sound
    case spent =>
      intro e poisoned
      change (w₁.heap.poisoned <|> some _) = some e at poisoned
      rw [healthy] at poisoned
      exact ⟨_, _, _, (Option.some.inj poisoned).symm⟩
  have carries' : w.Carries (Heap.refused w₁ n) f :=
    ⟨usable, carries.types, carries.slots, carries.relocation, carries.held⟩
  exact .refused carries' survives.roots ⟨_, _, _, rfl⟩

/-- A heap that has run out of memory answers with that. -/
theorem answers_poisoned (usable : w.Usable) {e : HeapError} (poisoned : w.heap.poisoned = some e) :
    w.Answers type size words (.error (.violation e) w) :=
  .refused usable.carries rfl (usable.spent e poisoned)

theorem allocate_answers (usable : w.Usable) {d : Descriptor} (registered : w.heap.types.get? type = some d) {extra : Nat}
    (full : w.heap.collector.engine.strategy = .copying → 0 < d.fixedSize + extra) :
    w.Answers type (d.fixedSize + extra) (fun _ => 0) (allocate type extra w) := by
  cases poisoned : w.heap.poisoned with
  | some e =>
    rw [allocate_poisoned poisoned]
    exact answers_poisoned usable poisoned
  | none =>
    obtain ⟨w₁, f, survives, ⟨n, ran⟩ | ⟨p, w', -, admits, ran⟩⟩ :=
      allocate_cases (usable.sound_of_healthy poisoned) registered extra
    · rw [ran]
      exact answers_refuse survives n
    · rw [ran]
      obtain ⟨carries, enters⟩ := admits.carries survives full usable
      exact .served carries (admits.roots.trans survives.roots) enters

theorem allocateArray_answers (usable : w.Usable) {d : Descriptor} {r : Region}
    (registered : w.heap.types.get? type = some d) (region : d.region = some r) {count : Nat}
    (full : w.heap.collector.engine.strategy = .copying → 0 < d.fixedSize + count * r.elementSize) :
    w.Answers type (d.fixedSize + count * r.elementSize) (patch (placeOf r.countOffset) count fun _ => 0)
      (allocateArray type count w) := by
  cases poisoned : w.heap.poisoned with
  | some e =>
    have unobjected : arrayObjection w.heap.types type = none := by
      simp only [arrayObjection, registered, region]
    rw [allocateArray_poisoned poisoned, unobjected]
    exact answers_poisoned usable poisoned
  | none =>
    obtain ⟨w₁, f, survives, ⟨n, -, ran⟩ | ⟨-, p, w', -, admits, ran⟩⟩ :=
      allocateArray_cases (usable.sound_of_healthy poisoned) registered region count
    · rw [ran]
      exact answers_refuse survives n
    · rw [ran]
      obtain ⟨carries, enters⟩ := admits.carries survives full usable
      exact .served carries (admits.roots.trans survives.roots) enters

end Heap

theorem World.Answers.carries {w : World} {type : TypeId} {size : Nat} {words : Nat → Nat}
    {ran : EStateM.Result Failure World Nat} (answers : w.Answers type size words ran) :
    ∃ f, w.Carries (after ran) f := by
  cases answers with
  | served carries _ _ => exact ⟨_, carries⟩
  | refused carries _ _ => exact ⟨_, carries⟩

/-- A careful program may call the collector in any way. -/
theorem Operation.carries {w : World} (usable : w.Usable) {op : Operation} (collects : op.collects = true)
    (allowed : w.Allows (.call op)) : ∃ f, w.Carries (after (op.run w)) f := by
  obtain ⟨proper, careful⟩ := allowed
  cases op with
  | allocate type extra =>
    obtain ⟨d, registered⟩ := proper
    obtain ⟨f, carries⟩ := (Heap.allocate_answers usable registered fun moves => careful moves d registered).carries
    refine ⟨f, ?_⟩
    rwa [← after_discard] at carries
  | allocateArray type count =>
    obtain ⟨d, registered⟩ := proper
    cases region : d.region with
    | none =>
      have ran : Heap.allocateArray type count w = .error (.violation (.invalidDescriptor d.name .noRegion)) w := by
        unfold Heap.allocateArray
        rw [run_bind (Heap.requireType_ok registered)]
        simp only [region]
        rfl
      refine ⟨id, ?_⟩
      rw [Operation.run, after_discard, ran]
      exact usable.carries
    | some r =>
      obtain ⟨f, carries⟩ := (Heap.allocateArray_answers usable registered region fun moves =>
        careful moves d registered r region).carries
      refine ⟨f, ?_⟩
      rwa [← after_discard] at carries
  | collect =>
    cases poisoned : w.heap.poisoned with
    | some e =>
      refine ⟨id, ?_⟩
      rw [Operation.run, after_discard, Heap.collect_poisoned poisoned]
      exact usable.carries
    | none =>
      obtain ⟨report, w', f, ran, survives⟩ := Heap.collect_spec (usable.sound_of_healthy poisoned)
      refine ⟨f, ?_⟩
      rw [Operation.run, after_discard, ran]
      exact survives.carries
  | register d words => cases collects
  | pushRoot => cases collects
  | popRoot handle => cases collects
  | addRoot handle s => cases collects
  | addGlobal s => cases collects

/-! ### Actions that let the collector rest -/

namespace Action

/-- The collector does not run. -/
def Rests : Action → Prop
  | call op => op.collects = false
  | write .. => True
  | setCell .. => True

/-- The program writes to an object. -/
def Writes : Action → Nat → Prop
  | write p _ _, q => p = q
  | call _, _ => False
  | setCell .., _ => False

variable {w : World} (usable : w.Usable) (written : Nat → Nat → Prop)

include usable

theorem keeps_changeRoots (change : RootStack → Except RootViolation RootStack) {roots : RootStack}
    (changed : change w.heap.roots = .ok roots)
    (fine : ∀ s ∈ roots.slots, s ∈ w.heap.roots.slots ∨
      (∃ i, s = .cell i ∧ i < w.memory.cells.size) ∧ w.IsReference (w.memory.slot s)) :
    w.Keeps (after (Heap.changeRoots change w)) written := by
  rw [Heap.changeRoots_ok changed]
  exact usable.keeps_replace (usable.replace usable.books.types (fun _ _ type => type) fine) (fun _ _ type => type) _

theorem keeps_register {d : Descriptor} (words : d.IsWords) : w.Keeps (after (Heap.register d w)) written := by
  cases registered : w.heap.types.register d with
  | error e =>
    rw [Heap.register_error registered]
    exact .refl usable _
  | ok pair =>
    obtain ⟨id, types⟩ := pair
    have grown (id' : TypeId) (d' : Descriptor) (found : w.heap.types.get? id' = some d') :=
      TypeTable.get?_register registered found
    rw [Heap.register_ok registered]
    exact usable.keeps_replace (usable.replace (usable.books.types.register words registered) grown fun _ root => .inl root)
      grown _

omit written in
theorem keeps_write {p a : Nat} {bytes : ByteArray} (allowed : w.Allows (.write p a bytes)) :
    w.Keeps (after ((Action.write p a bytes).run w)) fun q _ => p = q := by
  have consistent := usable.consistent
  have regular := usable.regular
  obtain ⟨w', ran, sound⟩ : ∃ w', (Action.write p a bytes).run w.healed = .ok () w' ∧ w'.Sound :=
    Heap.write_ok usable.sound allowed.1 allowed.2
  obtain ⟨holds, first, last, -⟩ := allowed.1
  have low := consistent.low holds
  have inside := Heap.holds_write consistent holds first last
  have stored : Access.store a bytes w.memory = .ok () (w.memory.store a bytes) := Access.guarded_ok inside
  cases ran.symm.trans (Heap.access_ok (w := w.healed) stored)
  have shape := Memory.sameShape_store w.memory a bytes
  have outside (b : Nat) (out : b < a ∨ a + bytes.size ≤ b) : (w.memory.store a bytes).byte b = w.memory.byte b := by
    rw [Memory.byte_store regular inside, if_neg (by omega)]
  have others (q : Nat) (held : w.Held q) (other : p ≠ q) (i : Nat) (lt : i < headerSize + w.memory.payloadSize q) :
      (w.memory.store a bytes).byte (blockOf q + i) = w.memory.byte (blockOf q + i) := by
    have separate := consistent.separate held holds other.symm lt
    exact outside _ (by unfold blockOf at *; omega)
  -- What is written lies behind the header of the object.
  have header (q : Nat) (held : w.Held q) : (w.memory.store a bytes).header (blockOf q) = w.memory.header (blockOf q) := by
    apply Memory.header_stay regular shape (consistent.holds_header held)
    intro i lt
    by_cases same : p = q
    · subst same
      exact outside _ (.inl (by unfold blockOf at *; omega))
    · exact others q held same i (by omega)
  have usable' : World.Usable { w with memory := w.memory.store a bytes } := ⟨sound, usable.spent⟩
  rw [show (Action.write p a bytes).run w = .ok () { w with memory := w.memory.store a bytes } from Heap.access_ok stored]
  refine .of_same usable usable' (fun _ _ type => type) shape (fun _ held => held) (fun q held => ?_) (fun q held => ?_) ?_
    fun _ _ _ same => same
  · exact congrArg Header.size (header q held)
  · exact congrArg Header.typeId (header q held)
  · exact fun q held free => others q held fun same => free ⟨0, same⟩

theorem keeps_setCell {i v : Nat} (allowed : w.Allows (.setCell i v)) :
    w.Keeps (after ((Action.setCell i v).run w)) written := by
  obtain ⟨⟨below, reference⟩, -⟩ := allowed
  have holds : w.memory.holdsSlot (.cell i) = true := by simpa [Memory.holdsSlot] using below
  have usable' : World.Usable { w with memory := w.memory.setSlot (.cell i) v } :=
    ⟨usable.sound.setCell reference, usable.spent⟩
  rw [show (Action.setCell i v).run w = .ok () _ from Heap.access_ok (Access.storeSlot_ok holds)]
  exact { World.Keeps.refl usable written with usable := usable' }

omit written in
/-- The objects stay where they are while the collector rests, and a careful program keeps them in order. -/
theorem keeps {a : Action} (rests : a.Rests) (allowed : w.Allows a) : w.Keeps (after (a.run w)) fun p _ => a.Writes p := by
  cases a with
  | write p a bytes => exact keeps_write usable allowed
  | setCell i v => exact keeps_setCell usable _ allowed
  | call op =>
    obtain ⟨proper, careful⟩ := allowed
    cases op with
    | register d words =>
      have kept := keeps_register usable (fun _ _ => False) words
      rw [← after_discard] at kept
      exact kept
    | pushRoot | popRoot handle | addRoot handle s | addGlobal s =>
      obtain ⟨ran, roots, changed, fine⟩ := World.Allows.reroots ⟨proper, careful⟩ rfl
      rw [run, ran]
      exact keeps_changeRoots usable _ _ changed fine
    | allocate id extra => cases rests
    | allocateArray id count => cases rests
    | collect => cases rests

end Action

end TracingHeap
