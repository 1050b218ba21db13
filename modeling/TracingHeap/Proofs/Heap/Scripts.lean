import TracingHeap.Proofs.Heap.WellFormed

/-! Programs as lists of actions.

A program calls the heap and writes to memory in between. Following a list of actions is a computation, so the
states that it leads to can be looked at. -/

set_option autoImplicit false

namespace TracingHeap

/-- What a program does: it calls the heap, or it writes. -/
inductive Action where
  | call (op : Operation)
  /-- Write bytes into the payload of an object. -/
  | write (p a : Nat) (bytes : ByteArray)
  | setCell (i v : Nat)

namespace Action

def run : Action → HeapM Unit
  | call op => op.run
  | write _ a bytes => Heap.access (Access.store a bytes)
  | setCell i v => Heap.access (Access.storeSlot (.cell i) v)

/-- Write a word at an offset. -/
def writeWord (p offset v : Nat) : Action :=
  .write p (p + offset) ⟨((List.range wordSize).map fun i => UInt8.ofNat (v >>> (8 * i))).toArray⟩

end Action

/-- The only arenas are those of the heap, and there are so many cells. -/
def World.start (config : Config) (cells : Nat) : Option World :=
  match Heap.create config { cells := Array.replicate cells 0 } with
  | .ok (h, m) => some ⟨h, m⟩
  | .error _ => none

/-- The world after some actions, if all of them are allowed and succeed. -/
def World.follow (allowed : World → Action → Bool) : List Action → World → Option World
  | [], w => some w
  | a :: rest, w =>
    if allowed w a then
      match a.run w with
      | .ok () w' => follow allowed rest w'
      | .error _ _ => none
    else none

/-- The world in which a program ends that starts on a heap of its own and keeps to a rule. -/
def World.play (rule : World → Action → Prop) [∀ w a, Decidable (rule w a)] (config : Config) (cells : Nat)
    (actions : List Action) : Option World :=
  (start config cells).bind (follow (fun w a => decide (rule w a)) actions)

def Descriptor.empty : Descriptor := ⟨"Empty", 0, [], none⟩

theorem Descriptor.empty_isWords : empty.IsWords := ⟨by decide, by decide, fun r region => (nomatch region)⟩

/-- An object with one reference. -/
def Descriptor.link : Descriptor := ⟨"Link", 8, [⟨0, .traced⟩], none⟩

theorem Descriptor.link_isWords : link.IsWords := ⟨by decide, by decide, fun r region => (nomatch region)⟩

/-- An object that counts the references behind it. -/
def Descriptor.references : Descriptor := ⟨"References", 8, [⟨0, .scalar⟩], some (.references 0)⟩

theorem Descriptor.references_isWords : references.IsWords :=
  ⟨by decide, by decide, fun r region => by cases region; decide⟩

/-- The test holds of what a heap that moves its objects has. -/
def World.onCopying (w : World) (test : Copying → Bool) : Bool :=
  match w.heap.collector.engine with
  | .copying c => test c
  | _ => false

/-- The test holds of what a heap that does not move its objects has. -/
def World.onMarkSweep (w : World) (test : MarkSweep → Bool) : Bool :=
  match w.heap.collector.engine with
  | .markSweep c => test c
  | _ => false

/-- The test holds of what a call leaves that is refused. -/
def World.onRefusal (w : World) (op : Operation) (test : HeapError → World → Bool) : Bool :=
  match op.run w with
  | .error (.violation e) w' => test e w'
  | _ => false

/-- The test holds of what a computation gives that succeeds, and of what it leaves. -/
def World.onSuccess {α : Type} (w : World) (act : HeapM α) (test : α → World → Bool) : Bool :=
  match act w with
  | .ok a w' => test a w'
  | .error _ _ => false

theorem World.onCopying_eq_true {w : World} {test : Copying → Bool} :
    w.onCopying test = true ↔ ∃ c, w.heap.collector.engine = .copying c ∧ test c = true := by
  unfold onCopying
  cases w.heap.collector.engine <;> simp

theorem World.onMarkSweep_eq_true {w : World} {test : MarkSweep → Bool} :
    w.onMarkSweep test = true ↔ ∃ c, w.heap.collector.engine = .markSweep c ∧ test c = true := by
  unfold onMarkSweep
  cases w.heap.collector.engine <;> simp

theorem World.onRefusal_eq_true {w : World} {op : Operation} {test : HeapError → World → Bool} :
    w.onRefusal op test = true ↔ ∃ e w', op.run w = .error (.violation e) w' ∧ test e w' = true := by
  unfold onRefusal
  cases op.run w with
  | ok u w' => simp
  | error x w' => cases x <;> simp

theorem World.onSuccess_eq_true {α : Type} {w : World} {act : HeapM α} {test : α → World → Bool} :
    w.onSuccess act test = true ↔ ∃ a w', act w = .ok a w' ∧ test a w' = true := by
  unfold onSuccess
  cases act w with
  | ok a w' => simp
  | error x w' => simp

/-! ### Where they lead -/

theorem Memory.regular_grant {m m' : Memory} {size start : Nat} (regular : m.Regular)
    (room : base (m.arenas.size + 1) ≤ wordLimit) (granted : m.grant size = some (start, m')) : m'.Regular := by
  unfold grant at granted
  by_cases small : size ≤ largestArena
  · rw [if_pos small] at granted
    cases granted
    refine ⟨fun k arena found => ?_, by simpa using room⟩
    rw [Array.getElem?_push] at found
    split at found
    · cases found
      show max size wordSize ≤ largestArena
      unfold largestArena wordSize at *
      omega
    · exact regular.extent_le k arena found
  · rw [if_neg small] at granted
    cases granted

/-- A heap is granted one arena, or two. -/
theorem Heap.create_grants {config : Config} {m m' : Memory} {h : Heap} (created : create config m = .ok (h, m')) :
    ∃ size start, m.grant size = some (start, m') ∨
      ∃ m₁ start', m.grant size = some (start', m₁) ∧ m₁.grant size = some (start, m') := by
  obtain ⟨-, engine, started, -⟩ := create_eq_ok created
  have fresh := Engine.created started
  generalize config.strategy = strategy at fresh
  cases fresh with
  | markSweep granted => exact ⟨_, _, .inl granted⟩
  | copying first second => exact ⟨_, _, .inr ⟨_, _, first, second⟩⟩
  | leaky granted => exact ⟨_, _, .inl granted⟩

theorem Heap.regular_create {config : Config} {m m' : Memory} {h : Heap} (regular : m.Regular)
    (room : Memory.base (m.arenas.size + 2) ≤ wordLimit) (created : create config m = .ok (h, m')) : m'.Regular := by
  have room' : Memory.base (m.arenas.size + 1) ≤ wordLimit :=
    Nat.le_trans (Nat.add_le_add_left (Nat.mul_le_mul_right _ (by omega)) _) room
  obtain ⟨size, start, granted | ⟨m₁, start', first, second⟩⟩ := create_grants created
  · exact Memory.regular_grant regular room' granted
  · have more := (Memory.holds_grant first).2.2.1
    exact Memory.regular_grant (Memory.regular_grant regular room' first) (by rw [more]; exact room) second

theorem Memory.cells_grant {m m' : Memory} {size start : Nat} (granted : m.grant size = some (start, m')) :
    m'.cells = m.cells := by
  unfold grant at granted
  split at granted
  · cases granted; rfl
  · cases granted

theorem Heap.cells_create {config : Config} {m m' : Memory} {h : Heap} (created : create config m = .ok (h, m')) :
    m'.cells = m.cells := by
  obtain ⟨size, start, granted | ⟨m₁, start', first, second⟩⟩ := create_grants created
  · exact Memory.cells_grant granted
  · exact (Memory.cells_grant second).trans (Memory.cells_grant first)

theorem World.start_eq_some {config : Config} {cells : Nat} {w : World} (started : start config cells = some w) :
    Heap.create config { cells := Array.replicate cells 0 } = .ok (w.heap, w.memory) ∧ w.memory.Regular := by
  unfold start at started
  cases created : Heap.create config { cells := Array.replicate cells 0 } with
  | error e => rw [created] at started; cases started
  | ok pair =>
    rw [created] at started
    cases started
    have below : Memory.base 0 ≤ wordLimit := by decide
    have room : Memory.base 2 ≤ wordLimit := by decide
    have regular : Memory.Regular { cells := Array.replicate cells 0 } := ⟨fun k arena found => by simp at found, below⟩
    exact ⟨rfl, Heap.regular_create regular room created⟩

-- A run stops at the first action that is not allowed or fails, so the induction meets neither.
/-- What holds of a world and survives every allowed action holds where the actions lead. -/
theorem World.follow_induction {allowed : World → Action → Bool} {P : World → Prop}
    (step : ∀ w a w', P w → allowed w a = true → a.run w = .ok () w' → P w') {actions : List Action} {w w' : World}
    (holds : P w) (ran : w.follow allowed actions = some w') : P w' := by
  induction actions generalizing w with
  | nil => cases ran; exact holds
  | cons a rest ih =>
    rw [follow] at ran
    split at ran
    · next legal =>
      cases outcome : a.run w with
      | error e t => simp only [outcome] at ran; cases ran
      | ok u t =>
        simp only [outcome] at ran
        exact ih (step w a t holds legal outcome) ran
    · cases ran

theorem Action.run_access {w w' : World} {act : Access Unit} (always : Always Memory.SameShape act)
    (ran : Heap.access act w = .ok () w') : ∃ m', w' = { w with memory := m' } ∧ w.memory.SameShape m' := by
  unfold Heap.access at ran
  cases step : act w.memory with
  | error e m' => simp only [step] at ran; cases ran
  | ok u m' =>
    simp only [step] at ran
    cases ran
    exact ⟨m', rfl, always.of_ok step⟩

/-- The actions of a program that is never told of a violation lead to states of the heap. -/
theorem Reached.of_play {config : Config} {cells : Nat} {actions : List Action} {w : World}
    (ran : World.play (fun w _ => w.heap.poisoned = none) config cells actions = some w) : Reached w := by
  obtain ⟨first, started, ran⟩ := Option.bind_eq_some_iff.1 ran
  obtain ⟨created, regular⟩ := World.start_eq_some started
  refine World.follow_induction (fun w a w' reached healthy outcome => ?_) (.create created regular) ran
  have regular := (reached.orderly (of_decide_eq_true healthy)).regular
  have written {act : Access Unit} (always : Always Memory.SameShape act) (outcome : Heap.access act w = .ok () w') :
      Reached w' := by
    obtain ⟨m', rfl, shape⟩ := Action.run_access always outcome
    exact .program reached (regular.of_sameShape shape) fun _ _ _ => shape.holds _ _
  cases a with
  | call op => exact .done reached outcome
  | write p a bytes =>
    exact written (Access.always_guarded (fun m => .refl m) fun m => Memory.sameShape_store m _ _) outcome
  | setCell i v =>
    exact written (Access.always_storeSlot (fun m => .refl m) fun m => Memory.sameShape_setSlot m _ v) outcome

end TracingHeap
