import TracingHeap.Proofs.Heap.Charts
import TracingHeap.Proofs.Heap.Poison
import TracingHeap.Proofs.MarkSweep.Partition

/-! Programs that leave the headers alone.

Such a program writes what it likes into payloads, and it calls the heap in any order, whatever comes of it. In every state
that it leads to, the objects that a walk over the memory finds are those on the books of the collector. -/

set_option autoImplicit false

namespace TracingHeap

/-- The call may come to a collection. -/
def Operation.collects : Operation → Bool
  | allocate .. | allocateArray .. | collect => true
  | register .. | pushRoot | popRoot _ | addRoot .. | addGlobal _ => false

/-! ### What the calls leave -/

theorem Heap.poison_ne_none (h : Heap) (e : HeapError) : (h.poison e).poisoned ≠ none := by
  unfold poison
  cases h.poisoned <;> simp

namespace World

variable {w : World} {p : Nat}

/-- A violation that is noted leaves nothing to be said of the books. -/
theorem tidy_poison (charted : w.heap.collector.engine.Charted w.heap.types w.memory) (e : HeapError) :
    Tidy { w with heap := w.heap.poison e } :=
  have poisoned := w.heap.poison_ne_none e
  ⟨charted, fun healthy => absurd healthy poisoned, fun healthy => absurd healthy poisoned⟩

namespace Tidy

variable (tidy : w.Tidy)

include tidy

/-- Types may be added, and any slots may be roots. -/
theorem change (types : TypeTable) (roots : RootStack) (checked : w.heap.types.Checked → types.Checked)
    (grown : ∀ id d, w.heap.types.get? id = some d → types.get? id = some d) :
    Tidy { w with heap := { w.heap with types, roots } } where
  charted := tidy.charted.grow grown
  books := fun healthy => have books := tidy.books healthy; ⟨books.regular, checked books.types, books.ledger⟩
  unmarked := tidy.unmarked

theorem reroot (roots : RootStack) : Tidy { w with heap := { w.heap with roots } } :=
  tidy.change _ roots id fun _ _ type => type

theorem close : w.closed.Tidy := tidy.change _ _ id fun _ _ type => type

/-- One more object, in a block that the engine has handed out. -/
theorem fresh {e : Engine} {id : TypeId} {d : Descriptor} {block size : Nat}
    (granted : Engine.Granted w.heap.collector.engine e w.memory (footprint size) block)
    (type : w.heap.types.get? id = some d) (fixed : d.fixedSize ≤ size) (small : size ≤ largestPayload) :
    Tidy { Heap.handedOut w e (footprint size) with memory := w.memory.fresh block id size } where
  charted := tidy.charted.fresh granted type fixed small
  books := fun healthy =>
    have books := tidy.books healthy
    have shape := Memory.sameShape_fresh w.memory block id size
    ⟨books.regular.of_sameShape shape, books.types, granted.ledger.of_sameShape shape⟩
  unmarked := fun healthy p holds => by
    show ((w.memory.fresh block id size).header (blockOf p)).check = _
    rcases (granted.held p).1 holds with rfl | old
    · rw [blockOf_payloadOf]
      exact Memory.check_fresh tidy.charted.regular granted.room small
    · rw [tidy.charted.header_fresh granted small old]
      exact tidy.unmarked healthy p old

/-- A word behind the first half of its header may be written to an object. -/
theorem setWord (holds : w.Held p) {k : Nat} (above : 16 ≤ k)
    (within : k + wordSize ≤ headerSize + w.memory.payloadSize p) (v : Nat) :
    Tidy { w with memory := w.memory.setWord (blockOf p + k) v } := by
  have shape := Memory.sameShape_setWord w.memory (blockOf p + k) v
  have written {q : Nat} (held : w.Held q) := tidy.charted.header_setWord holds above within v held
  refine ⟨tidy.charted.of_akin shape fun q held => ?_, fun healthy => ?_, fun healthy q held => ?_⟩
  · obtain ⟨target, header⟩ := written held
    obtain ⟨state, check⟩ := (tidy.charted.legible q held).readable
    rw [header]
    exact ⟨rfl, rfl, state, Header.check_eq_ok.2 (Header.check_eq_ok.1 check)⟩
  · have books := tidy.books healthy
    exact ⟨books.regular.of_sameShape shape, books.types, books.ledger.of_sameShape shape⟩
  · obtain ⟨target, header⟩ := written held
    show ((w.memory.setWord _ v).header (blockOf q)).check = _
    rw [header]
    exact Header.check_eq_ok.2 (Header.check_eq_ok.1 (tidy.unmarked healthy q held))

end Tidy

-- The types and the roots are no part of what is spoken of here, so three rules are all that a call comes to.
/-- A property of the engine and the memory that lasts for as long as no violation is seen. -/
structure Upheld (P : Engine → Memory → Prop) : Prop where
  collected : ∀ {w : World} {report : CollectionReport} {e : Engine} {m : Memory}, w.Tidy → w.heap.poisoned = none →
    w.RootsOutside → P w.heap.collector.engine w.memory →
    Engine.collect w.heap.types w.heap.roots.slots (w.heap.collector.engine, w.memory) = .ok report (e, m) → P e m
  fresh : ∀ {types : TypeTable} {e e' : Engine} {m : Memory} {id : TypeId} {block size : Nat}, e.Charted types m → P e m →
    Engine.Granted e e' m (footprint size) block → size ≤ largestPayload →
    e.allocate (footprint size) = some (block, e') → P e' (m.fresh block id size)
  setWord : ∀ {types : TypeTable} {e : Engine} {m : Memory} {p k : Nat}, e.Charted types m → P e m → e.Held p → 16 ≤ k →
    k + wordSize ≤ headerSize + m.payloadSize p → ∀ v, P e (m.setWord (blockOf p + k) v)

theorem upheld_true : Upheld fun _ _ => True :=
  ⟨fun _ _ _ _ _ => trivial, fun _ _ _ _ _ => trivial, fun _ _ _ _ _ _ => trivial⟩

/-- The books are in order, and the property holds unless a violation has been seen. -/
structure Upholds (P : Engine → Memory → Prop) (w : World) : Prop where
  tidy : w.Tidy
  kept : w.heap.poisoned = none → P w.heap.collector.engine w.memory

variable {P : Engine → Memory → Prop}

theorem upholds_poison (charted : w.heap.collector.engine.Charted w.heap.types w.memory) (e : HeapError) :
    Upholds P { w with heap := w.heap.poison e } :=
  ⟨tidy_poison charted e, fun healthy => absurd healthy (w.heap.poison_ne_none e)⟩

end World

namespace Heap

open World

variable {P : Engine → Memory → Prop} {w : World} {α : Type}

theorem leaves_changeRoots (upholds : w.Upholds P) (f : RootStack → Except RootViolation RootStack) :
    Leaves (fun _ => Upholds P) (Upholds P) (changeRoots f w) := by
  unfold changeRoots
  cases changed : f w.heap.roots with
  | error v =>
    simp only [changed]
    exact upholds_poison upholds.tidy.charted _
  | ok roots =>
    simp only [changed]
    exact ⟨upholds.tidy.reroot roots, upholds.kept⟩

theorem leaves_register (upholds : w.Upholds P) {d : Descriptor} (words : d.IsWords) :
    Leaves (fun _ => Upholds P) (Upholds P) (register d w) := by
  unfold register
  cases registered : w.heap.types.register d with
  | error e =>
    simp only [registered]
    exact upholds
  | ok pair =>
    simp only [registered]
    exact ⟨upholds.tidy.change _ _ (fun checked => checked.register words registered)
      fun _ _ found => TypeTable.get?_register registered found, upholds.kept⟩

theorem leaves_look (tidy : w.Tidy) (f : Heap → Memory → Reading α) :
    Leaves (fun _ w' => w' = w) (Upholds P) (poisoning (look f) w) := by
  unfold poisoning look
  cases f w.heap w.memory with
  | ok a => rfl
  | error x =>
    cases x with
    | violation e => exact upholds_poison tidy.charted e
    | fault f => trivial

/-- The heap goes on with the types it had. -/
structure Goes (w w' : World) : Prop where
  tidy : w'.Tidy
  healthy : w'.heap.poisoned = none
  types : w'.heap.types = w.heap.types

section

variable (upheld : Upheld P) (upholds : w.Upholds P) (outside : w.RootsOutside)

include upheld upholds outside

theorem leaves_runCollector (healthy : w.heap.poisoned = none) :
    Leaves (fun _ w' => Goes w w' ∧ P w'.heap.collector.engine w'.memory) (Upholds P) (poisoning runCollector w) := by
  have tidy := upholds.tidy
  have spec := Engine.collect_charts tidy healthy outside
  cases ran : Engine.collect w.heap.types w.heap.roots.slots (w.heap.collector.engine, w.memory) with
  | ok report pair =>
    obtain ⟨e, m⟩ := pair
    rw [ran] at spec
    rw [runCollector_ok ran]
    have books := (tidy.books healthy).afterCollection ran
    exact ⟨⟨⟨spec.1, fun _ => books, fun _ => spec.2⟩, healthy, rfl⟩,
      upheld.collected tidy healthy outside (upholds.kept healthy) ran⟩
  | error x pair =>
    obtain ⟨e, m⟩ := pair
    rw [ran] at spec
    simp only [poisoning, runCollector, Collector.collect, ran]
    cases x with
    | violation e' => exact upholds_poison (w := ⟨{ w.heap with collector := ⟨e, _⟩ }, m⟩) spec e'
    | fault f => trivial

theorem leaves_runCollection (healthy : w.heap.poisoned = none) :
    Leaves (fun _ w' => Goes w w' ∧ P w'.heap.collector.engine w'.memory) (Upholds P) (runCollection w) := by
  refine .bind (leaves_runCollector upheld upholds outside healthy) fun report w₁ ⟨goes, kept⟩ => ?_
  rw [run_bind_get]
  split
  · refine .bind (leaves_look goes.tidy _) fun _ w₂ same => ?_
    subst same
    exact ⟨goes, kept⟩
  · exact ⟨goes, kept⟩

/-- A block comes from the heap as it is, or as a collection leaves it. -/
theorem leaves_obtainBlock (healthy : w.heap.poisoned = none) (size : Nat) :
    Leaves (fun block w' => ∃ w₁ e, Goes w w₁ ∧ P w₁.heap.collector.engine w₁.memory ∧
      w₁.heap.collector.engine.allocate size = some (block, e) ∧ w' = handedOut w₁ e size) (Upholds P)
      (obtainBlock size w) := by
  by_cases waits : Waits w size
  · have spec := leaves_runCollection upheld upholds outside healthy
    cases collected : runCollection w with
    | error x w₁ =>
      rw [collected] at spec
      rw [obtainBlock_error waits collected]
      cases x <;> exact spec
    | ok report w₁ =>
      rw [collected] at spec
      obtain ⟨goes, kept⟩ := spec
      rw [obtainBlock_later waits collected]
      cases allocated : w₁.heap.collector.engine.allocate size with
      | none => exact upholds_poison goes.tidy.charted _
      | some pair => exact ⟨w₁, pair.2, goes, kept, allocated, rfl⟩
  · obtain ⟨block, e, allocated, ran⟩ := obtainBlock_now waits
    rw [ran]
    exact ⟨w, e, ⟨upholds.tidy, healthy, rfl⟩, upholds.kept healthy, allocated, rfl⟩

/-- A new object has room for the fixed part of its type. -/
theorem leaves_allocate (id : TypeId) (extra : Nat) :
    Leaves (fun p w' => (Goes w.closed w' ∧ P w'.heap.collector.engine w'.memory) ∧ w'.Held p ∧
      ∀ d, w.heap.types.get? id = some d → d.fixedSize ≤ w'.memory.payloadSize p) (Upholds P) (allocate id extra w) := by
  have closed : w.closed.Upholds P := ⟨upholds.tidy.close, upholds.kept⟩
  cases poisoned : w.heap.poisoned with
  | some e =>
    rw [allocate_poisoned poisoned]
    exact upholds
  | none =>
    cases registered : w.heap.types.get? id with
    | none =>
      rw [allocate_unknown poisoned registered]
      exact upholds_poison upholds.tidy.charted _
    | some d =>
      by_cases small : d.fixedSize + extra ≤ largestPayload
      · rw [allocate_eq poisoned registered small]
        refine .bind (leaves_obtainBlock upheld closed outside poisoned _) ?_
        rintro block w' ⟨w₁, e, ⟨tidy₁, healthy, types⟩, kept, allocated, rfl⟩
        have books := tidy₁.books healthy
        have charted := tidy₁.charted
        have granted := charted.granted books.ledger small allocated
        have type : w₁.heap.types.get? id = some d := by
          rw [types]
          exact registered
        have fixed : d.fixedSize ≤ d.fixedSize + extra := Nat.le_add_right _ _
        rw [run_bind (access_fresh books.regular granted.room small)]
        refine ⟨⟨⟨tidy₁.fresh granted type fixed small, healthy, types⟩, upheld.fresh charted kept granted small allocated⟩,
          (granted.held _).2 (.inl rfl), fun d' found => ?_⟩
        cases found
        show _ ≤ ((w₁.memory.fresh block id _).header (blockOf (payloadOf block))).size
        rw [blockOf_payloadOf, Memory.header_fresh books.regular granted.room small]
        exact fixed
      · rw [allocate_large poisoned registered small]
        exact upholds_poison closed.tidy.charted _

end

/-- The count of a new array lies in the fixed part of its type. -/
theorem access_count {w' : World} {p : Nat} {d : Descriptor} {r : Region} (goes : Goes w w') (held : w'.Held p)
    {id : TypeId} (registered : w.heap.types.get? id = some d) (fixed : d.fixedSize ≤ w'.memory.payloadSize p)
    (region : d.region = some r) (count : Nat) : ∃ k, 16 ≤ k ∧ k + wordSize ≤ headerSize + w'.memory.payloadSize p ∧
      access (Access.storeWord (slotAt p r.countOffset) count) w' =
        .ok () { w' with memory := w'.memory.setWord (blockOf p + k) count } := by
  have charted := goes.tidy.charted
  have object := charted.holds_object held
  have below := Memory.holds_lt charted.regular object
  have low := charted.low held
  obtain ⟨d', -, -, small⟩ := (charted.legible p held).typed
  have type : w'.heap.types.get? id = some d := by
    rw [goes.types]
    exact registered
  have sound := (goes.tidy.books goes.healthy).types.sound type (Nat.le_trans fixed small)
  obtain ⟨above, last, -⟩ := sound.count r region
  have within : placeOf r.countOffset + wordSize ≤ headerSize + w'.memory.payloadSize p :=
    Nat.le_trans last (Nat.add_le_add_left fixed _)
  refine ⟨placeOf r.countOffset, above, within, ?_⟩
  rw [Descriptor.slotAt_count low sound fixed (by simp only [blockOf] at below; omega) region]
  have inside := Memory.holds_sub charted.regular object (placeOf r.countOffset) wordSize within
  exact access_ok (Access.guarded_ok inside)

section

variable (upheld : Upheld P) (upholds : w.Upholds P)

include upheld upholds

theorem leaves_allocateArray (outside : w.RootsOutside) (id : TypeId) (count : Nat) :
    Leaves (fun _ => Upholds P) (Upholds P) (allocateArray id count w) := by
  unfold allocateArray
  cases registered : w.heap.types.get? id with
  | none =>
    rw [run_bind_error (requireType_none registered)]
    exact upholds_poison upholds.tidy.charted _
  | some d =>
    rw [run_bind (requireType_ok registered)]
    cases region : d.region with
    | none => exact upholds
    | some r =>
      refine .bind (leaves_allocate upheld upholds outside id _) fun p w' ⟨⟨goes, kept⟩, held, room⟩ => ?_
      obtain ⟨k, above, within, stored⟩ := access_count goes held registered (room d registered) region count
      rw [run_bind stored]
      exact ⟨goes.tidy.setWord held above within count,
        fun _ => upheld.setWord goes.tidy.charted kept held above within count⟩

theorem leaves_run (op : Operation) (outside : op.collects = true → w.RootsOutside) :
    Leaves (fun _ => Upholds P) (Upholds P) (op.run w) := by
  cases op with
  | register d words => exact .bind (leaves_register upholds words) fun _ _ next => next
  | allocate id extra =>
    exact .bind (leaves_allocate upheld upholds (outside rfl) id extra) fun _ _ next => ⟨next.1.1.tidy, fun _ => next.1.2⟩
  | allocateArray id count =>
    exact .bind (leaves_allocateArray upheld upholds (outside rfl) id count) fun _ _ next => next
  | collect =>
    refine .bind ?_ fun _ _ next => next
    cases poisoned : w.heap.poisoned with
    | some e =>
      rw [collect_poisoned poisoned]
      exact upholds
    | none =>
      rw [collect_eq poisoned]
      exact (leaves_runCollection upheld upholds (outside rfl) poisoned).imp fun _ _ next => ⟨next.1.tidy, fun _ => next.2⟩
  | pushRoot => exact ⟨upholds.tidy.reroot _, upholds.kept⟩
  | popRoot handle => exact leaves_changeRoots upholds fun roots => roots.pop handle
  | addRoot handle s => exact leaves_changeRoots upholds fun roots => roots.add handle s
  | addGlobal s => exact leaves_changeRoots upholds fun roots => .ok (roots.addGlobal s)

end

theorem tidy_create {config : Config} {m m' : Memory} {h : Heap} (created : create config m = .ok (h, m'))
    (regular : m'.Regular) : Tidy ⟨h, m'⟩ := by
  have books := books_create created regular
  obtain ⟨accepted, engine, started, rfl⟩ := create_eq_ok created
  obtain ⟨-, fits, none⟩ := Engine.ledger_create (Config.pos_of_check accepted) (Engine.created started)
  exact ⟨⟨regular, books.ledger.standing, fun p holds => absurd holds (none p), fits⟩, fun _ => books,
    fun _ p holds => absurd holds (none p)⟩

end Heap

/-! ### Runs -/

-- Where the objects are moved, the collector writes to the root slots. One that lies in an arena may come to lie in a
-- header.
/-- The states of a heap whose program writes no header of a held object. What else it writes and calls is up to it. -/
inductive Tended : World → Prop where
  | create {config : Config} {m m' : Memory} {h : Heap} : Heap.create config m = .ok (h, m') → m'.Regular →
      Tended ⟨h, m'⟩
  | done {w w' : World} {op : Operation} : Tended w → (op.collects = true → w.RootsOutside) →
      op.run w = .ok () w' → Tended w'
  | refused {w w' : World} {op : Operation} {e : HeapError} : Tended w → (op.collects = true → w.RootsOutside) →
      op.run w = .error (.violation e) w' → Tended w'
  | program {w : World} {m' : Memory} : Tended w → m'.Regular →
      (∀ start ∈ w.heap.collector.engine.arenas, ∀ n, m'.holds start n = w.memory.holds start n) →
      (∀ p, w.Held p → m'.header (blockOf p) = w.memory.header (blockOf p)) → Tended { w with memory := m' }

namespace Tended

variable {w : World}

theorem reached (tended : Tended w) : Reached w := by
  induction tended with
  | create created regular => exact .create created regular
  | done _ _ ran ih => exact .done ih ran
  | refused _ _ ran ih => exact .refused ih ran
  | program _ regular same _ ih => exact .program ih regular same

theorem tidy (tended : Tended w) : w.Tidy := by
  induction tended with
  | create created regular => exact Heap.tidy_create created regular
  | done _ outside ran ih =>
    exact ((Heap.leaves_run World.upheld_true ⟨ih, fun _ => trivial⟩ _ outside).of_ok ran).tidy
  | refused _ outside ran ih =>
    exact ((Heap.leaves_run World.upheld_true ⟨ih, fun _ => trivial⟩ _ outside).of_refused ran).tidy
  | @program w m' _ regular same headers ih =>
    refine ⟨ih.charted.congr (fun _ _ type => type) regular same fun p holds => ?_, fun healthy => ?_,
      fun healthy p holds => ?_⟩
    · exact (ih.charted.legible p holds).akin (headers p holds)
    · have books := ih.books healthy
      exact ⟨regular, books.types, books.ledger.congr same⟩
    · show (m'.header (blockOf p)).check = _
      rw [headers p holds]
      exact ih.unmarked healthy p holds

/-- The action is a call where the roots are cells, or it writes into the payload of a held object or to a cell. -/
def Tends (w : World) : Action → Prop
  | .call _ => ∀ s ∈ w.heap.roots.slots, w.memory.isCell s = true
  | .write p a bytes => w.Held p ∧ p ≤ a ∧ a + bytes.size ≤ p + w.memory.payloadSize p
  | .setCell _ _ => True

instance (w : World) (a : Action) : Decidable (Tends w a) :=
  match a with
  | .call _ => inferInstanceAs (Decidable (∀ _ ∈ _, _))
  | .write _ _ _ => inferInstanceAs (Decidable (_ ∧ _ ∧ _))
  | .setCell _ _ => isTrue trivial

/-- What is written to a payload or to a cell leaves the arenas and the headers as they are. -/
theorem written {w' : World} {a : Action} (tended : Tended w) (tends : Tends w a) (ran : a.run w = .ok () w')
    (quiet : ∀ op, a ≠ .call op) : ∃ m', w' = { w with memory := m' } ∧ m'.Regular ∧
      (∀ start ∈ w.heap.collector.engine.arenas, ∀ n, m'.holds start n = w.memory.holds start n) ∧
      ∀ p, w.Held p → m'.header (blockOf p) = w.memory.header (blockOf p) := by
  have charted := tended.tidy.charted
  have shaped {m' : Memory} (shape : w.memory.SameShape m')
      (headers : ∀ p, w.Held p → m'.header (blockOf p) = w.memory.header (blockOf p)) :
      ∃ m₁, { w with memory := m' } = { w with memory := m₁ } ∧ m₁.Regular ∧
        (∀ start ∈ w.heap.collector.engine.arenas, ∀ n, m₁.holds start n = w.memory.holds start n) ∧
        ∀ p, w.Held p → m₁.header (blockOf p) = w.memory.header (blockOf p) :=
    ⟨m', rfl, charted.regular.of_sameShape shape, fun _ _ _ => shape.holds _ _, headers⟩
  cases a with
  | call op => exact absurd rfl (quiet op)
  | write p a bytes =>
    obtain ⟨holds, above, within⟩ := tends
    obtain ⟨inside, headers⟩ := charted.store_payload holds above within
    cases ran.symm.trans (Heap.access_ok (Access.guarded_ok inside))
    exact shaped (Memory.sameShape_store _ _ _) headers
  | setCell i v =>
    by_cases inside : w.memory.holdsSlot (.cell i) = true
    · cases ran.symm.trans (Heap.access_ok (Access.storeSlot_ok inside))
      exact shaped (Memory.sameShape_setSlot _ _ _) fun _ _ => rfl
    · simp only [Action.run, Heap.access, Access.storeSlot, inside] at ran
      cases ran

theorem of_play {config : Config} {cells : Nat} {actions : List Action}
    (ran : World.play Tends config cells actions = some w) : Tended w := by
  obtain ⟨first, started, ran⟩ := Option.bind_eq_some_iff.1 ran
  obtain ⟨created, regular⟩ := World.start_eq_some started
  refine World.follow_induction (fun w a w' tended allowed outcome => ?_) (.create created regular) ran
  have tends := of_decide_eq_true allowed
  have wrote (quiet : ∀ op, a ≠ .call op) : Tended w' := by
    obtain ⟨m', rfl, regular, same, headers⟩ := tended.written tends outcome quiet
    exact .program tended regular same headers
  cases a with
  | call op => exact .done tended (fun _ _ s root => Memory.isCell_iff.1 (tends s root)) outcome
  | write p a bytes => exact wrote nofun
  | setCell i v => exact wrote nofun

end Tended

end TracingHeap
