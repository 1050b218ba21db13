import TracingHeap.Proofs.Heap.Conduct
import TracingHeap.Proofs.Program.Represents
import TracingHeap.Proofs.Program.Run

/-! A heap does what its store does.

Each command leaves the heap representing the store, or the heap has run out of memory. -/

set_option autoImplicit false

namespace TracingHeap

open Heap

namespace Store

variable {s s' : Store} {x offset : Nat} {v : Value} {seen : Observation}

theorem reference_eq_some : s.reference x = some v ↔ s.cells[x]? = some v ∧ v.IsReference := by
  rw [reference, Option.filter_eq_some_iff, decide_eq_true_eq]

theorem held_eq_some {o : Nat} {obj : Object} :
    s.held x = some (o, obj) ↔ s.cells[x]? = some (.object o) ∧ s.objects[o]? = some obj := by
  unfold held
  split
  · next o' cell =>
    rw [cell, Option.map_eq_some_iff]
    constructor
    · rintro ⟨obj', found, same⟩
      cases same
      exact ⟨rfl, found⟩
    · rintro ⟨same, found⟩
      cases same
      exact ⟨obj, found, rfl⟩
  · next other => exact ⟨fun none => (nomatch none), fun ⟨cell, _⟩ => (other o cell).elim⟩

theorem valueAt_eq_some : s.valueAt x offset = some v ↔ ∃ o obj, s.held x = some (o, obj) ∧ obj.Has offset ∧
    obj.word (headerSize + offset) = v := by
  unfold valueAt
  rw [Option.bind_eq_some_iff]
  constructor
  · rintro ⟨⟨o, obj⟩, held, value⟩
    dsimp only at value
    split at value
    · next has => exact ⟨o, obj, held, has, Option.some.inj value⟩
    · cases value
  · rintro ⟨o, obj, held, has, rfl⟩
    exact ⟨(o, obj), held, if_pos has⟩

theorem setCell_eq_some : s.setCell x v = some (seen, s') ↔ x < s.cells.size ∧ seen = .done ∧
    s' = { s with cells := s.cells.setIfInBounds x v } := by
  unfold setCell
  split
  · next below => simp [below, eq_comm]
  · next out => simp [out]

end Store

/-- A command has done on the heap what it does on the store. -/
def Follows (w : World) (ran : EStateM.Result Failure World Observation) (seen : Observation) (s : Store) : Prop :=
  ∃ w' placed, ran = .ok seen w' ∧ s.Represents w' placed ∧
    w'.heap.collector.engine.strategy = w.heap.collector.engine.strategy

theorem Follows.not_fails {w : World} {ran : EStateM.Result Failure World Observation} {seen : Observation} {s : Store}
    (follows : Follows w ran seen s) : ¬ Fails ran := by
  obtain ⟨w', placed, rfl, -⟩ := follows
  exact not_fails_ok _ _

/-- It has, or the heap has run out of memory. -/
def Followed (w : World) (ran : EStateM.Result Failure World Observation) (seen : Observation) (s : Store) : Prop :=
  Refused w ran ∨ Follows w ran seen s

/-- How large an object a command asks for. -/
def Store.demand (s : Store) : Command → Option Nat
  | .allocate id extra _ => (s.types.get? id).map fun d => d.fixedSize + extra
  | .allocateArray id count _ => (s.types.get? id).bind fun d => d.region.map fun r => d.fixedSize + count * r.elementSize
  | _ => none

namespace Store.Represents

variable {s s' : Store} {w w' : World} {placed : Nat → Nat → Prop} {o p x y offset word : Nat} {obj : Object}
  {d : Descriptor} {v : Value} {seen : Observation}

/-! ### Accesses -/

theorem loadCell (rep : s.Represents w placed) (found : s.cells[x]? = some v) :
    access (Access.loadSlot (.cell x)) w = .ok (w.memory.slot (.cell x)) w := by
  have below := (Array.getElem?_eq_some_iff.1 found).1
  have holds : w.memory.holdsSlot (.cell x) = true := by
    simp only [Memory.holdsSlot, rep.width, below, decide_true]
  have loaded : Access.loadSlot (.cell x) w.memory = .ok (w.memory.slot (.cell x)) w.memory :=
    Access.look_ok (by simp only [Memory.readSlot, holds, if_true])
  simp only [access, loaded]

theorem storeCell (rep : s.Represents w placed) (below : x < s.cells.size) :
    access (Access.storeSlot (.cell x) word) w = .ok () { w with memory := w.memory.setSlot (.cell x) word } := by
  have holds : w.memory.holdsSlot (.cell x) = true := by
    simp only [Memory.holdsSlot, rep.width, below, decide_true]
  simp only [access, Access.storeSlot_ok holds]

/-- The object that a cell refers to. -/
theorem deref (rep : s.Represents w placed) (held : s.held x = some (o, obj)) :
    access (Access.loadSlot (.cell x)) w = .ok (w.memory.slot (.cell x)) w ∧ placed o (w.memory.slot (.cell x)) ∧
      s.objects[o]? = some obj ∧ ∃ d, obj.At s.types placed w.memory (w.memory.slot (.cell x)) d := by
  obtain ⟨cell, found⟩ := held_eq_some.1 held
  have here : placed o (w.memory.slot (.cell x)) := rep.cell x _ cell
  obtain ⟨obj', d, found', at'⟩ := rep.object o _ here
  cases found.symm.trans found'
  exact ⟨rep.loadCell cell, here, found, d, at'⟩

/-- A word of an object is where its offset says. -/
theorem address (rep : s.Represents w placed) (here : placed o p) (at' : obj.At s.types placed w.memory p d)
    (has : obj.Has offset) : slotAt p offset = blockOf p + (headerSize + offset) ∧
      w.memory.holds (slotAt p offset) wordSize = true ∧ wordSize ∣ headerSize + offset ∧
      headerSize + offset + wordSize ≤ headerSize + obj.size := by
  obtain ⟨whole, within⟩ := has
  have held := rep.held o p here
  have low := rep.sound.consistent.low held
  have room := rep.sound.consistent.inside held
  have below := Memory.holds_lt rep.sound.books.regular room
  have size : w.memory.payloadSize p = obj.size := at'.size
  have address : slotAt p offset = blockOf p + (headerSize + offset) := by
    unfold slotAt
    rw [Word.wrap_of_lt (by unfold blockOf at *; omega)]
    unfold blockOf
    omega
  refine ⟨address, ?_, ?_, by omega⟩
  · rw [address]
    exact Memory.holds_sub rep.sound.books.regular room _ wordSize (by omega)
  · unfold headerSize wordSize at *
    omega

theorem loadValue (rep : s.Represents w placed) (value : s.valueAt x offset = some v) :
    access (Access.loadSlot (.cell x)) w = .ok (w.memory.slot (.cell x)) w ∧ ∃ word,
      access (Access.loadWord (slotAt (w.memory.slot (.cell x)) offset)) w = .ok word w ∧ Denotes placed word v := by
  obtain ⟨o, obj, held, has, rfl⟩ := valueAt_eq_some.1 value
  obtain ⟨loaded, here, -, d, at'⟩ := rep.deref held
  obtain ⟨address, holds, whole, within⟩ := rep.address here at' has
  refine ⟨loaded, w.memory.word (slotAt (w.memory.slot (.cell x)) offset), ?_, ?_⟩
  · simp only [access, Access.loadWord_ok holds]
  · rw [address]
    exact at'.word _ (Nat.le_trans (by decide) (Nat.le_add_right headerSize offset)) whole within

/-! ### Commands -/

theorem follow_register (rep : s.Represents w placed) {rule : Rule} {words : d.IsWords}
    (stepped : s.step rule (.register d words) = some (seen, s')) :
    Follows w ((Command.register d words).run w) seen s' := by
  unfold step at stepped
  have attempted {r : Except Failure TypeId} {w' : World} (ran : attempt (Heap.register d) w = .ok r w') :
      (Command.register d words).run w = .ok (.registered r.toOption) w' := by
    rw [Command.run, run_bind ran]
    cases r <;> rfl
  cases registered : s.types.register d with
  | error e =>
    simp only [registered] at stepped
    cases stepped
    have refused := register_error (w := w) (rep.types ▸ registered)
    exact ⟨w, placed, attempted (r := .error (.violation e)) (by simp only [attempt, refused]), rep, rfl⟩
  | ok pair =>
    simp only [registered] at stepped
    cases stepped
    have accepted := register_ok (w := w) (rep.types ▸ registered)
    have checked := (rep.types ▸ rep.sound.books.types : s.types.Checked).register words registered
    have rep' := rep.retype pair.2 checked fun _ _ known => TypeTable.get?_register registered known
    exact ⟨_, placed, attempted (r := .ok pair.1) (by simp only [attempt, accepted]), rep', rfl⟩

theorem follow_roots (rep : s.Represents w placed) (change : RootStack → Except RootViolation RootStack)
    {roots : RootStack} (changed : change s.roots = .ok roots)
    (fine : ∀ t ∈ roots.slots, t ∈ s.roots.slots ∨ ∃ x v, t = .cell x ∧ s.cells[x]? = some v ∧ v.IsReference) :
    Follows w ((do changeRoots change; return .done : HeapM Observation) w) .done { s with roots := roots } := by
  have ran := changeRoots_ok (w := w) (rep.roots ▸ changed)
  exact ⟨_, placed, run_bind ran, rep.reroot roots fine, rfl⟩

theorem follow_collect (rep : s.Represents w placed) : Follows w (Command.collect.run w) .done s.forget := by
  obtain ⟨report, w', f, collected, survives⟩ := collect_spec rep.sound
  exact ⟨w', _, run_bind collected, rep.survive survives, survives.strategy⟩

-- Objects and arrays differ in the words of the new object; `spec` is what either of them promises.
/-- A request that is served leads to a new object in both worlds. -/
theorem follow_request (rep : s.Represents w placed) {request : HeapM Nat} {id : TypeId} {size : Nat} {words : Nat → Nat}
    (known : s.types.get? id = some d)
    (spec : Refused w (request w) ∨ ∃ w₁ f p w', w.closed.Survives w₁ f ∧ size ≤ largestPayload ∧
      w₁.Admits w' id size words p ∧ request w = .ok p w')
    (orderly : d.Sound → Object.Orderly d ⟨id, size, fun k => .number (words k)⟩)
    (entered : s.close.forget.enter id size words x = some (seen, s'))
    (full : w.heap.collector.engine.strategy = .copying → ∀ obj ∈ s'.objects, 0 < obj.size) :
    let command : HeapM Observation := do
      let obj ← request
      access (Access.storeSlot (.cell x) obj)
      return .done
    (Fails (request w) ∧ Refused w (command w)) ∨ ¬ Fails (request w) ∧ Follows w (command w) seen s' := by
  obtain ⟨below, rfl, rfl⟩ := setCell_eq_some.1 entered
  rcases spec with ⟨strategy, requested, free, w', ran, spares⟩ | ⟨w₁, f, p, w', survives, -, admits, ran⟩
  · exact .inl ⟨ran ▸ fails_error .., refused_bind ⟨strategy, requested, free, w', ran, spares⟩⟩
  · have closed : w.closed = { w with heap := { w.heap with types := s.types.close } } := by rw [World.closed, rep.types]
    have checked : s.types.Checked := rep.types ▸ rep.sound.books.types
    have rep₀ := rep.retype s.types.close checked fun _ _ known => known
    rw [← closed] at rep₀
    have rep₁ := rep₀.survive survives
    have strategy : w'.heap.collector.engine.strategy = w.heap.collector.engine.strategy :=
      admits.strategy.trans survives.strategy
    have sound := admits.sound survives.sound fun moves =>
      full (survives.strategy.symm.trans moves) _ (Array.mem_push_self ..)
    have type : w₁.heap.types.get? id = some d := by
      rw [rep₁.types]
      exact known
    obtain ⟨count, outline⟩ := admits.outline type
    have rep₂ := rep₁.enter admits sound known (orderly outline.sound)
    have rep₃ := rep₂.setCell below (v := .object _) (.inr ⟨rfl, rfl⟩) trivial
    refine .inr ⟨ran ▸ not_fails_ok _ _, _, _, ?_, rep₃, strategy⟩
    rw [run_bind ran, run_bind (rep₂.storeCell below)]
    rfl

theorem orderly_zero {id : TypeId} {size : Nat} : Object.Orderly d ⟨id, size, fun _ => .number 0⟩ :=
  ⟨fun _ _ => Nat.zero_le _, fun _ _ => rfl⟩

/-- An array has room for its elements, and they are null. -/
theorem orderly_array (sound : d.Sound) {id : TypeId} {r : Region} {count : Nat} (region : d.region = some r) :
    Object.Orderly d ⟨id, d.fixedSize + count * r.elementSize,
      fun k => .number (patch (placeOf r.countOffset) count (fun _ => 0) k)⟩ := by
  constructor
  · intro r' region'
    cases region.symm.trans region'
    show patch _ count (fun _ => 0) _ ≤ d.capacity r (d.fixedSize + count * r.elementSize)
    rw [patch, if_pos rfl, Descriptor.capacity_of_array sound region]
  · intro k place
    show patch _ count (fun _ => 0) k = 0
    rw [patch, if_neg]
    rintro rfl
    exact Descriptor.count_notMem_places sound region _ place

theorem follow_setCell (rep : s.Represents w placed) (stored : s.setCell x v = some (seen, s'))
    (denotes : Denotes placed word v) (reference : v.IsReference) :
    Follows w ((do
      access (Access.storeSlot (.cell x) word)
      return .done : HeapM Observation) w) seen s' := by
  obtain ⟨below, rfl, rfl⟩ := setCell_eq_some.1 stored
  exact ⟨_, placed, run_bind (rep.storeCell below), rep.setCell below denotes reference, rfl⟩

theorem follow_write (rep : s.Represents w placed) (written : s.write Rule.orderly x offset v = some (seen, s'))
    (denotes : Denotes placed word v) (isWord : word < wordLimit) :
    access (Access.loadSlot (.cell x)) w = .ok (w.memory.slot (.cell x)) w ∧
      Follows w ((do
        access (Access.storeWord (slotAt (w.memory.slot (.cell x)) offset) word)
        return .done : HeapM Observation) w) seen s' := by
  obtain ⟨⟨o, obj⟩, held, later⟩ := Option.bind_eq_some_iff.1 written
  obtain ⟨d, known, stored⟩ := Option.bind_eq_some_iff.1 later
  obtain ⟨loaded, here, found, d', at'⟩ := rep.deref held
  cases known.symm.trans at'.known
  split at stored
  · next allowed =>
    cases stored
    obtain ⟨address, -, whole, within⟩ := rep.address here at' allowed.1
    obtain ⟨holds, rep'⟩ := rep.put here found at' (Nat.le_trans (by decide) (Nat.le_add_right headerSize offset)) whole
      within (Rule.orderly_iff.1 allowed.2) denotes isWord
    rw [← address] at holds rep'
    have ran : access (Access.storeWord (slotAt (w.memory.slot (.cell x)) offset) word) w =
        .ok () { w with memory := w.memory.setWord (slotAt (w.memory.slot (.cell x)) offset) word } := by
      have stored := Access.guarded_ok holds (f := fun m => m.setWord (slotAt (w.memory.slot (.cell x)) offset) word)
      simp only [access, Access.storeWord, stored]
    exact ⟨loaded, _, placed, run_bind ran, rep', rfl⟩
  · cases stored

theorem isWord (rep : s.Represents w placed) (denotes : Denotes placed word v) (reference : v.IsReference) :
    word < wordLimit := by
  rcases rep.isReference denotes reference with rfl | held
  · decide
  · have room := rep.sound.consistent.inside held
    have below := Memory.holds_lt rep.sound.books.regular room
    unfold blockOf at below
    omega

-- This is where the placement has to be functional and injective.
/-- Equal references are equal words. -/
theorem eq_iff (rep : s.Represents w placed) {u : Value} {word' : Nat} (denotes : Denotes placed word v)
    (denotes' : Denotes placed word' u) (reference : v.IsReference) (reference' : u.IsReference) :
    word = word' ↔ v = u := by
  cases v with
  | stale => exact reference.elim
  | number n =>
    cases u with
    | stale => exact reference'.elim
    | number n' => rw [denotes, denotes', Value.number.injEq]
    | object o =>
      have value := rep.pos_of_placed denotes'
      have null : word = 0 := denotes.trans reference
      exact ⟨fun same => absurd (same.symm.trans null) value, fun same => (nomatch same)⟩
  | object o =>
    cases u with
    | stale => exact reference'.elim
    | number n =>
      have value := rep.pos_of_placed denotes
      have null : word' = 0 := denotes'.trans reference'
      exact ⟨fun same => absurd (same.trans null) value, fun same => (nomatch same)⟩
    | object o' =>
      rw [Value.object.injEq]
      exact ⟨fun same => rep.injective o o' word denotes (same ▸ denotes'),
        fun same => rep.functional o word word' denotes (same ▸ denotes')⟩

theorem follow_typeOf (rep : s.Represents w placed) (held : s.held x = some (o, obj)) :
    Follows w ((Command.typeOf x).run w) (.type obj.type) s := by
  obtain ⟨loaded, here, -, d, at'⟩ := rep.deref held
  have read : Heap.typeOf (w.memory.slot (.cell x)) w = .ok obj.type w := by
    simp only [Heap.typeOf, look, rep.sound.header_eq (rep.held o _ here), bind, Except.bind, at'.type]
    rfl
  refine ⟨w, placed, ?_, rep, rfl⟩
  rw [Command.run, run_bind loaded, run_bind read]
  rfl

theorem follow_payloadSize (rep : s.Represents w placed) (held : s.held x = some (o, obj)) :
    Follows w ((Command.payloadSize x).run w) (.number obj.size) s := by
  obtain ⟨loaded, here, -, d, at'⟩ := rep.deref held
  have size : (w.memory.header (blockOf (w.memory.slot (.cell x)))).size = obj.size := at'.size
  have read : Heap.payloadSize (w.memory.slot (.cell x)) w = .ok obj.size w := by
    simp only [Heap.payloadSize, look, rep.sound.header_eq (rep.held o _ here), bind, Except.bind, size]
    rfl
  refine ⟨w, placed, ?_, rep, rfl⟩
  rw [Command.run, run_bind loaded, run_bind read]
  rfl

theorem follow_pushRoot (rep : s.Represents w placed) :
    Follows w (Command.pushRoot.run w) (.handle s.roots.push.1) { s with roots := s.roots.push.2 } := by
  have rep' := rep.reroot s.roots.push.2 fun t root => .inl (RootStack.mem_slots_push.1 root)
  rw [← rep.roots] at rep' ⊢
  exact ⟨_, placed, rfl, rep', rfl⟩

theorem follow_popRoot (rep : s.Represents w placed) {rule : Rule} {handle : RootHandle}
    (stepped : s.step rule (.popRoot handle) = some (seen, s')) :
    Follows w ((Command.popRoot handle).run w) seen s' := by
  cases popped : s.roots.pop handle with
  | error e =>
    simp only [step, popped] at stepped
    cases stepped
  | ok roots =>
    simp only [step, popped] at stepped
    cases stepped
    exact rep.follow_roots (fun roots => roots.pop handle) popped fun t root =>
      .inl (RootStack.mem_slots_pop popped root)

theorem follow_addRoot (rep : s.Represents w placed) {rule : Rule} {handle : RootHandle}
    (stepped : s.step rule (.addRoot handle x) = some (seen, s')) :
    Follows w ((Command.addRoot handle x).run w) seen s' := by
  obtain ⟨v, known, later⟩ := Option.bind_eq_some_iff.1 stepped
  obtain ⟨cell, reference⟩ := reference_eq_some.1 known
  cases added : s.roots.add handle (.cell x) with
  | error e =>
    simp only [added] at later
    cases later
  | ok roots =>
    simp only [added] at later
    cases later
    apply rep.follow_roots (fun roots => roots.add handle (.cell x)) added
    intro t root
    rcases RootStack.mem_slots_add added root with rfl | old
    · exact .inr ⟨x, v, rfl, cell, reference⟩
    · exact .inl old

theorem follow_addGlobal (rep : s.Represents w placed) (known : s.reference x = some v) :
    Follows w ((Command.addGlobal x).run w) .done { s with roots := s.roots.addGlobal (.cell x) } := by
  obtain ⟨cell, reference⟩ := reference_eq_some.1 known
  apply rep.follow_roots (fun roots => .ok (roots.addGlobal (.cell x))) rfl
  intro t root
  rcases RootStack.mem_slots_addGlobal root with rfl | old
  · exact .inr ⟨x, v, rfl, cell, reference⟩
  · exact .inl old

theorem follow_load (rep : s.Represents w placed) {rule : Rule}
    (stepped : s.step rule (.load x offset y) = some (seen, s')) :
    Follows w ((Command.load x offset y).run w) seen s' := by
  obtain ⟨v, value, later⟩ := Option.bind_eq_some_iff.1 stepped
  obtain ⟨loaded, word, read, denotes⟩ := rep.loadValue value
  split at later
  · next reference =>
    rw [Command.run, run_bind loaded, run_bind read]
    exact rep.follow_setCell later denotes reference
  · cases later

theorem follow_store (rep : s.Represents w placed)
    (stepped : s.step Rule.orderly (.store x offset y) = some (seen, s')) :
    Follows w ((Command.store x offset y).run w) seen s' := by
  obtain ⟨v, known, written⟩ := Option.bind_eq_some_iff.1 stepped
  obtain ⟨cell, reference⟩ := reference_eq_some.1 known
  have denotes := rep.cell y v cell
  obtain ⟨loaded, followed⟩ := rep.follow_write written denotes (rep.isWord denotes reference)
  rw [Command.run, run_bind loaded, run_bind (rep.loadCell cell)]
  exact followed

theorem follow_read (rep : s.Represents w placed) {rule : Rule}
    (stepped : s.step rule (.read x offset) = some (seen, s')) :
    Follows w ((Command.read x offset).run w) seen s' := by
  obtain ⟨v, value, later⟩ := Option.bind_eq_some_iff.1 stepped
  obtain ⟨loaded, word, read, denotes⟩ := rep.loadValue value
  cases v with
  | number n =>
    cases later
    cases denotes
    refine ⟨w, placed, ?_, rep, rfl⟩
    rw [Command.run, run_bind loaded, run_bind read]
    rfl
  | object o => cases later
  | stale => cases later

theorem follow_isNull (rep : s.Represents w placed) (known : s.reference x = some v) :
    Follows w ((Command.isNull x).run w) (.answer (v = .null)) s := by
  obtain ⟨cell, reference⟩ := reference_eq_some.1 known
  have null := rep.eq_iff (rep.cell x v cell) (show Denotes placed 0 .null from rfl) reference rfl
  refine ⟨w, placed, ?_, rep, rfl⟩
  rw [Command.run, run_bind (rep.loadCell cell)]
  simp only [null]
  rfl

theorem follow_same (rep : s.Represents w placed) {u : Value} (known : s.reference x = some v)
    (known' : s.reference y = some u) : Follows w ((Command.same x y).run w) (.answer (v = u)) s := by
  obtain ⟨cell, reference⟩ := reference_eq_some.1 known
  obtain ⟨cell', reference'⟩ := reference_eq_some.1 known'
  have equal := rep.eq_iff (rep.cell x v cell) (rep.cell y u cell') reference reference'
  refine ⟨w, placed, ?_, rep, rfl⟩
  rw [Command.run, run_bind (rep.loadCell cell), run_bind (rep.loadCell cell')]
  simp only [equal]
  rfl

/-- A command that asks for no object does on the heap what it does on the store. -/
theorem follow_quiet (rep : s.Represents w placed) {c : Command} (stepped : s.step Rule.orderly c = some (seen, s'))
    (quiet : s.demand c = none) : Follows w (c.run w) seen s' := by
  cases c with
  | register d words => exact rep.follow_register stepped
  | pushRoot => cases stepped; exact rep.follow_pushRoot
  | popRoot handle => exact rep.follow_popRoot stepped
  | addRoot handle x => exact rep.follow_addRoot stepped
  | addGlobal x =>
    obtain ⟨v, known, same⟩ := Option.map_eq_some_iff.1 stepped
    cases same
    exact rep.follow_addGlobal known
  | allocate id extra x =>
    obtain ⟨d, known, -⟩ := Option.bind_eq_some_iff.1 stepped
    simp only [demand, known, Option.map_some, reduceCtorEq] at quiet
  | allocateArray id count x =>
    obtain ⟨d, known, later⟩ := Option.bind_eq_some_iff.1 stepped
    obtain ⟨r, region, -⟩ := Option.bind_eq_some_iff.1 later
    simp only [demand, known, region, Option.bind_some, Option.map_some, reduceCtorEq] at quiet
  | collect => cases stepped; exact rep.follow_collect
  | copy x y =>
    obtain ⟨v, known, stored⟩ := Option.bind_eq_some_iff.1 stepped
    obtain ⟨cell, reference⟩ := reference_eq_some.1 known
    rw [Command.run, run_bind (rep.loadCell cell)]
    exact rep.follow_setCell stored (rep.cell x v cell) reference
  | clear x => exact rep.follow_setCell stepped rfl rfl
  | load x offset y => exact rep.follow_load stepped
  | store x offset y => exact rep.follow_store stepped
  | read x offset => exact rep.follow_read stepped
  | write x offset n =>
    simp only [step] at stepped
    split at stepped
    · next small =>
      obtain ⟨loaded, followed⟩ := rep.follow_write stepped (show Denotes placed n (.number n) from rfl) small
      rw [Command.run, run_bind loaded]
      exact followed
    · cases stepped
  | isNull x =>
    obtain ⟨v, known, same⟩ := Option.map_eq_some_iff.1 stepped
    cases same
    exact rep.follow_isNull known
  | same x y =>
    obtain ⟨v, known, later⟩ := Option.bind_eq_some_iff.1 stepped
    obtain ⟨u, known', same⟩ := Option.map_eq_some_iff.1 later
    cases same
    exact rep.follow_same known known'
  | typeOf x =>
    obtain ⟨⟨o, obj⟩, held, same⟩ := Option.map_eq_some_iff.1 stepped
    cases same
    exact rep.follow_typeOf held
  | payloadSize x =>
    obtain ⟨⟨o, obj⟩, held, same⟩ := Option.map_eq_some_iff.1 stepped
    cases same
    exact rep.follow_payloadSize held

/-- Each command does on the heap what it does on the store. -/
theorem follow (rep : s.Represents w placed) {c : Command} (stepped : s.step Rule.orderly c = some (seen, s'))
    (full : w.heap.collector.engine.strategy = .copying → ∀ obj ∈ s'.objects, 0 < obj.size) :
    Followed w (c.run w) seen s' := by
  cases demanded : s.demand c with
  | none => exact .inr (rep.follow_quiet stepped demanded)
  | some size =>
    cases c with
    | allocate id extra x =>
      obtain ⟨d, known, entered⟩ := Option.bind_eq_some_iff.1 stepped
      exact (rep.follow_request known (allocate_spec rep.sound (rep.types ▸ known) extra) (fun _ => orderly_zero)
        entered full).imp And.right And.right
    | allocateArray id count x =>
      obtain ⟨d, known, later⟩ := Option.bind_eq_some_iff.1 stepped
      obtain ⟨r, region, entered⟩ := Option.bind_eq_some_iff.1 later
      exact (rep.follow_request known (allocateArray_spec rep.sound (rep.types ▸ known) region count)
        (fun sound => orderly_array sound region) entered full).imp And.right And.right
    | _ => cases demanded

end Store.Represents

end TracingHeap
