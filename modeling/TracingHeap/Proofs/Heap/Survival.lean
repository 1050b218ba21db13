import TracingHeap.Proofs.Copying.Exactness
import TracingHeap.Proofs.Heap.Changes
import TracingHeap.Proofs.MarkSweep.Exactness

/-! What survives a collection, whichever collector is at work. -/

set_option autoImplicit false

namespace TracingHeap

namespace World

-- A second reference to an empty object that was copied last makes a collection fail, and the copy is not found
-- by its address afterwards.
/-- A heap that moves its objects holds none that is empty. -/
def Filled (w : World) : Prop :=
  w.heap.collector.engine.strategy = .copying → ∀ p, w.Held p → w.memory.isEmpty p = false

/-- A state from which a heap can go on. -/
structure Sound (w : World) : Prop where
  healthy : w.heap.poisoned = none
  books : w.Books
  formed : w.WellFormed
  filled : w.Filled

namespace Sound

variable {w : World} (sound : w.Sound)

include sound

theorem consistent : Consistent w.heap.types w.heap.roots.slots w.Held w.memory := sound.formed.consistent sound.books

/-- Types may be added, and slots that hold references may become roots. -/
theorem replace {types : TypeTable} {roots : RootStack} (checked : types.Checked)
    (grown : ∀ id d, w.heap.types.get? id = some d → types.get? id = some d)
    (fine : ∀ s ∈ roots.slots, s ∈ w.heap.roots.slots ∨
      (∃ i, s = .cell i ∧ i < w.memory.cells.size) ∧ w.IsReference (w.memory.slot s)) :
    Sound { w with heap := { w.heap with types := types, roots := roots } } where
  healthy := sound.healthy
  books := ⟨sound.books.regular, checked, sound.books.ledger⟩
  formed := sound.formed.replace sound.books grown fine
  filled := sound.filled

theorem setCell {i v : Nat} (reference : Slot.cell i ∈ w.heap.roots.slots → w.IsReference v) :
    Sound { w with memory := w.memory.setSlot (.cell i) v } where
  healthy := sound.healthy
  books :=
    have shape := Memory.sameShape_setSlot w.memory (.cell i) v
    ⟨sound.books.regular.of_sameShape shape, sound.books.types, sound.books.ledger.of_sameShape shape⟩
  formed := sound.formed.setCell sound.books reference
  filled := sound.filled

/-- The memory may change as long as the heap stays well-formed and the objects keep their sizes. -/
theorem setMemory {m : Memory} (shape : w.memory.SameShape m) (formed : WellFormed { w with memory := m })
    (sizes : ∀ p, w.Held p → m.payloadSize p = w.memory.payloadSize p) : Sound { w with memory := m } where
  healthy := sound.healthy
  books := ⟨sound.books.regular.of_sameShape shape, sound.books.types, sound.books.ledger.of_sameShape shape⟩
  formed := formed
  filled := by
    intro moves p held
    have full := sound.filled moves p held
    unfold Memory.isEmpty at full ⊢
    rw [sizes p held]
    exact full

/-- A held object that is not empty is known to a heap that moves its objects, and any held object to another. -/
theorem contains {p : Nat} (held : w.Held p) : w.heap.contains p = true := by
  cases engine : w.heap.collector.engine with
  | markSweep c =>
    rw [World.Held, engine] at held
    rw [Heap.contains, engine]
    exact held
  | leaky c =>
    rw [World.Held, engine] at held
    rw [Heap.contains, engine]
    exact held
  | copying c =>
    have full := sound.filled (by rw [engine]; rfl) p held
    have spans := sound.formed.spans held
    have fits := sound.formed.fits
    rw [World.Held, engine] at held
    rw [engine] at fits
    obtain ⟨first, last⟩ := Tiled.bounds fits (Std.TreeSet.mem_toList.2 held)
    have positive : 0 < w.memory.payloadSize p := by
      unfold Memory.isEmpty at full
      exact Nat.pos_of_ne_zero (of_decide_eq_false full)
    have within : c.spaces.active.contains p = true := by
      rw [Space.contains_iff]
      unfold payloadOf blockOf at *
      omega
    rw [Heap.contains, engine]
    show (c.spaces.active.contains p && c.resident.contains p) = true
    rw [within, held]
    rfl

theorem header_eq {p : Nat} (held : w.Held p) : w.heap.header w.memory p = .ok (w.memory.header (blockOf p)) := by
  simp only [Heap.header, sound.contains held, sound.consistent.readObject_eq held]
  rfl

end Sound

/-- The world after objects may have been moved or dropped. -/
structure Survives (w w' : World) (f : Nat → Nat) : Prop where
  sound : w'.Sound
  config : w'.heap.config = w.heap.config
  types : w'.heap.types = w.heap.types
  roots : w'.heap.roots = w.heap.roots
  strategy : w'.heap.collector.engine.strategy = w.heap.collector.engine.strategy
  relocation : Relocation w.heap.types w.heap.roots.slots w.memory w'.memory f
  held : ∀ p, Reach w.heap.types w.heap.roots.slots w.memory p → w'.Held (f p)
  within : ∀ a, w'.heap.collector.engine.Within a ↔ w.heap.collector.engine.Within a
  elsewhere : ∀ a, ¬ w.heap.collector.engine.Within a → w'.memory.byte a = w.memory.byte a

/-- Nothing has been written outside the arenas of the heap and the cells that are roots. -/
structure Spares (w w' : World) : Prop where
  byte : ∀ a, ¬ w.heap.collector.engine.Within a → w'.memory.byte a = w.memory.byte a
  cell : ∀ i, Slot.cell i ∉ w.heap.roots.slots → w'.memory.slot (.cell i) = w.memory.slot (.cell i)

theorem Survives.spares {w w' : World} {f : Nat → Nat} (survives : Survives w w' f) : Spares w w' :=
  ⟨survives.elsewhere, survives.relocation.cell⟩

/-- A state in which nothing has been moved or dropped. -/
theorem Sound.survives {w : World} (sound : w.Sound) : Survives w w id where
  sound := sound
  config := rfl
  types := rfl
  roots := rfl
  strategy := rfl
  relocation := .of_same sound.consistent (.refl _) rfl fun _ _ _ _ => rfl
  held := fun _ reach => sound.consistent.held_of_reach reach
  within := fun _ => Iff.rfl
  elsewhere := fun _ _ => rfl

end World

namespace Engine

variable {w : World}

-- What the three collectors have in common; the rest of a heap uses nothing else of them.
/-- The outcome of a collection that may have changed the engine and the memory. -/
structure Outcome (w : World) (report : CollectionReport) (e : Engine) (m : Memory) (f : Nat → Nat) : Prop where
  ran : Engine.collect w.heap.types w.heap.roots.slots (w.heap.collector.engine, w.memory) = .ok report (e, m)
  formed : (w.afterCollection report e m).WellFormed
  strategy : e.strategy = w.heap.collector.engine.strategy
  relocation : Relocation w.heap.types w.heap.roots.slots w.memory m f
  held : ∀ p, Reach w.heap.types w.heap.roots.slots w.memory p → e.Held (f p)
  old : ∀ q, e.Held q → ∃ p, w.Held p ∧ m.payloadSize q = w.memory.payloadSize p
  within : ∀ a, e.Within a ↔ w.heap.collector.engine.Within a
  elsewhere : ∀ a, ¬ w.heap.collector.engine.Within a → m.byte a = w.memory.byte a

theorem outcome_markSweep (books : w.Books) (formed : w.WellFormed) {c : MarkSweep}
    (engine : w.heap.collector.engine = .markSweep c) : ∃ report e m, Outcome w report e m id := by
  have consistent := formed.consistent books
  obtain ⟨ledger, report, c', m', ran, collected, relocation, formed'⟩ := MarkSweep.collect_spec books formed engine
  rw [engine] at consistent
  have owns := collected.owns_iff fun p => consistent.held_of_reach
  refine ⟨report, .markSweep c', m', ?_⟩
  constructor
  case ran =>
    rw [engine]
    simp only [Engine.collect, ran]
  case formed => exact formed'
  case strategy => rw [engine]; rfl
  case relocation => exact relocation
  case held => exact fun p reach => (owns p).2 reach
  case old =>
    intro q holds
    have reach := (owns q).1 holds
    refine ⟨q, ?_, relocation.size q reach⟩
    rw [World.Held, engine]
    exact consistent.held_of_reach reach
  case within =>
    intro a
    rw [engine]
    show c'.start ≤ a ∧ a < c'.start + c'.size ↔ _
    rw [collected.start, collected.size]
    rfl
  case elsewhere =>
    intro a out
    rw [engine] at out
    refine collected.kept a ?_
    rintro ⟨b, n, record, -, low, high⟩
    obtain ⟨-, first, last⟩ := ledger.record b n record
    exact out ⟨by omega, by omega⟩

/-- Where no object is empty there is an order of copying. -/
theorem copyOrder_of_filled (books : w.Books) (formed : w.WellFormed) (filled : w.Filled) (c : Copying)
    (engine : w.heap.collector.engine = .copying c) :
    ∃ l, copyOrder w.heap.types w.heap.roots.slots w.memory c.spaces.size = some l := by
  have full := filled (by rw [engine]; rfl)
  have order := (formed.consistent books).copyOrder_isSome full c.spaces.size
  exact Option.isSome_iff_exists.1 order

theorem outcome_copying (books : w.Books) (formed : w.WellFormed) {c : Copying}
    (engine : w.heap.collector.engine = .copying c) {l : List Nat}
    (order : copyOrder w.heap.types w.heap.roots.slots w.memory c.spaces.size = some l) :
    ∃ report e m f, Outcome w report e m f := by
  have spec := Copying.moves books engine (formed.rooted books engine)
  rw [order] at spec
  obtain ⟨c', m', ran, formed', moved⟩ := spec
  have held (q : Nat) : (Engine.copying c').Held q ↔
      ∃ p, Reach w.heap.types w.heap.roots.slots w.memory p ∧ copyOf c.spaces.reserve w.memory l p = q := by
    refine (moved.resident q).trans (exists_congr fun p => ?_)
    rw [moved.reach p]
  refine ⟨c.movedReport l (l.map w.memory.blockSize).sum, .copying c', m', copyOf c.spaces.reserve w.memory l, ?_⟩
  constructor
  case ran => exact ran
  case formed => exact formed'
  case strategy => rw [engine]; rfl
  case relocation => exact moved.relocation
  case held => exact fun p reach => (held _).2 ⟨p, reach, rfl⟩
  case old =>
    intro q holds
    obtain ⟨p, reach, rfl⟩ := (held q).1 holds
    exact ⟨p, (formed.consistent books).held_of_reach reach, moved.relocation.size p reach⟩
  case within =>
    intro a
    rw [engine]
    show (c'.spaces.active.start ≤ a ∧ a < c'.spaces.active.start + c'.spaces.size) ∨
      (c'.spaces.reserve.start ≤ a ∧ a < c'.spaces.reserve.start + c'.spaces.size) ↔ _
    rw [moved.spaces]
    exact or_comm
  case elsewhere =>
    intro a out
    rw [engine] at out
    obtain ⟨outActive, outReserve⟩ := not_or.1 out
    exact moved.elsewhere a (by omega) (by omega)

theorem outcome_leaky (books : w.Books) (formed : w.WellFormed) {c : Leaky}
    (engine : w.heap.collector.engine = .leaky c) : Outcome w c.report (.leaky c) w.memory id := by
  have consistent := formed.consistent books
  constructor
  case ran => rw [engine]; rfl
  case formed =>
    rw [← engine]
    refine .of_intact (fun q held => ?_) formed.fits fun s root => formed.root root
    exact formed.intact_of_same books (fun _ _ type => type) (.refl _) (fun _ held => held) held fun _ _ => rfl
  case strategy => rw [engine]
  case relocation => exact .of_same consistent (.refl _) rfl fun _ _ _ _ => rfl
  case held =>
    rw [← engine]
    exact fun p reach => consistent.held_of_reach reach
  case old =>
    rw [← engine]
    exact fun q holds => ⟨q, holds, rfl⟩
  case within => rw [engine]; exact fun _ => Iff.rfl
  case elsewhere => exact fun _ _ => rfl

/-- A collection succeeds where the objects that it moves have an order. -/
theorem outcome (books : w.Books) (formed : w.WellFormed)
    (ordered : ∀ c, w.heap.collector.engine = .copying c →
      ∃ l, copyOrder w.heap.types w.heap.roots.slots w.memory c.spaces.size = some l) :
    ∃ report e m f, Outcome w report e m f := by
  cases engine : w.heap.collector.engine with
  | markSweep c =>
    obtain ⟨report, e, m, outcome⟩ := outcome_markSweep books formed engine
    exact ⟨report, e, m, id, outcome⟩
  | copying c =>
    obtain ⟨l, order⟩ := ordered c engine
    exact outcome_copying books formed engine order
  | leaky c => exact ⟨c.report, _, _, id, outcome_leaky books formed engine⟩

end Engine

/-- A collection of a sound heap succeeds. What can be reached survives it. -/
theorem Heap.runCollection_spec {w : World} (sound : w.Sound) :
    ∃ report w' f, runCollection w = .ok report w' ∧ w.Survives w' f := by
  obtain ⟨report, e, m, f, outcome⟩ := Engine.outcome sound.books sound.formed
    (Engine.copyOrder_of_filled sound.books sound.formed sound.filled)
  refine ⟨report, _, f, runCollection_ok sound.books outcome.ran outcome.formed, ?_⟩
  constructor
  case sound =>
    refine ⟨sound.healthy, sound.books.afterCollection outcome.ran, outcome.formed, fun moves q holds => ?_⟩
    obtain ⟨p, old, size⟩ := outcome.old q holds
    have full := sound.filled (outcome.strategy.symm.trans moves) p old
    unfold Memory.isEmpty at full ⊢
    show decide (m.payloadSize q = 0) = false
    rw [size]
    exact full
  case config => rfl
  case types => rfl
  case roots => rfl
  case strategy => exact outcome.strategy
  case relocation => exact outcome.relocation
  case held => exact outcome.held
  case within => exact outcome.within
  case elsewhere => exact outcome.elsewhere

theorem Heap.collect_spec {w : World} (sound : w.Sound) :
    ∃ report w' f, collect w = .ok report w' ∧ w.Survives w' f := by
  obtain ⟨report, w', f, ran, survives⟩ := runCollection_spec sound
  exact ⟨report, w', f, (collect_eq sound.healthy).trans ran, survives⟩

/-- If a collection of a well-formed heap succeeds, the heap is well-formed afterwards. -/
theorem Heap.formed_of_runCollection {w w' : World} {report : CollectionReport} (books : w.Books)
    (healthy : w.heap.poisoned = none) (formed : w.WellFormed) (ran : runCollection w = .ok report w') :
    (∃ e m, w' = w.afterCollection report e m) ∧ w'.Books ∧ w'.WellFormed := by
  cases engine : w.heap.collector.engine with
  | markSweep c =>
    obtain ⟨report', e, m, outcome⟩ := Engine.outcome_markSweep books formed engine
    cases ran.symm.trans (runCollection_ok books outcome.ran outcome.formed)
    exact ⟨⟨e, m, rfl⟩, books.afterCollection outcome.ran, outcome.formed⟩
  | copying c =>
    rw [← collect_eq healthy] at ran
    have rooted := formed.rooted books engine
    cases order : copyOrder w.heap.types w.heap.roots.slots w.memory c.spaces.size with
    | none =>
      obtain ⟨p, target, w₁, failed, -⟩ := Copying.collect_stuck books engine rooted healthy order
      cases ran.symm.trans failed
    | some l =>
      obtain ⟨report', c', m', collected, -, books', formed', -⟩ :=
        Copying.collect_rooted books engine rooted healthy order
      cases ran.symm.trans collected
      exact ⟨⟨_, _, rfl⟩, books', formed'⟩
  | leaky c =>
    have outcome := Engine.outcome_leaky books formed engine
    cases ran.symm.trans (runCollection_ok books outcome.ran outcome.formed)
    exact ⟨⟨_, _, rfl⟩, books.afterCollection outcome.ran, outcome.formed⟩

end TracingHeap
