import TracingHeap.Proofs.Heap.WellFormed
import TracingHeap.Proofs.Relocation

/-! Collections of well-formed heaps. -/

set_option autoImplicit false

namespace TracingHeap

/-- The world after a collection. -/
def World.afterCollection (w : World) (report : CollectionReport) (e : Engine) (m : Memory) : World where
  heap := { w.heap with
    collector := { engine := e, layers := w.heap.collector.layers.map (Layer.recordCollection report) } }
  memory := m

variable {w : World} {report : CollectionReport} {e : Engine} {m : Memory} {f : Nat → Nat}

-- Only what can be reached is asked to be in order before the collection: the rest is not held afterwards.
/-- Where exactly the new places of what can be reached are held, the heap is well-formed. -/
theorem World.wellFormed_of_relocation
    (typed : ∀ p, Reach w.heap.types w.heap.roots.slots w.memory p →
      ∃ d, w.heap.types.get? (w.memory.header (blockOf p)).typeId = some d ∧
        d.fixedSize ≤ w.memory.payloadSize p ∧ w.memory.payloadSize p ≤ largestPayload)
    (listed : ∀ p, Reach w.heap.types w.heap.roots.slots w.memory p →
      ∃ slots, w.heap.types.tracedSlots w.memory p = .ok slots)
    (outside : ∀ s ∈ w.heap.roots.slots, ∃ i, s = .cell i ∧ i < w.memory.cells.size)
    (relocation : Relocation w.heap.types w.heap.roots.slots w.memory m f)
    (held : ∀ q, e.Held q ↔ ∃ p, Reach w.heap.types w.heap.roots.slots w.memory p ∧ f p = q) (fits : e.Fits m) :
    (w.afterCollection report e m).WellFormed := by
  -- A reference that can be followed from the roots leads to an object that survives.
  have leads (word : Nat) (reach : word ≠ 0 → Reach w.heap.types w.heap.roots.slots w.memory word) :
      (w.afterCollection report e m).IsReference (relocated f word) := by
    unfold relocated
    split
    · exact .inl rfl
    · next value => exact .inr ((held _).2 ⟨word, reach value, rfl⟩)
  constructor
  case unmarked =>
    intro q holds
    obtain ⟨p, reach, rfl⟩ := (held q).1 holds
    exact relocation.unmarked p reach
  case typed =>
    intro q holds
    obtain ⟨p, reach, rfl⟩ := (held q).1 holds
    obtain ⟨d, type, fixed, small⟩ := typed p reach
    refine ⟨d, ?_, ?_, ?_⟩
    · show w.heap.types.get? (m.header (blockOf (f p))).typeId = _
      rw [relocation.type p reach, type]
    · show d.fixedSize ≤ m.payloadSize (f p)
      rw [relocation.size p reach]
      exact fixed
    · show m.payloadSize (f p) ≤ _
      rw [relocation.size p reach]
      exact small
  case fits => exact fits
  case references =>
    intro q holds
    obtain ⟨p, reach, rfl⟩ := (held q).1 holds
    obtain ⟨slots, found⟩ := listed p reach
    refine ⟨_, relocation.slots p reach slots found, fun a member => ?_⟩
    obtain ⟨old, within, rfl⟩ := List.mem_map.1 member
    show (w.afterCollection report e m).IsReference (m.word _)
    rw [relocation.word p reach slots found old within]
    exact leads _ fun value => .step reach found within value
  case outside =>
    intro s root
    obtain ⟨i, cell, below⟩ := outside s root
    exact ⟨i, cell, by rw [← relocation.shape.cells] at below; exact below⟩
  case roots =>
    intro s root
    show (w.afterCollection report e m).IsReference (m.slot s)
    rw [relocation.root s root]
    exact leads _ fun value => .root root value

/-- The books are in order after a collection, as they were before. -/
theorem World.Books.afterCollection (books : w.Books)
    (ran : Engine.collect w.heap.types w.heap.roots.slots (w.heap.collector.engine, w.memory) = .ok report (e, m)) :
    (w.afterCollection report e m).Books := by
  obtain ⟨ledger, shape⟩ := Engine.ledger_collect books.ledger books.regular ran
  exact ⟨books.regular.of_sameShape shape, books.types, ledger⟩

/-- The words in the roots and in the slots of all held objects that a collector follows. -/
def World.followedWords (w : World) : List Nat :=
  w.heap.types.followedWords w.heap.collector.engine.list w.memory ++ w.heap.roots.slots.map w.memory.slot

namespace Heap

/-- What the check of a heap reports if it passes. -/
def consistencyReport (w : World) : ConsistencyReport where
  objects := w.heap.collector.engine.list.length
  bytes := (w.heap.collector.engine.list.map w.memory.blockSize).sum
  references := (w.followedWords.filter (· ≠ 0)).length

/-- The check changes nothing. Where the headers are in order and the slots can be listed, it reports the first word that
is neither null nor an object, or passes. -/
theorem verify_eq (books : w.Books) (headed : w.Headed)
    (listed : ∀ p, w.heap.collector.engine.Held p → ∃ slots, w.heap.types.tracedSlots w.memory p = .ok slots) :
    verify w = match w.followedWords.find? (¬ w.IsReference ·) with
      | some word => .error (.corrupted word .danglingReference) w
      | none => .ok (consistencyReport w) w := by
  have checked := (headed.intact books).verify_eq (fun p => Engine.mem_list) listed headed.outside
  have stray : (fun word => word ≠ 0 && word ∉ w.heap.collector.engine.list) = fun word => ¬ w.IsReference word := by
    funext word
    rw [Bool.eq_iff_iff]
    simp [World.IsReference, Engine.mem_list]
  rw [stray] at checked
  simp only [verify, look, headed.objects_eq books, bind, Except.bind, checked, World.followedWords]
  cases List.find? _ _ <;> rfl

theorem verify_ok (books : w.Books) (formed : w.WellFormed) : verify w = .ok (consistencyReport w) w := by
  have consistent := formed.consistent books
  have none : w.followedWords.find? (¬ w.IsReference ·) = none := by
    refine List.find?_eq_none.2 fun word member => ?_
    rw [decide_eq_true_eq, Decidable.not_not]
    rcases List.mem_append.1 member with inner | root
    · obtain ⟨p, held, within⟩ := List.mem_flatMap.1 inner
      obtain ⟨a, place, rfl⟩ := List.mem_map.1 within
      have holds := Engine.mem_list.1 held
      obtain ⟨slots, listed, references⟩ := formed.references p holds
      obtain ⟨rfl, -⟩ := consistent.toIntact.eq_visited holds listed
      exact references a place
    · obtain ⟨s, registered, rfl⟩ := List.mem_map.1 root
      exact formed.roots s registered
  rw [verify_eq books formed.headed consistent.listed, none]

theorem runCollector_ok
    (ran : Engine.collect w.heap.types w.heap.roots.slots (w.heap.collector.engine, w.memory) = .ok report (e, m)) :
    poisoning runCollector w = .ok report (w.afterCollection report e m) := by
  simp only [poisoning, runCollector, Collector.collect, ran]
  rfl

-- With the check of the heap turned on, a collection is followed by one, which passes.
theorem runCollection_ok (books : w.Books)
    (ran : Engine.collect w.heap.types w.heap.roots.slots (w.heap.collector.engine, w.memory) = .ok report (e, m))
    (formed : (w.afterCollection report e m).WellFormed) :
    runCollection w = .ok report (w.afterCollection report e m) := by
  have collected := runCollector_ok ran
  unfold runCollection
  rw [run_bind collected]
  rw [run_bind_get]
  split
  · have checked := verify_ok (books.afterCollection ran) formed
    have quiet : poisoning verify (w.afterCollection report e m) =
        .ok (consistencyReport (w.afterCollection report e m)) (w.afterCollection report e m) := by
      simp only [poisoning, checked]
    rw [run_bind quiet]
    rfl
  · rfl

theorem checkPoisoned_ok (healthy : w.heap.poisoned = none) : checkPoisoned w = .ok () w := by
  simp only [checkPoisoned, healthy]

theorem checkPoisoned_poisoned {x : HeapError} (poisoned : w.heap.poisoned = some x) :
    checkPoisoned w = .error (.violation x) w := by
  simp only [checkPoisoned, poisoned]

/-- What a poisoned heap refuses has only succeeded on a heap that is not poisoned. -/
theorem healthy_of_ok {α : Type} {next : HeapM α} {a : α} {w' : World}
    (ran : (checkPoisoned >>= fun _ => next) w = .ok a w') : w.heap.poisoned = none := by
  by_contra poisoned
  obtain ⟨e, poisoned⟩ := Option.ne_none_iff_exists'.1 poisoned
  cases ran.symm.trans (run_bind_error (checkPoisoned_poisoned poisoned))

theorem collect_eq (healthy : w.heap.poisoned = none) : collect w = runCollection w := by
  rw [collect, run_bind (checkPoisoned_ok healthy)]

/-- What a collection that fails leaves behind. -/
theorem collect_error_eq {x : HeapError} (healthy : w.heap.poisoned = none)
    (failed : Engine.collect w.heap.types w.heap.roots.slots (w.heap.collector.engine, w.memory) =
      .error (.violation x) (e, m)) :
    collect w = .error (.violation x)
      ⟨{ w.heap with collector := ⟨e, w.heap.collector.layers⟩, poisoned := some x }, m⟩ := by
  have ran : Collector.collect w.heap.types w.heap.roots.slots (w.heap.collector, w.memory) =
      .error (.violation x) (⟨e, w.heap.collector.layers⟩, m) := by
    simp only [Collector.collect, failed]
  have collected : poisoning runCollector w = .error (.violation x)
      ⟨{ w.heap with collector := ⟨e, w.heap.collector.layers⟩, poisoned := some x }, m⟩ := by
    simp only [poisoning, runCollector, ran, violate, poison, healthy]
    rfl
  exact (collect_eq healthy).trans (run_bind_error collected)

/-- A collection that fails poisons the heap. -/
theorem collect_error {x : HeapError} (healthy : w.heap.poisoned = none)
    (failed : Engine.collect w.heap.types w.heap.roots.slots (w.heap.collector.engine, w.memory) =
      .error (.violation x) (e, m)) :
    ∃ w', collect w = .error (.violation x) w' ∧ w'.heap.poisoned = some x :=
  ⟨_, collect_error_eq healthy failed, rfl⟩

/-- Without the check of the heap, a collection does what the collector does. -/
theorem collect_unchecked (healthy : w.heap.poisoned = none) (unchecked : w.heap.config.verifyHeap = false)
    (ran : Engine.collect w.heap.types w.heap.roots.slots (w.heap.collector.engine, w.memory) = .ok report (e, m)) :
    collect w = .ok report (w.afterCollection report e m) := by
  have collected := runCollector_ok ran
  have skipped : ¬ (w.afterCollection report e m).heap.config.verifyHeap = true := by
    show ¬ w.heap.config.verifyHeap = true
    simp [unchecked]
  rw [collect_eq healthy, runCollection, run_bind collected, run_bind_get, if_neg skipped]
  rfl

theorem collect_ok (healthy : w.heap.poisoned = none) (books : w.Books)
    (ran : Engine.collect w.heap.types w.heap.roots.slots (w.heap.collector.engine, w.memory) = .ok report (e, m))
    (formed : (w.afterCollection report e m).WellFormed) :
    collect w = .ok report (w.afterCollection report e m) := by
  rw [collect_eq healthy, runCollection_ok books ran formed]

end Heap

end TracingHeap
