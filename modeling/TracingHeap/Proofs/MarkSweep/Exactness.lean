import TracingHeap.Proofs.Heap.Collection
import TracingHeap.Proofs.Heap.Scripts

/-! A collection that does not move keeps exactly what can be reached. -/

set_option autoImplicit false

namespace TracingHeap.MarkSweep

variable {types : TypeTable} {roots : List Slot} {c c' : MarkSweep} {m m' : Memory}

/-- The block of an object that can be reached meets no dead block. -/
theorem not_dead (ledger : Ledger c) {b n : Nat} (record : c.records[b]? = some n)
    (reach : Reach types roots m (payloadOf b)) {a : Nat} (low : b ≤ a) (high : a < b + n) :
    ¬ Dead types roots c m a := by
  rintro ⟨b', n', record', lost, low', high'⟩
  rcases Nat.lt_trichotomy b b' with less | rfl | greater
  · have gap := ledger.apart _ _ _ _ record record' less
    omega
  · exact lost reach
  · have gap := ledger.apart _ _ _ _ record' record greater
    omega

theorem Collected.byte_eq (collected : Collected types roots c m c' m') (ledger : Ledger c) {b n : Nat}
    (record : c.records[b]? = some n) (reach : Reach types roots m (payloadOf b)) {a : Nat} (low : b ≤ a)
    (high : a < b + n) : m'.byte a = m.byte a := collected.kept a (not_dead ledger record reach low high)

theorem Collected.header_eq (collected : Collected types roots c m c' m') (ledger : Ledger c) (regular : m.Regular)
    (inside : m.holds c.start c.size = true) {b n : Nat} (record : c'.records[b]? = some n) :
    m'.header b = m.header b := by
  obtain ⟨old, reach⟩ := (collected.records b n).1 record
  obtain ⟨large, first, last⟩ := ledger.record b n old
  have front : m.holds b headerSize = true := Memory.holds_of_range regular inside first (by omega)
  exact Memory.header_stay regular collected.shape front fun i lt =>
    collected.byte_eq ledger old reach (Nat.le_add_right _ _) (by omega)

theorem Collected.owns_iff (collected : Collected types roots c m c' m')
    (known : ∀ p, Reach types roots m p → c.owns p = true) (p : Nat) : c'.owns p = true ↔ Reach types roots m p := by
  rw [MarkSweep.owns_iff]
  constructor
  · rintro ⟨low, n, record⟩
    have reach := ((collected.records _ _).1 record).2
    rwa [payloadOf_blockOf low] at reach
  · intro reach
    obtain ⟨low, n, record⟩ := MarkSweep.owns_iff.1 (known p reach)
    exact ⟨low, n, (collected.records _ _).2 ⟨record, by rwa [payloadOf_blockOf low]⟩⟩

theorem Collected.relocation (collected : Collected types roots c m c' m') (ledger : Ledger c)
    (known : ∀ p, Reach types roots m p → c.owns p = true) (consistent : Consistent types roots (Reach types roots m) m)
    (fits : (Engine.markSweep c).Fits m) (spans : ∀ p, c.owns p = true → headerSize + m.payloadSize p ≤ m.blockSize p) :
    Relocation types roots m m' id := by
  refine .of_same consistent collected.shape collected.cells fun p reach i lt => ?_
  have holds := known p reach
  obtain ⟨low, n, record⟩ := MarkSweep.owns_iff.1 holds
  refine collected.byte_eq ledger record (by rwa [payloadOf_blockOf low]) (Nat.le_add_right _ _) ?_
  exact Nat.add_lt_add_left (Nat.lt_of_lt_of_le lt (Nat.le_trans (spans p holds) (fits _ _ record).1)) _

/-- The blocks that are left are the marked ones. -/
theorem Collected.blocks_perm (collected : Collected types roots c m c' m') {marks : List Nat}
    (reach : ∀ p, p ∈ marks ↔ Reach types roots m p) : c'.blocks.Perm (c.live marks) := by
  refine (List.perm_ext_iff_of_nodup (nodup_blocks c') ((nodup_blocks c).filter _)).2 fun b => ?_
  rw [mem_blocks, collected.records, List.mem_filter, mem_blocks, decide_eq_true_iff, reach]

/-- The report counts the objects that are left. -/
theorem Collected.objectsLive (collected : Collected types roots c m c' m') {marks : List Nat}
    (reach : ∀ p, p ∈ marks ↔ Reach types roots m p) : (c.reportOf marks).objectsLive = c'.objects.length := by
  have same := (collected.blocks_perm reach).length_eq
  rw [blocks, List.length_map, Std.TreeMap.length_toList] at same
  rw [objects, List.length_map, Std.TreeMap.length_keys, same]
  rfl

theorem Collected.fits (collected : Collected types roots c m c' m') (relocation : Relocation types roots m m' id)
    (fits : (Engine.markSweep c).Fits m) : (Engine.markSweep c').Fits m' := by
  intro b n record
  obtain ⟨old, reach⟩ := (collected.records b n).1 record
  have size := relocation.size _ reach
  unfold Memory.payloadSize at size
  rw [id, blockOf_payloadOf] at size
  unfold Header.footprint
  rw [size]
  exact fits b n old

/-- Where the headers are in order, a collection that finds its survivors leaves a well-formed heap. -/
theorem collect_settles {w : World} (books : w.Books) (headed : w.Headed)
    (engine : w.heap.collector.engine = .markSweep c) {marks : List Nat}
    (found : c.survivors w.heap.types w.heap.roots.slots w.memory = .ok marks) : ∃ c' m',
      c.collect w.heap.types w.heap.roots.slots w.memory = .ok (c', c.reportOf marks) m' ∧
      Collected w.heap.types w.heap.roots.slots c w.memory c' m' ∧
      Relocation w.heap.types w.heap.roots.slots w.memory m' id ∧
      (w.afterCollection (c.reportOf marks) (.markSweep c') m').WellFormed := by
  have intact := headed.intact books
  have ledger := books.ledger
  have fits := headed.fits
  have spans (p : Nat) (holds : w.heap.collector.engine.Held p) := headed.spans holds
  have typed := headed.typed
  rw [engine] at intact ledger fits spans typed
  have spec := survivors_spec intact w.heap.roots.slots
  rw [found] at spec
  obtain ⟨reach, marksHeld, listed⟩ := spec
  have known (p : Nat) (led : Reach w.heap.types w.heap.roots.slots w.memory p) : c.owns p = true :=
    marksHeld p ((reach p).2 led)
  have listed (p : Nat) (led : Reach w.heap.types w.heap.roots.slots w.memory p) := listed p ((reach p).2 led)
  obtain ⟨c', m', ran, collected, -⟩ := collect_ok intact ledger.1 (Memory.readRoots_of_cells headed.outside) ledger.2 found
  have relocation := collected.relocation ledger.1 known (intact.reachable known listed headed.outside) fits spans
  have held (q : Nat) : (Engine.markSweep c').Held q ↔
      ∃ p, Reach w.heap.types w.heap.roots.slots w.memory p ∧ id p = q := by
    show c'.owns q = true ↔ _
    rw [collected.owns_iff known]
    simp
  exact ⟨c', m', ran, collected, relocation, World.wellFormed_of_relocation (fun p led => typed p (known p led)) listed
    headed.outside relocation held (collected.fits relocation fits)⟩

/-- One that does not find them fails as the search did. -/
theorem collect_stops {w : World} (books : w.Books) (headed : w.Headed)
    (engine : w.heap.collector.engine = .markSweep c) {x : Failure}
    (failed : c.survivors w.heap.types w.heap.roots.slots w.memory = .error x) :
    ∃ m', Engine.collect w.heap.types w.heap.roots.slots (w.heap.collector.engine, w.memory) = .error x (.markSweep c, m') := by
  have intact := headed.intact books
  rw [engine] at intact ⊢
  obtain ⟨m', -, ran, -⟩ := collect_error intact (Memory.readRoots_of_cells headed.outside) failed
  exact ⟨m', by simp only [Engine.collect, ran]⟩

/-- A well-formed heap can be collected, and is well-formed afterwards. -/
theorem collect_spec {w : World} (books : w.Books) (formed : w.WellFormed)
    (engine : w.heap.collector.engine = .markSweep c) : c.Ledger ∧ ∃ report c' m',
      c.collect w.heap.types w.heap.roots.slots w.memory = .ok (c', report) m' ∧
      Collected w.heap.types w.heap.roots.slots c w.memory c' m' ∧
      Relocation w.heap.types w.heap.roots.slots w.memory m' id ∧
      (w.afterCollection report (.markSweep c') m').WellFormed := by
  have consistent := formed.consistent books
  have ledger := books.ledger
  rw [engine] at consistent ledger
  obtain ⟨marks, found, -⟩ := survivors_ok consistent
  exact ⟨ledger.1, c.reportOf marks, collect_settles books formed.headed engine found⟩

/-- In every well-formed state that a heap can reach, a collection succeeds. The objects held afterwards are
those that could be reached; their blocks and the roots are as they were, and the other blocks are zeroed and
free. -/
theorem collect_keeps_reachable {w : World} {c : MarkSweep} (reached : Reached w) (healthy : w.heap.poisoned = none)
    (engine : w.heap.collector.engine = .markSweep c) (formed : w.WellFormed) :
    ∃ report w' c', Heap.collect w = .ok report w' ∧ w'.heap.collector.engine = .markSweep c' ∧ w'.WellFormed ∧
      w'.heap.poisoned = none ∧
      (∀ p, c'.owns p = true ↔ Reach w.heap.types w.heap.roots.slots w.memory p) ∧
      (∀ b n : Nat, c'.records[b]? = some n → c.records[b]? = some n ∧
        ∀ a, b ≤ a → a < b + n → w'.memory.byte a = w.memory.byte a) ∧
      (∀ s ∈ w.heap.roots.slots, w'.memory.slot s = w.memory.slot s) ∧
      ∀ b n : Nat, c.records[b]? = some n → ¬ Reach w.heap.types w.heap.roots.slots w.memory (payloadOf b) →
        ∀ a, b ≤ a → a < b + n → w'.memory.byte a = 0 ∧ Covers c'.free.blocks a := by
  have books := reached.orderly healthy
  have consistent := formed.consistent books
  rw [engine] at consistent
  obtain ⟨ledger, report, c', m', ran, collected, -, formed'⟩ := collect_spec books formed engine
  have stepped : Engine.collect w.heap.types w.heap.roots.slots (w.heap.collector.engine, w.memory)
      = .ok report (.markSweep c', m') := by
    rw [engine]
    simp only [Engine.collect, ran]
  refine ⟨report, _, c', Heap.collect_ok healthy books stepped formed', rfl, formed', healthy,
    collected.owns_iff fun p => consistent.held_of_reach, fun b n record => ?_, fun s root => ?_, fun b n record lost a low high => ?_⟩
  · obtain ⟨old, reach⟩ := (collected.records b n).1 record
    exact ⟨old, fun a low high => collected.byte_eq ledger old reach low high⟩
  · obtain ⟨i, rfl, -⟩ := formed.outside s root
    show m'.cells[i]?.getD 0 = w.memory.cells[i]?.getD 0
    rw [collected.cells]
  · have dead : Dead w.heap.types w.heap.roots.slots c w.memory a := ⟨b, n, record, lost, low, high⟩
    exact ⟨collected.zeroed a dead, (collected.free a).2 (.inl dead)⟩

/-- Of an array whose element is a reference to itself and one that nothing leads to, the first is kept. -/
theorem collect_keeps_loop : ∃ w c, Reached w ∧ w.heap.collector.engine = .markSweep c ∧
    c.objects = [Memory.origin + 24, Memory.origin + 64] ∧ w.memory.word (Memory.origin + 32) = Memory.origin + 24 ∧
    ∃ report w' c', Heap.collect w = .ok report w' ∧ w'.heap.collector.engine = .markSweep c' ∧
      (∀ p, c'.owns p = true ↔ Reach w.heap.types w.heap.roots.slots w.memory p) ∧
      ∀ s ∈ w.heap.roots.slots, w'.memory.slot s = w.memory.slot s := by
  have ran : ((World.play (fun w _ => w.heap.poisoned = none) { heapSize := 4096 } 1
      [.call (.register .references Descriptor.references_isWords), .call .pushRoot, .call (.addRoot ⟨0, 0⟩ (.cell 0)),
        .call (.allocateArray ⟨1⟩ 1), .setCell 0 (Memory.origin + 24), .call (.allocateArray ⟨1⟩ 0),
        .writeWord (Memory.origin + 24) 8 (Memory.origin + 24)]).any fun w =>
      w.onMarkSweep fun c => c.objects = [Memory.origin + 24, Memory.origin + 64] ∧
        w.memory.word (Memory.origin + 32) = Memory.origin + 24 ∧ w.heap.poisoned = none ∧ w.WellFormed) = true := by
    decide +kernel
  obtain ⟨w, played, shown⟩ := (Option.any_eq_true _ _).1 ran
  obtain ⟨c, engine, shown⟩ := World.onMarkSweep_eq_true.1 shown
  obtain ⟨objects, word, healthy, formed⟩ := of_decide_eq_true shown
  have reached := Reached.of_play played
  obtain ⟨report, w', c', collected, engine', -, -, owns, -, roots, -⟩ :=
    collect_keeps_reachable reached healthy engine formed
  exact ⟨w, c, reached, engine, objects, word, report, w', c', collected, engine', owns, roots⟩

end TracingHeap.MarkSweep
