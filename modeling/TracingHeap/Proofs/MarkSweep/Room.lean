import TracingHeap.Proofs.Heap.Requests
import TracingHeap.Proofs.MarkSweep.Partition

/-! When a heap that does not move its objects runs out of memory.

After a collection the free blocks are the gaps between the blocks of the objects that can be reached. So a request
is refused exactly when it fits no gap, whatever has happened before. -/

set_option autoImplicit false

namespace TracingHeap

namespace MarkSweep

variable {types : TypeTable} {roots : List Slot} {c c' : MarkSweep} {m m' : Memory} {size low high : Nat}

/-- The address lies in the recorded block of an object that can be reached. -/
def Alive (types : TypeTable) (roots : List Slot) (c : MarkSweep) (m : Memory) (a : Nat) : Prop :=
  ∃ b n, c.records[b]? = some n ∧ Reach types roots m (payloadOf b) ∧ b ≤ a ∧ a < b + n

/-- A longest interval of the arena without a block of an object that can be reached. -/
def Gap (types : TypeTable) (roots : List Slot) (c : MarkSweep) (m : Memory) (low high : Nat) : Prop :=
  IsGap (Alive types roots c m) c.start (c.start + c.size) low high

theorem Collected.covers_free (collected : Collected types roots c m c' m') (complete : Complete c) (a : Nat) :
    Covers c'.free.blocks a ↔ (c.start ≤ a ∧ a < c.start + c.size) ∧ ¬ Alive types roots c m a := by
  rw [collected.free]
  constructor
  · rintro (⟨b, n, record, lost, low, high⟩ | free)
    · obtain ⟨-, first, last⟩ := complete.ledger.record b n record
      refine ⟨by omega, ?_⟩
      rintro ⟨b', n', record', reach, low', high'⟩
      exact not_dead complete.ledger record' reach low' high' ⟨b, n, record, lost, low, high⟩
    · refine ⟨complete.ledger.within a free, ?_⟩
      rintro ⟨b, n, record, -, low, high⟩
      exact complete.ledger.cut b n a record low high free
  · rintro ⟨⟨first, last⟩, clear⟩
    rcases complete.filled a first last with free | ⟨b, n, record, low, high⟩
    · exact .inr free
    · exact .inl ⟨b, n, record, fun reach => clear ⟨b, n, record, reach, low, high⟩, low, high⟩

/-- The free blocks after a collection are the gaps. -/
theorem Collected.gap_iff (collected : Collected types roots c m c' m') (complete : Complete c) :
    Gap types roots c m low high ↔ ∃ b ∈ c'.free.blocks, b.start = low ∧ b.stop = high :=
  collected.ledger.spaced.isGap_iff (collected.covers_free complete)

theorem Collected.canSatisfy_iff (collected : Collected types roots c m c' m') (complete : Complete c) :
    c'.free.canSatisfy size = true ↔ ∃ low high, Gap types roots c m low high ∧ size ≤ high - low := by
  simp only [FreeList.canSatisfy, List.any_eq_true, decide_eq_true_eq, collected.gap_iff complete]
  constructor
  · rintro ⟨b, member, fits⟩
    exact ⟨b.start, b.stop, ⟨b, member, rfl, rfl⟩, by rwa [Block.stop, Nat.add_sub_cancel_left]⟩
  · rintro ⟨low, high, ⟨b, member, rfl, rfl⟩, fits⟩
    exact ⟨b, member, by rwa [Block.stop, Nat.add_sub_cancel_left] at fits⟩

/-- A free block lies in a gap, so a collection takes no room away. -/
theorem Collected.canSatisfy_of_before (collected : Collected types roots c m c' m') (complete : Complete c)
    (room : c.free.canSatisfy size = true) : c'.free.canSatisfy size = true := by
  obtain ⟨b, member, fits⟩ := List.any_eq_true.1 room
  have fits := of_decide_eq_true fits
  have positive := (complete.free b member).positive
  have covered (a : Nat) (low : b.start ≤ a) (high : a < b.stop) : Covers c'.free.blocks a :=
    (collected.free a).2 (.inr ⟨b, member, low, high⟩)
  obtain ⟨b', member', first, last⟩ := collected.ledger.spaced.exists_block_of_covered
    (Nat.lt_add_of_pos_right positive) covered
  refine List.any_eq_true.2 ⟨b', member', decide_eq_true ?_⟩
  unfold Block.stop at last
  omega

theorem isSome_allocate (c : MarkSweep) (size : Nat) :
    ((Engine.markSweep c).allocate size).isSome = c.free.canSatisfy size := by
  rw [FreeList.canSatisfy_eq_isSome_take, Engine.allocate, MarkSweep.allocate, Option.isSome_map, Option.isSome_map]

variable {w : World} {type : TypeId} {d : Descriptor} {extra : Nat}

theorem gap_closed : Gap w.closed.heap.types w.closed.heap.roots.slots c w.closed.memory low high ↔
    Gap w.heap.types w.heap.roots.slots c w.memory low high := by
  refine IsGap.congr fun a => exists_congr fun b => exists_congr fun n => ?_
  rw [World.reach_closed]

/-- A request is served if it fits a gap. Otherwise the heap holds exactly what can be reached. -/
theorem allocate_outcome (books : w.Books) (healthy : w.heap.poisoned = none) (formed : w.WellFormed)
    (engine : w.heap.collector.engine = .markSweep c) (complete : Complete c)
    (registered : w.heap.types.get? type = some d) (small : d.fixedSize + extra ≤ largestPayload) :
    ((∃ low high, Gap w.heap.types w.heap.roots.slots c w.memory low high ∧
        footprint (d.fixedSize + extra) ≤ high - low) ∧ ∃ p w', Heap.allocate type extra w = .ok p w') ∨
      (¬ ∃ low high, Gap w.heap.types w.heap.roots.slots c w.memory low high ∧
        footprint (d.fixedSize + extra) ≤ high - low) ∧ ∃ w', Heap.allocate type extra w = .error
          (.violation (.outOfMemory .markSweep (footprint (d.fixedSize + extra)) w'.heap.availableBytes)) w' ∧
        w'.WellFormed ∧ ∀ p, (w'.Held p ↔ Reach w'.heap.types w'.heap.roots.slots w'.memory p) ∧
          (w'.Held p ↔ Reach w.heap.types w.heap.roots.slots w.memory p) := by
  have engine' : w.closed.heap.collector.engine = .markSweep c := engine
  obtain ⟨-, report, c', m', ran, collected, relocation, formed'⟩ :=
    collect_spec books.close (formed.close books) engine'
  have consistent := (formed.close books).consistent books.close
  rw [engine'] at consistent
  have stepped : Engine.collect w.closed.heap.types w.closed.heap.roots.slots
      (w.closed.heap.collector.engine, w.closed.memory) = .ok report (.markSweep c', m') := by
    rw [engine']
    simp only [Engine.collect, ran]
  have books' := books.close.afterCollection stepped
  have whole := Heap.runCollection_ok books.close stepped formed'
  have room : c'.free.canSatisfy (footprint (d.fixedSize + extra)) = true ↔
      ∃ low high, Gap w.heap.types w.heap.roots.slots c w.memory low high ∧
        footprint (d.fixedSize + extra) ≤ high - low := by
    rw [collected.canSatisfy_iff complete]
    simp only [gap_closed]
  by_cases waits : Heap.Waits w.closed (footprint (d.fixedSize + extra))
  · cases allocated : (w.closed.afterCollection report (.markSweep c') m').heap.collector.engine.allocate
        (footprint (d.fixedSize + extra)) with
    | some pair =>
      have later := Heap.obtainBlock_later waits whole
      simp only [allocated] at later
      obtain ⟨w', -, served⟩ := Heap.allocate_admits healthy registered small books' formed' rfl allocated later
      refine .inl ⟨room.1 ?_, _, w', served⟩
      rw [← isSome_allocate]
      exact Option.isSome_iff_exists.2 ⟨pair, allocated⟩
    | none =>
      have refused := Heap.allocate_refused healthy registered small waits whole allocated
      have none : (Engine.markSweep c').allocate (footprint (d.fixedSize + extra)) = none := allocated
      refine .inr ⟨fun fits => ?_, Heap.refused (w.closed.afterCollection report (.markSweep c') m') _, refused,
        formed'.poison _, fun p => ?_⟩
      · have found := room.2 fits
        rw [← isSome_allocate, none] at found
        cases found
      · have holds := (collected.owns_iff (fun q => consistent.held_of_reach) p).trans World.reach_closed
        refine ⟨holds.trans (Iff.symm ?_), holds⟩
        refine (relocation.reach_iff consistent fun q reach => ?_).trans ?_
        · have low := consistent.low (consistent.held_of_reach reach)
          exact Nat.ne_of_gt (Nat.lt_of_lt_of_le (by decide) low)
        · simp only [id, exists_eq_right, World.reach_closed]
  · obtain ⟨block, e, allocated, now⟩ := Heap.obtainBlock_now waits
    obtain ⟨w', -, served⟩ := Heap.allocate_admits healthy registered small books.close (formed.close books) rfl
      allocated now
    refine .inl ⟨room.1 (collected.canSatisfy_of_before complete ?_), _, w', served⟩
    rw [← isSome_allocate, ← engine', allocated]
    rfl

/-- In every well-formed state that a heap can reach, a request fails if, and only if, it fits no gap between the
blocks of the objects that can be reached. It has run out of memory then, and holds exactly these objects. -/
theorem allocate_fails_iff_no_gap (reached : Reached w) (healthy : w.heap.poisoned = none)
    (engine : w.heap.collector.engine = .markSweep c) (formed : w.WellFormed)
    (registered : w.heap.types.get? type = some d) (small : d.fixedSize + extra ≤ largestPayload) :
    ((∃ requested available w', Heap.allocate type extra w =
        .error (.violation (.outOfMemory .markSweep requested available)) w') ↔
      ∀ low high, Gap w.heap.types w.heap.roots.slots c w.memory low high →
        high - low < footprint (d.fixedSize + extra)) ∧
    ∀ x w', Heap.allocate type extra w = .error x w' →
      x = .violation (.outOfMemory .markSweep (footprint (d.fixedSize + extra)) w'.heap.availableBytes) ∧
      w'.WellFormed ∧ ∀ p, (w'.Held p ↔ Reach w'.heap.types w'.heap.roots.slots w'.memory p) ∧
        (w'.Held p ↔ Reach w.heap.types w.heap.roots.slots w.memory p) := by
  have complete := (reached.complete c engine).1
  rcases allocate_outcome (reached.orderly healthy) healthy formed engine complete registered small with
    ⟨⟨low, high, gap, fits⟩, p, w₁, served⟩ | ⟨none, w₁, refused, formed₁, held⟩
  · refine ⟨⟨?_, fun all => absurd (all low high gap) (Nat.not_lt.2 fits)⟩, fun x w' failed => ?_⟩
    · rintro ⟨requested, available, w', failed⟩
      cases served.symm.trans failed
    · cases served.symm.trans failed
  · refine ⟨⟨fun _ low high gap => ?_, fun _ => ⟨_, _, w₁, refused⟩⟩, fun x w' failed => ?_⟩
    · exact Nat.lt_of_not_le fun fits => none ⟨low, high, gap, fits⟩
    · cases refused.symm.trans failed
      exact ⟨rfl, formed₁, held⟩

/-- Two small objects leave almost all of the arena free, but stand so that a large request fits neither between nor
behind them. -/
theorem allocate_fails_between_two : ∃ w c, Reached w ∧ w.heap.collector.engine = .markSweep c ∧
    c.blocks = [⟨Memory.origin, 32⟩, ⟨Memory.origin + 32, 272⟩, ⟨Memory.origin + 304, 32⟩] ∧
    (∀ low high, Gap w.heap.types w.heap.roots.slots c w.memory low high → high - low < footprint 3808) ∧
    ∃ requested available w', Heap.allocate ⟨1⟩ 3800 w =
      .error (.violation (.outOfMemory .markSweep requested available)) w' := by
  have ran : ((World.play (fun w _ => w.heap.poisoned = none) { heapSize := 4096 } 2
      [.call (.register .references Descriptor.references_isWords), .call .pushRoot, .call (.addRoot ⟨0, 0⟩ (.cell 0)),
        .call (.addRoot ⟨0, 0⟩ (.cell 1)), .call (.allocateArray ⟨1⟩ 0), .setCell 0 (Memory.origin + 24),
        .call (.allocateArray ⟨1⟩ 30), .call (.allocateArray ⟨1⟩ 0), .setCell 1 (Memory.origin + 328)]).any fun w =>
      w.onMarkSweep fun c =>
        c.blocks = [⟨Memory.origin, 32⟩, ⟨Memory.origin + 32, 272⟩, ⟨Memory.origin + 304, 32⟩] ∧
        c.start = Memory.origin ∧ c.size = 4096 ∧ w.heap.poisoned = none ∧ w.WellFormed ∧
        w.heap.types.get? ⟨1⟩ = some .references ∧ Slot.cell 1 ∈ w.heap.roots.slots ∧
        w.memory.slot (.cell 1) = payloadOf (Memory.origin + 304)) = true := by
    decide +kernel
  obtain ⟨w, played, shown⟩ := (Option.any_eq_true _ _).1 ran
  obtain ⟨c, engine, shown⟩ := World.onMarkSweep_eq_true.1 shown
  obtain ⟨blocks, start, size, healthy, formed, registered, root, slot⟩ := of_decide_eq_true shown
  have gaps (low high : Nat) (gap : Gap w.heap.types w.heap.roots.slots c w.memory low high) :
      high - low < footprint 3808 := by
    have reach : Reach w.heap.types w.heap.roots.slots w.memory (payloadOf (Memory.origin + 304)) :=
      slot ▸ .root root (by rw [slot]; decide)
    have record : c.records[Memory.origin + 304]? = some 32 :=
      mem_blocks (b := ⟨Memory.origin + 304, 32⟩).1 (by rw [blocks]; decide)
    have order := gap.order
    obtain ⟨first, last⟩ := gap.inside
    -- The second object is in the way.
    have clear := gap.clear (Memory.origin + 304)
    have taken : Alive w.heap.types w.heap.roots.slots c w.memory (Memory.origin + 304) :=
      ⟨_, _, record, reach, Nat.le_refl _, Nat.lt_add_of_pos_right (by decide)⟩
    have enough : 3792 < footprint 3808 := by decide
    have apart : high ≤ Memory.origin + 304 ∨ Memory.origin + 304 < low := by
      by_contra meet
      exact clear (by omega) (by omega) taken
    omega
  have reached := Reached.of_play played
  exact ⟨w, c, reached, engine, blocks, gaps,
    (allocate_fails_iff_no_gap reached healthy engine formed registered (by decide)).1.2 gaps⟩

end MarkSweep

end TracingHeap
