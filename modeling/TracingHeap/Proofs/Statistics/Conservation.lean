import TracingHeap.Proofs.Statistics.Chronicle

/-! What the counters of a heap are worth.

As long as they do not overflow, the counters of objects add up in every state. Those of bytes do not where blocks are found
in a free list: what is left of a block, if it is of no use, is handed out and given back without having been counted. -/

set_option autoImplicit false

namespace TracingHeap

variable {past : List World} {t : Tally} {w : World}

/-- In every state of a heap that keeps counts, over any collector and whatever has failed before, the counters of objects are
exact: so many are live, all that were allocated and are not live have been reclaimed, so many have been moved, and the high
water mark is the most that were live in any state so far. -/
theorem Chronicle.objects_conserved (chronicle : Chronicle past t w) (served : t.served < wordLimit)
    (evacuated : t.evacuated < wordLimit) : ∃ n, w.heap.counters? = some n ∧ n.liveObjects = w.heap.objectCount ∧
      n.allocations = t.served ∧ n.allocations = n.objectsReclaimed + w.heap.objectCount ∧
      n.objectsRelocated = t.evacuated ∧ (∀ v ∈ w :: past, v.heap.objectCount ≤ n.liveHighWater) ∧
      ∃ v ∈ w :: past, v.heap.objectCount = n.liveHighWater := by
  have balanced := chronicle.balanced
  obtain ⟨n, counters, totals, follows⟩ := balanced.counters
  obtain ⟨live, ⟨here, before⟩, attained⟩ := follows served
  have allocations : n.allocations = t.served := totals.allocations.trans (Word.wrap_of_lt served)
  have freed : t.freed < wordLimit := Nat.lt_of_le_of_lt (balanced.objects ▸ Nat.le_add_right ..) served
  have reclaimed : n.objectsReclaimed = t.freed := totals.objectsReclaimed.trans (Word.wrap_of_lt freed)
  refine ⟨n, counters, live, allocations, ?_, totals.objectsRelocated.trans (Word.wrap_of_lt evacuated),
    List.forall_mem_cons.2 ⟨here, before⟩, ?_⟩
  · rw [allocations, reclaimed]
    exact balanced.objects
  · rcases attained with same | ⟨v, member, same⟩
    · exact ⟨w, List.mem_cons_self, same.symm⟩
    · exact ⟨v, List.mem_cons_of_mem w member, same⟩

/-- Of three objects on a heap that collects whenever it can only the one in the root slot lasts, and no more than two are ever
live at a time. -/
theorem Chronicle.objects_conserved_stress : ∃ past t w n, Chronicle past t w ∧ w.heap.config.mode = .stress ∧
    w.heap.objectCount = 1 ∧ w.heap.counters? = some n ∧ n.liveObjects = 1 ∧ n.allocations = 3 ∧ n.objectsReclaimed = 2 ∧
    n.objectsRelocated = 0 ∧ n.liveHighWater = 2 := by
  have ran : ((play { mode := .stress, heapSize := 4096 } 1
      [.call (.register .link Descriptor.link_isWords), .call .pushRoot, .call (.addRoot ⟨0, 0⟩ (.cell 0)),
        .call (.allocate ⟨1⟩ 0), .setCell 0 (Memory.origin + 24), .call (.allocate ⟨1⟩ 0), .call (.allocate ⟨1⟩ 0),
        .call .collect]).any fun (past, t, w) =>
      w.heap.config.mode = .stress ∧ w.heap.objectCount = 1 ∧ t.served = 3 ∧ t.evacuated = 0 ∧
        (w :: past).map (fun v => v.heap.objectCount) = [1, 2, 2, 1, 1, 0, 0, 0, 0]) = true := by
    decide +kernel
  obtain ⟨⟨past, t, w⟩, played, shown⟩ := (Option.any_eq_true _ _).1 ran
  obtain ⟨mode, count, served, evacuated, counts⟩ := of_decide_eq_true shown
  have chronicle := of_play (by decide) played
  obtain ⟨n, counters, live, allocations, conserved, relocated, bound, v, member, attained⟩ :=
    objects_conserved chronicle (by rw [served]; decide) (by rw [evacuated]; decide)
  rw [count] at live conserved
  rw [served] at allocations
  rw [evacuated] at relocated
  have highest : n.liveHighWater = 2 := by
    have among : n.liveHighWater ∈ (w :: past).map fun v => v.heap.objectCount := List.mem_map.2 ⟨v, member, attained⟩
    have above (k : Nat) (seen : k ∈ (w :: past).map fun v => v.heap.objectCount) : k ≤ n.liveHighWater := by
      obtain ⟨u, member, rfl⟩ := List.mem_map.1 seen
      exact bound u member
    rw [counts] at among above
    have two := above 2 (by decide)
    simp only [List.mem_cons, List.not_mem_nil, or_false] at among
    omega
  exact ⟨past, t, w, n, chronicle, mode, count, counters, live, allocations, by omega, relocated, highest⟩

-- A tail is what would be left of a block when that is less than the smallest block.
/-- In every state of a heap that keeps counts the bytes that were allocated are those that have been reclaimed or are live,
but for the tails that were handed out with them. Only a heap with a free list hands out tails, of 16 bytes at most. -/
theorem Chronicle.bytes_conserved (chronicle : Chronicle past t w) (requested : t.requested < wordLimit)
    (released : t.released < wordLimit) : ∃ n, w.heap.counters? = some n ∧
      n.bytesAllocated + t.tails = n.bytesReclaimed + w.heap.liveBytes ∧ t.tails ≤ 16 * t.served ∧ wordSize ∣ t.tails ∧
      (w.heap.strategy ≠ .markSweep → t.tails = 0) ∧
      (n.bytesReclaimed ≤ n.bytesAllocated ∧ n.bytesAllocated - n.bytesReclaimed = w.heap.liveBytes ↔ t.tails = 0) := by
  have balanced := chronicle.balanced
  obtain ⟨n, counters, totals, -⟩ := balanced.counters
  have total : n.bytesAllocated + t.tails = n.bytesReclaimed + w.heap.liveBytes := by
    rw [totals.bytesAllocated, totals.bytesReclaimed, Word.wrap_of_lt requested, Word.wrap_of_lt released]
    exact balanced.bytes
  exact ⟨n, counters, total, balanced.small, balanced.whole, balanced.tailless, by omega⟩

/-- An object that leaves 16 bytes of the heap gets them, and all of it is given back. -/
theorem Chronicle.bytes_conserved_tail : ∃ past t w n, Chronicle past t w ∧ w.heap.counters? = some n ∧
    w.heap.liveBytes = 0 ∧ t.requested = 4080 ∧ t.tails = 16 ∧ n.bytesAllocated + 16 = n.bytesReclaimed ∧
    ¬ (n.bytesReclaimed ≤ n.bytesAllocated ∧ n.bytesAllocated - n.bytesReclaimed = 0) := by
  have ran : ((play { mode := .statistics, heapSize := 4096 } 0
      [.call (.register .link Descriptor.link_isWords), .call (.allocate ⟨1⟩ 4048), .call .collect]).any fun (_, t, w) =>
      w.heap.liveBytes = 0 ∧ t.requested = 4080 ∧ t.released = 4096 ∧ t.tails = 16) = true := by
    decide +kernel
  obtain ⟨⟨past, t, w⟩, played, shown⟩ := (Option.any_eq_true _ _).1 ran
  obtain ⟨clear, requested, released, tails⟩ := of_decide_eq_true shown
  have chronicle := of_play (by decide) played
  obtain ⟨n, counters, total, -, -, -, claimed⟩ :=
    bytes_conserved chronicle (by rw [requested]; decide) (by rw [released]; decide)
  rw [clear, tails] at total
  rw [clear, tails] at claimed
  exact ⟨past, t, w, n, chronicle, counters, clear, requested, tails, total, fun holds => absurd (claimed.1 holds) (by decide)⟩

/-- A careful program asks for one object, of 4080 bytes with its header, and finds 4096 bytes in use. When it has let go of
the object, more bytes have been reclaimed than were ever allocated. -/
theorem Behaved.tail_not_counted :
    (∃ w n, Behaved World.Allows w ∧ w.heap.config.mode = .statistics ∧ w.heap.counters? = some n ∧
      n.bytesAllocated = 4080 ∧ n.bytesReclaimed = 0 ∧ w.heap.liveBytes = 4096) ∧
      ∃ w n, Behaved World.Allows w ∧ w.heap.config.mode = .statistics ∧ w.heap.counters? = some n ∧
        n.bytesAllocated = 4080 ∧ n.bytesReclaimed = 4096 ∧ w.heap.liveBytes = 0 := by
  have ran (actions : List Action) (allocated reclaimed live : Nat)
      (ran : ((World.play World.Allows { mode := .statistics, heapSize := 4096 } 0 actions).any fun w =>
        w.heap.config.mode = .statistics ∧ w.heap.liveBytes = live ∧ (w.heap.counters?.any fun n =>
          n.bytesAllocated = allocated ∧ n.bytesReclaimed = reclaimed) = true) = true) :
      ∃ w n, Behaved World.Allows w ∧ w.heap.config.mode = .statistics ∧ w.heap.counters? = some n ∧
        n.bytesAllocated = allocated ∧ n.bytesReclaimed = reclaimed ∧ w.heap.liveBytes = live := by
    obtain ⟨w, played, shown⟩ := (Option.any_eq_true _ _).1 ran
    obtain ⟨mode, liveBytes, counted⟩ := of_decide_eq_true shown
    obtain ⟨n, counters, shown⟩ := (Option.any_eq_true _ _).1 counted
    obtain ⟨allocated, reclaimed⟩ := of_decide_eq_true shown
    exact ⟨w, n, .of_play played, mode, counters, allocated, reclaimed, liveBytes⟩
  refine ⟨ran [.call (.register .link Descriptor.link_isWords), .call (.allocate ⟨1⟩ 4048)] 4080 0 4096 ?_,
    ran [.call (.register .link Descriptor.link_isWords), .call (.allocate ⟨1⟩ 4048), .call .collect] 4080 4096 0 ?_⟩ <;>
    decide +kernel

end TracingHeap
