import TracingHeap.Proofs.MarkSweep.Exactness

/-! What a collection that does not move depends on.

Only the set of survivors matters. The blocks of the others are given back in the order of their addresses, so the free
list and the records that are left do not depend on the order in which the survivors were found. Where all objects survive,
nothing changes. -/

set_option autoImplicit false

namespace TracingHeap.MarkSweep

variable {types : TypeTable} {roots : List Slot} {c c' : MarkSweep} {m m' : Memory} {marks marks' : List Nat}

theorem live_congr (same : ∀ p, p ∈ marks ↔ p ∈ marks') : c.live marks = c.live marks' := by
  simp only [live, same]

theorem lost_congr (same : ∀ p, p ∈ marks ↔ p ∈ marks') : c.lost marks = c.lost marks' := by
  simp only [lost, same]

theorem reportOf_congr (same : ∀ p, p ∈ marks ↔ p ∈ marks') : c.reportOf marks = c.reportOf marks' := by
  simp only [reportOf, live_congr same, lost_congr same]

/-- All objects are marked. -/
theorem lost_eq_nil (all : ∀ p, c.owns p = true → p ∈ marks) : c.lost marks = [] := by
  refine List.filter_eq_nil_iff.2 fun b member => ?_
  simpa using all _ (owns_payloadOf (mem_blocks.1 member))

theorem live_eq_blocks (all : ∀ p, c.owns p = true → p ∈ marks) : c.live marks = c.blocks := by
  refine List.filter_eq_self.2 fun b member => ?_
  simpa using all _ (owns_payloadOf (mem_blocks.1 member))

theorem totalSize_perm {bs bs' : List Block} (perm : bs.Perm bs') : totalSize bs = totalSize bs' := by
  rw [totalSize_eq_sum, totalSize_eq_sum]
  exact (perm.map Block.size).sum_nat

/-- The report counts the blocks that are left. -/
theorem Collected.reportOf_live (collected : Collected types roots c m c' m')
    (reach : ∀ p, p ∈ marks ↔ Reach types roots m p) :
    (c.reportOf marks).objectsLive = c'.blocks.length ∧ (c.reportOf marks).bytesLive = totalSize c'.blocks :=
  ⟨(collected.blocks_perm reach).length_eq.symm, (totalSize_perm (collected.blocks_perm reach)).symm⟩

/-- Collections of the same memory with the same slots as roots zero the same bytes. -/
theorem Collected.byte_congr {roots' : List Slot} {c₁ c₂ : MarkSweep} {m₁ m₂ : Memory}
    (first : Collected types roots c m c₁ m₁) (second : Collected types roots' c m c₂ m₂)
    (same : ∀ s, s ∈ roots' ↔ s ∈ roots) (a : Nat) : m₂.byte a = m₁.byte a := by
  by_cases dead : Dead types roots c m a
  · have dead' : Dead types roots' c m a := by
      obtain ⟨b, n, record, lost, low, high⟩ := dead
      exact ⟨b, n, record, fun reach => lost (reach.congr_roots same), low, high⟩
    rw [first.zeroed a dead, second.zeroed a dead']
  · have kept : ¬ Dead types roots' c m a := by
      rintro ⟨b, n, record, lost, low, high⟩
      exact dead ⟨b, n, record, fun reach => lost (reach.congr_roots fun s => (same s).symm), low, high⟩
    rw [first.kept a dead, second.kept a kept]

section

variable {w : World} (books : w.Books) (engine : w.heap.collector.engine = .markSweep c)

include books engine

/-- A collection that finds its survivors gives back the blocks of the others. -/
theorem collect_releases (headed : w.Headed)
    (found : c.survivors w.heap.types w.heap.roots.slots w.memory = .ok marks) : ∃ m',
      Engine.collect w.heap.types w.heap.roots.slots (w.heap.collector.engine, w.memory) =
        .ok (c.reportOf marks) (.markSweep (c.released (c.lost marks).reverse), m') ∧
      Collected w.heap.types w.heap.roots.slots c w.memory (c.released (c.lost marks).reverse) m' ∧
      Relocation w.heap.types w.heap.roots.slots w.memory m' id ∧
      (w.afterCollection (c.reportOf marks) (.markSweep (c.released (c.lost marks).reverse)) m').WellFormed := by
  have intact := headed.intact books
  have ledger := books.ledger
  obtain ⟨c', m', ran, collected, relocation, formed⟩ := collect_settles books headed engine found
  rw [engine] at intact ledger ⊢
  obtain ⟨c₁, m₁, ran₁, -, rfl⟩ := collect_ok intact ledger.1 (Memory.readRoots_of_cells headed.outside) ledger.2 found
  cases ran.symm.trans ran₁
  exact ⟨m', by simp only [Engine.collect, ran], collected, relocation, formed⟩

variable (formed : w.WellFormed)

include formed

/-- Behind a collection everything that is held can be reached. -/
theorem collect_leaves_reachable {report : CollectionReport}
    (ran : Engine.collect w.heap.types w.heap.roots.slots (w.heap.collector.engine, w.memory) =
      .ok report (.markSweep c', m')) :
    report.objectsLive = c'.blocks.length ∧ report.bytesLive = totalSize c'.blocks ∧
      (∀ p, c'.owns p = true → Reach w.heap.types w.heap.roots.slots m' p) ∧
      (w.afterCollection report (.markSweep c') m').WellFormed := by
  have consistent := formed.consistent books
  rw [engine] at consistent
  obtain ⟨marks, found, reach⟩ := survivors_ok consistent
  obtain ⟨m₁, ran₁, collected, relocation, formed₁⟩ := collect_releases books engine formed.headed found
  cases ran.symm.trans ran₁
  obtain ⟨objects, bytes⟩ := collected.reportOf_live reach
  refine ⟨objects, bytes, fun p owns => ?_, formed₁⟩
  have old := (collected.owns_iff (fun q => consistent.held_of_reach) p).1 owns
  have low (q : Nat) (led : Reach w.heap.types w.heap.roots.slots w.memory q) : id q ≠ 0 :=
    Nat.ne_of_gt (Nat.lt_of_lt_of_le (by decide) (consistent.low (consistent.held_of_reach led)))
  exact (relocation.reach_iff consistent low).2 ⟨p, old, rfl⟩

/-- Where everything that is held can be reached, a collection changes nothing. -/
theorem collect_changes_nothing (all : ∀ p, c.owns p = true → Reach w.heap.types w.heap.roots.slots w.memory p) :
    ∃ m', Engine.collect w.heap.types w.heap.roots.slots (w.heap.collector.engine, w.memory) =
        .ok { objectsLive := c.blocks.length, bytesLive := totalSize c.blocks } (.markSweep c, m') ∧
      w.memory.SameShape m' ∧ m'.cells = w.memory.cells ∧ ∀ a, m'.byte a = w.memory.byte a := by
  have consistent := formed.consistent books
  rw [engine] at consistent
  obtain ⟨marks, found, reach⟩ := survivors_ok consistent
  obtain ⟨m', ran, collected, -⟩ := collect_releases books engine formed.headed found
  have marked (p : Nat) (owns : c.owns p = true) : p ∈ marks := (reach p).2 (all p owns)
  have report : c.reportOf marks = { objectsLive := c.blocks.length, bytesLive := totalSize c.blocks } := by
    simp [reportOf, lost_eq_nil marked, live_eq_blocks marked, totalSize]
  rw [report, lost_eq_nil marked] at ran
  refine ⟨m', ran, collected.shape, collected.cells, fun a => collected.kept a ?_⟩
  rintro ⟨b, n, record, lost, -⟩
  exact lost (all _ (owns_payloadOf record))

end

end TracingHeap.MarkSweep
