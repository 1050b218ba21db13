import TracingHeap.Proofs.Copying.Compact
import TracingHeap.Proofs.Heap.Outcome
import TracingHeap.Proofs.MarkSweep.Stability

/-! Collecting a heap again.

After a collection everything that is held can be reached, so another one reclaims nothing. One that does not move leaves
everything as it is; two that move bring everything back. -/

set_option autoImplicit false

namespace TracingHeap

-- The residents are kept in a search tree, whose shape is not part of what they are.
/-- The engines hold the same objects and have the same spaces. -/
inductive Engine.Same : Engine → Engine → Prop where
  | markSweep (c : MarkSweep) : Same (.markSweep c) (.markSweep c)
  | copying {c c' : Copying} : c'.spaces = c.spaces → c'.resident.toList = c.resident.toList →
      Same (.copying c) (.copying c')
  | leaky (c : Leaky) : Same (.leaky c) (.leaky c)

/-- All that a collector and a program can see of the memory and of the collector is the same. -/
structure World.Same (w w' : World) : Prop where
  engine : w.heap.collector.engine.Same w'.heap.collector.engine
  shape : w.memory.SameShape w'.memory
  cells : w'.memory.cells = w.memory.cells
  bytes : ∀ a, w'.memory.byte a = w.memory.byte a

/-- Collections succeed and reclaim nothing, and after every second one everything is as it was; where objects do not move,
after the first one already. -/
def World.Steady (w : World) (objects bytes : Nat) : Prop :=
  ∃ report w', Heap.collect w = .ok report w' ∧ report.objectsReclaimed = 0 ∧ report.bytesReclaimed = 0 ∧
    report.objectsLive = objects ∧ report.bytesLive = bytes ∧
    (w.heap.collector.engine.strategy ≠ .copying → w.Same w') ∧
    ∃ w'', Heap.collect w' = .ok report w'' ∧ w.Same w''

namespace World.Same

variable {w w' w'' : World}

theorem trans (first : w.Same w') (second : w'.Same w'') : w.Same w'' where
  engine := by
    have engine := first.engine
    have engine' := second.engine
    generalize w.heap.collector.engine = e, w'.heap.collector.engine = e', w''.heap.collector.engine = e'' at *
    cases engine with
    | markSweep c => exact engine'
    | leaky c => exact engine'
    | copying spaces resident =>
      cases engine' with
      | copying spaces' resident' => exact .copying (spaces'.trans spaces) (resident'.trans resident)
  shape := first.shape.trans second.shape
  cells := second.cells.trans first.cells
  bytes a := (second.bytes a).trans (first.bytes a)

end World.Same

variable {w : World}

/-- Where a collection changes nothing, and neither does the next, the heap is steady. -/
theorem World.Steady.of_same {report : CollectionReport} {w' w'' : World} {objects bytes : Nat}
    (ran : Heap.collect w = .ok report w') (nothing : report.objectsReclaimed = 0 ∧ report.bytesReclaimed = 0)
    (live : report.objectsLive = objects ∧ report.bytesLive = bytes) (same : w.Same w')
    (ran' : Heap.collect w' = .ok report w'') (same' : w'.Same w'') : w.Steady objects bytes :=
  ⟨report, w', ran, nothing.1, nothing.2, live.1, live.2, fun _ => same, w'', ran', same.trans same'⟩

/-- With a collector that does not move, where everything that is held can be reached. -/
theorem MarkSweep.steady {c : MarkSweep} (books : w.Books) (healthy : w.heap.poisoned = none) (formed : w.WellFormed)
    (engine : w.heap.collector.engine = .markSweep c)
    (all : ∀ p, c.owns p = true → Reach w.heap.types w.heap.roots.slots w.memory p) :
    w.Steady c.blocks.length (totalSize c.blocks) := by
  obtain ⟨m₁, ran₁, shape₁, cells₁, bytes₁⟩ := collect_changes_nothing books engine formed all
  obtain ⟨-, -, all₁, formed₁⟩ := collect_leaves_reachable books engine formed ran₁
  have books₁ := books.afterCollection ran₁
  obtain ⟨m₂, ran₂, shape₂, cells₂, bytes₂⟩ := collect_changes_nothing books₁ rfl formed₁ all₁
  obtain ⟨-, -, -, formed₂⟩ := collect_leaves_reachable books₁ rfl formed₁ ran₂
  refine .of_same (Heap.collect_ok healthy books ran₁ formed₁) ⟨rfl, rfl⟩ ⟨rfl, rfl⟩ ⟨?_, shape₁, cells₁, bytes₁⟩
    (Heap.collect_ok healthy books₁ ran₂ formed₂) ⟨.markSweep c, shape₂, cells₂, bytes₂⟩
  rw [engine]
  exact .markSweep c

/-- A collector that keeps everything leaves the heap as it is. -/
theorem World.WellFormed.collected (formed : w.WellFormed) (report : CollectionReport) :
    (w.afterCollection report w.heap.collector.engine w.memory).WellFormed :=
  ⟨formed.unmarked, formed.typed, formed.fits, formed.references, formed.outside, formed.roots⟩

theorem Leaky.steady {c : Leaky} (books : w.Books) (healthy : w.heap.poisoned = none) (formed : w.WellFormed)
    (engine : w.heap.collector.engine = .leaky c) : w.Steady c.held.size c.space.cursor := by
  have formed₁ := formed.collected c.report
  have ran : Engine.collect w.heap.types w.heap.roots.slots (w.heap.collector.engine, w.memory) =
      .ok c.report (.leaky c, w.memory) := by
    rw [engine]
    rfl
  rw [engine] at formed₁
  have books₁ := books.afterCollection ran
  refine .of_same (Heap.collect_ok healthy books ran formed₁) ⟨rfl, rfl⟩ ⟨rfl, rfl⟩ ⟨?_, .refl _, rfl, fun _ => rfl⟩
    (Heap.collect_ok healthy books₁ rfl (formed₁.collected c.report)) ⟨.leaky c, .refl _, rfl, fun _ => rfl⟩
  rw [engine]
  exact .leaky c

/-- With a collector that moves, where the objects lie in the order of copying. -/
theorem Copying.Compact.steady {c : Copying} {l : List Nat} (compact : Copying.Compact w c l) :
    w.Steady l.length (l.map w.memory.blockSize).sum := by
  obtain ⟨w₁, c₁, first⟩ := compact.collect
  obtain ⟨w₂, c₂, second⟩ := first.compact.collect
  have report := compact.movedReport_eq
  have again := first.compact.movedReport_eq
  rw [List.length_map, first.sum_eq] at again
  refine ⟨_, w₁, first.ran, ?_, ?_, rfl, rfl, ?_, w₂, ?_, ?_⟩
  · rw [report]
  · rw [report]
  · rw [compact.engine]
    exact fun stays => absurd rfl stays
  · rw [report, ← again, ← first.sum_eq]
    exact second.ran
  · have shape := first.moved.relocation.shape.trans second.moved.relocation.shape
    constructor
    case engine =>
      rw [compact.engine, second.compact.engine]
      exact .copying (compact.spaces_back first second) (compact.residents_back first second)
    case shape => exact shape
    case cells => exact Memory.cells_eq shape (compact.slot_back first second)
    case bytes => exact compact.byte_back first second

namespace Heap

/-- In every well-formed state that a heap can reach, a collection that succeeds leaves a steady heap. -/
theorem collect_steadies {w₁ : World} {report : CollectionReport} (reached : Reached w) (formed : w.WellFormed)
    (ran : collect w = .ok report w₁) : w₁.Steady report.objectsLive report.bytesLive := by
  have healthy := healthy_of_ok ran
  have books := reached.orderly healthy
  cases engine : w.heap.collector.engine with
  | markSweep c =>
    obtain ⟨-, report', c', m', ran', -, -, formed'⟩ := MarkSweep.collect_spec books formed engine
    have stepped : Engine.collect w.heap.types w.heap.roots.slots (w.heap.collector.engine, w.memory) =
        .ok report' (.markSweep c', m') := by
      rw [engine]
      simp only [Engine.collect, ran']
    cases ran.symm.trans (collect_ok healthy books stepped formed')
    obtain ⟨objects, bytes, all, -⟩ := MarkSweep.collect_leaves_reachable books engine formed stepped
    rw [objects, bytes]
    exact MarkSweep.steady (books.afterCollection stepped) healthy formed' rfl all
  | leaky c =>
    have formed' := formed.collected c.report
    have stepped : Engine.collect w.heap.types w.heap.roots.slots (w.heap.collector.engine, w.memory) =
        .ok c.report (.leaky c, w.memory) := by
      rw [engine]
      rfl
    rw [engine] at formed'
    cases ran.symm.trans (collect_ok healthy books stepped formed')
    exact Leaky.steady (books.afterCollection stepped) healthy formed' rfl
  | copying c =>
    cases order : copyOrder w.heap.types w.heap.roots.slots w.memory c.spaces.size with
    | none =>
      obtain ⟨p, target, w', failed, -⟩ := Copying.collect_stuck books engine (formed.rooted books engine) healthy order
      cases ran.symm.trans failed
    | some l =>
      obtain ⟨w', c', pass⟩ := Copying.collect_compacts books healthy formed engine order
      cases ran.symm.trans pass.ran
      have steady := pass.compact.steady
      rw [List.length_map, pass.sum_eq] at steady
      exact steady

/-- Two arrays lead to each other, and nothing leads to the third. The root leads to the second, so that the first
collection changes the order of the two. -/
theorem collect_steadies_loop : ∃ w report w₁, Reached w ∧ w.WellFormed ∧ w.heap.collector.engine.strategy = .copying ∧
    w.heap.collector.engine.list = [Memory.origin + 24, Memory.origin + 64, Memory.origin + 104] ∧
    collect w = .ok report w₁ ∧ report.objectsReclaimed = 1 ∧ w₁.Steady 2 80 := by
  have ran : ((World.play (fun w _ => w.heap.poisoned = none) { strategy := .copying, heapSize := 4096 } 1
      [.call (.register .references Descriptor.references_isWords), .call .pushRoot, .call (.addRoot ⟨0, 0⟩ (.cell 0)),
        .call (.allocateArray ⟨1⟩ 1), .setCell 0 (Memory.origin + 24), .call (.allocateArray ⟨1⟩ 1),
        .writeWord (Memory.origin + 64) 8 (Memory.origin + 24), .writeWord (Memory.origin + 24) 8 (Memory.origin + 64),
        .setCell 0 (Memory.origin + 64), .call (.allocateArray ⟨1⟩ 1)]).any fun w =>
      w.onCopying fun c => w.heap.poisoned = none ∧ w.WellFormed ∧ c.resident.size = 3 ∧
        w.heap.collector.engine.list = [Memory.origin + 24, Memory.origin + 64, Memory.origin + 104] ∧
        w.heap.roots.slots.Nodup ∧
        (CopyOrder.followAll w.memory.isEmpty [] (w.heap.roots.slots.map w.memory.slot)).bind
          (CopyOrder.scan w.memory.isEmpty (w.heap.types.references w.memory) c.spaces.size 0) =
            some [Memory.origin + 64, Memory.origin + 24] ∧
        ([Memory.origin + 64, Memory.origin + 24].map w.memory.blockSize).sum = 80) = true := by
    decide +kernel
  obtain ⟨w, played, shown⟩ := (Option.any_eq_true _ _).1 ran
  obtain ⟨c, engine, shown⟩ := World.onCopying_eq_true.1 shown
  obtain ⟨healthy, formed, objects, held, nodup, order, bytes⟩ := of_decide_eq_true shown
  have reached := Reached.of_play played
  have order' : copyOrder w.heap.types w.heap.roots.slots w.memory c.spaces.size =
      some [Memory.origin + 64, Memory.origin + 24] := by
    rw [copyOrder, distinctSlots_of_nodup nodup, order]
  obtain ⟨w₁, c₁, pass⟩ := Copying.collect_compacts (reached.orderly healthy) healthy formed engine order'
  have steady := collect_steadies reached formed pass.ran
  refine ⟨w, _, w₁, reached, formed, by rw [engine]; rfl, held, pass.ran, ?_, ?_⟩
  · show c.resident.size - 2 = 1
    rw [objects]
  · rw [← bytes]
    exact steady

end Heap

end TracingHeap
