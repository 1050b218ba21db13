import TracingHeap.Proofs.Heap.Outcome
import TracingHeap.Proofs.Heap.Scripts

/-! The check of the heap after a collection.

It finds nothing, whatever the program has written into the objects and the roots: what it looks for has either
stopped the collection or is gone with the garbage. -/

set_option autoImplicit false

namespace TracingHeap

/-- The same world, configured to check the heap after every collection or not to. -/
def World.checking (w : World) (check : Bool) : World :=
  { w with heap := { w.heap with config := { w.heap.config with verifyHeap := check } } }

namespace Heap

variable {w w' : World} {report : CollectionReport}

/-- The check passes after every collection that succeeds, and reports the objects that could be reached. So to
check the heap or not to makes no difference for the collection. -/
theorem collect_passes_check (reached : Reached w) (headed : w.Headed)
    (traces : w.heap.collector.engine.strategy ≠ .leaky) (ran : collect w = .ok report w') :
    (∃ found, verify w' = .ok found w' ∧ found.objects = report.objectsLive ∧
      found.bytes = (w'.heap.collector.engine.list.map w'.memory.blockSize).sum ∧
      Occupied w.heap.types w.heap.roots.slots w.memory found.bytes) ∧
    ∀ check, collect (w.checking check) = .ok report (w'.checking check) := by
  have healthy := healthy_of_ok ran
  have books := reached.orderly healthy
  obtain ⟨e, m, stepped, rfl, renewed⟩ := renewed_of_collect books healthy headed traces ran
  refine ⟨⟨_, verify_ok (books.afterCollection stepped) renewed.formed, renewed.objects.symm, rfl, renewed.bytes⟩,
    fun check => ?_⟩
  have books' : (w.checking check).Books := ⟨books.regular, books.types, books.ledger⟩
  have formed' : ((w.checking check).afterCollection report e m).WellFormed := by
    have formed := renewed.formed
    exact ⟨formed.unmarked, formed.typed, formed.fits, formed.references, formed.outside, formed.roots⟩
  exact collect_ok healthy books' stepped formed'

/-- Of three arrays the first is kept. The others were broken: the second counts more elements than it has room for,
and the element of the third leads nowhere. -/
theorem collect_passes_check_beside_garbage : ∃ w report w', Reached w ∧ w.Headed ∧ ¬ w.WellFormed ∧
    w.heap.collector.engine.list = [Memory.origin + 24, Memory.origin + 64, Memory.origin + 104] ∧
    collect w = .ok report w' ∧
    (∃ found, verify w' = .ok found w' ∧ found.objects = report.objectsLive ∧
      Occupied w.heap.types w.heap.roots.slots w.memory found.bytes) ∧
    ∀ check, collect (w.checking check) = .ok report (w'.checking check) := by
  have ran : ((World.play (fun w _ => w.heap.poisoned = none) { heapSize := 4096 } 1
      [.call (.register .references Descriptor.references_isWords), .call .pushRoot, .call (.addRoot ⟨0, 0⟩ (.cell 0)),
        .call (.allocateArray ⟨1⟩ 1), .setCell 0 (Memory.origin + 24), .call (.allocateArray ⟨1⟩ 1),
        .call (.allocateArray ⟨1⟩ 1), .writeWord (Memory.origin + 64) 0 7,
        .writeWord (Memory.origin + 104) 8 (Memory.origin + 4)]).any fun w =>
      w.Headed ∧ ¬ w.WellFormed ∧ w.heap.collector.engine.strategy ≠ .leaky ∧ ¬ Fails (collect w) ∧
        w.heap.collector.engine.list = [Memory.origin + 24, Memory.origin + 64, Memory.origin + 104]) = true := by
    decide +kernel
  obtain ⟨w, played, shown⟩ := (Option.any_eq_true _ _).1 ran
  obtain ⟨headed, unformed, traces, served, held⟩ := of_decide_eq_true shown
  obtain ⟨report, w', collected⟩ := exists_of_not_fails served
  have reached := Reached.of_play played
  obtain ⟨⟨found, checked, objects, -, bytes⟩, same⟩ := collect_passes_check reached headed traces collected
  exact ⟨w, report, w', reached, headed, unformed, held, collected, ⟨found, checked, objects, bytes⟩, same⟩

end Heap

end TracingHeap
