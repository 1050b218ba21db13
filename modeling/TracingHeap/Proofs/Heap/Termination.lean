import TracingHeap.Proofs.Audit.Termination
import TracingHeap.Proofs.Copying.Termination
import TracingHeap.Proofs.Heap.Standing
import TracingHeap.Proofs.Heap.Views
import TracingHeap.Proofs.MarkSweep.Termination

/-! No loop of a heap goes on for ever.

Whatever the objects and the roots refer to, and whatever the counts say: as long as the headers lead from object to
object, marking, looking through copies, walking over a space and counting come to an end. No loop is ended by the count of
its rounds. -/

set_option autoImplicit false

namespace TracingHeap

theorem Engine.Charted.walkEnds {types : TypeTable} {e : Engine} {m : Memory} (charted : e.Charted types m) {s : Space}
    (space : e.space? = some s) : m.WalkEnds s e.list :=
  (charted.tiled space).walkEnds charted.readable fun _ member => charted.large (mem_list.1 member)

namespace World

/-- The loops come to an end that a heap runs through, with any work to begin with and any roots. -/
structure LoopsEnd (w : World) : Prop where
  marking : ∀ {c}, w.heap.collector.engine = .markSweep c → ∀ work, c.MarkingEnds w.heap.types work w.memory
  /-- A heap that is poisoned does not collect any more. -/
  copying : ∀ {c}, w.heap.collector.engine = .copying c → w.heap.poisoned = none →
    ∀ roots : List Slot, (∀ s ∈ roots, s.Aligned) → c.ScanEnds w.heap.types roots w.memory
  walking : ∀ {s}, w.heap.collector.engine.space? = some s → w.memory.WalkEnds s w.heap.collector.engine.list
  census : w.WellFormed → w.heap.types.CensusEnds w.heap.roots.slots w.heap.collector.engine.Held w.memory

/-- In every state of a heap, also a poisoned one, in which the headers of the held objects are intact, all its loops come
to an end. -/
theorem loops_end {w : World} (reached : Reached w)
    (legible : ∀ p, w.heap.collector.engine.Held p → w.memory.Legible w.heap.types p)
    (fits : w.heap.collector.engine.Fits w.memory) : w.LoopsEnd := by
  have checked := reached.checked
  have charted : w.heap.collector.engine.Charted w.heap.types w.memory :=
    ⟨reached.roomy.regular, reached.standing, legible, fits⟩
  constructor
  case marking =>
    intro c engine work
    rw [engine] at charted
    exact MarkSweep.markingEnds charted checked work
  case copying =>
    intro c engine healthy roots aligned
    have ledger := (reached.orderly healthy).ledger
    have begins := reached.spaces_aligned
    unfold Aligned at begins
    rw [engine] at charted ledger begins
    exact Copying.scanEnds charted ledger checked begins.1 begins.2 aligned
  case walking => exact fun space => charted.walkEnds space
  case census => exact fun formed => (formed.consistent_of_intact (charted.intact checked formed.unmarked)).censusEnds

/-- An object refers to itself and counts more references than it has room for. Two objects of another heap, which moves
them, refer to each other. -/
theorem loops_end_of_cycles :
    (∃ w c, Reached w ∧ w.Labelled ∧ w.heap.collector.engine = .markSweep c ∧ c.objects = [Memory.origin + 24] ∧
      w.memory.word (Memory.origin + 24) = 7 ∧ w.memory.word (Memory.origin + 32) = Memory.origin + 24 ∧ w.LoopsEnd) ∧
    ∃ w c, Reached w ∧ w.WellFormed ∧ w.heap.poisoned = none ∧ w.heap.collector.engine = .copying c ∧
      c.resident.toList = [Memory.origin + 24, Memory.origin + 64] ∧
      w.memory.word (Memory.origin + 32) = Memory.origin + 64 ∧
      w.memory.word (Memory.origin + 72) = Memory.origin + 24 ∧ w.LoopsEnd := by
  have first : ((World.play (fun w _ => w.heap.poisoned = none) { heapSize := 4096 } 1
      [.call (.register .references Descriptor.references_isWords), .call (.addGlobal (.cell 0)),
        .call (.allocateArray ⟨1⟩ 1), .setCell 0 (Memory.origin + 24), .writeWord (Memory.origin + 24) 0 7,
        .writeWord (Memory.origin + 24) 8 (Memory.origin + 24)]).any fun w =>
      w.Labelled ∧ w.onMarkSweep fun c => c.objects = [Memory.origin + 24] ∧ w.memory.word (Memory.origin + 24) = 7 ∧
        w.memory.word (Memory.origin + 32) = Memory.origin + 24) = true := by
    decide +kernel
  have second : ((World.play (fun w _ => w.heap.poisoned = none) { strategy := .copying, heapSize := 4096 } 1
      [.call (.register .references Descriptor.references_isWords), .call (.addGlobal (.cell 0)),
        .call (.allocateArray ⟨1⟩ 1), .setCell 0 (Memory.origin + 24), .call (.allocateArray ⟨1⟩ 1),
        .writeWord (Memory.origin + 24) 8 (Memory.origin + 64),
        .writeWord (Memory.origin + 64) 8 (Memory.origin + 24)]).any fun w =>
      (w.WellFormed ∧ w.heap.poisoned = none) ∧ w.onCopying fun c =>
        c.resident.toList = [Memory.origin + 24, Memory.origin + 64] ∧
        w.memory.word (Memory.origin + 32) = Memory.origin + 64 ∧
        w.memory.word (Memory.origin + 72) = Memory.origin + 24) = true := by
    decide +kernel
  constructor
  · obtain ⟨w, played, shown⟩ := (Option.any_eq_true _ _).1 first
    obtain ⟨labelled, shown⟩ := of_decide_eq_true shown
    obtain ⟨c, engine, shown⟩ := World.onMarkSweep_eq_true.1 shown
    obtain ⟨objects, count, word⟩ := of_decide_eq_true shown
    have reached := Reached.of_play played
    have ends : w.LoopsEnd :=
      loops_end reached (fun p held => ⟨⟨_, labelled.unmarked p held⟩, labelled.typed p held⟩) labelled.fits
    exact ⟨w, c, reached, labelled, engine, objects, count, word, ends⟩
  · obtain ⟨w, played, shown⟩ := (Option.any_eq_true _ _).1 second
    obtain ⟨⟨formed, healthy⟩, shown⟩ := of_decide_eq_true shown
    obtain ⟨c, engine, shown⟩ := World.onCopying_eq_true.1 shown
    obtain ⟨resident, forth, back⟩ := of_decide_eq_true shown
    have reached := Reached.of_play played
    have ends : w.LoopsEnd :=
      loops_end reached (fun p held => ⟨⟨_, formed.unmarked p held⟩, formed.typed p held⟩) formed.fits
    exact ⟨w, c, reached, formed, healthy, engine, resident, forth, back, ends⟩

end World

end TracingHeap
