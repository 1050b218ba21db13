import TracingHeap.Proofs.Heap.Tending
import TracingHeap.Proofs.Heap.Views
import TracingHeap.Proofs.Statistics.Balance

/-! How many objects an engine holds, and how much room they take.

Whatever stands in the payloads, a collection that succeeds reports what it has given back and what is left, and the two
add up to what was there. A block for a request may be larger than the request, but never by as much as a block. -/

set_option autoImplicit false

namespace TracingHeap

theorem World.RootsOutside.aligned {w : World} (outside : w.RootsOutside)
    (moves : w.heap.collector.engine.strategy = .copying) (s : Slot) (root : s ∈ w.heap.roots.slots) : s.Aligned := by
  obtain ⟨i, rfl, -⟩ := outside moves s root
  trivial

namespace Engine

/-- The report accounts for what a collection has left of what was there. -/
structure Reconciles (e : Engine) (report : CollectionReport) (e' : Engine) : Prop where
  live : report.objectsLive = e'.objectCount
  objects : e.objectCount = report.objectsReclaimed + e'.objectCount
  bytes : e.liveBytes = report.bytesReclaimed + e'.liveBytes
  moved : report.objectsRelocated = e'.evacuated

-- Only an engine with a free list can find that what would be left of a block is of no use.
/-- There is one object more, in a block that may end in a tail. -/
structure Extends (e : Engine) (size : Nat) (e' : Engine) : Prop where
  objects : e'.objectCount = e.objectCount + 1
  bytes : ∃ tail, e'.liveBytes = e.liveBytes + size + tail ∧ tail ≤ 16 ∧ wordSize ∣ tail ∧
    (e.strategy ≠ .markSweep → tail = 0)

theorem Balances.reconciles {e e' : Engine} {report : CollectionReport} (balances : e.Balances report e') :
    e.Reconciles report e' := by
  obtain ⟨objects, bytes, objectsLive, bytesLive, moved, -⟩ := balances
  refine ⟨objectsLive.symm, ?_, ?_, moved⟩
  · rw [objectsLive, Nat.add_comm]
    exact objects.symm
  · rw [bytesLive, Nat.add_comm]
    exact bytes.symm

/-! ### Collections -/

variable {w : World} {e : Engine} {m : Memory} {report : CollectionReport}

/-- A collection that succeeds accounts for all objects and for all room. -/
theorem reconciles (tidy : w.Tidy) (healthy : w.heap.poisoned = none) (outside : w.RootsOutside) (complete : w.Complete)
    (aligned : w.Aligned)
    (ran : Engine.collect w.heap.types w.heap.roots.slots (w.heap.collector.engine, w.memory) = .ok report (e, m)) :
    w.heap.collector.engine.Reconciles report e :=
  (balances (tidy.labelled healthy) (tidy.books healthy) complete aligned outside.aligned ran).reconciles

end Engine

/-! ### Requests -/

section

variable {types : TypeTable} {m : Memory} {size block : Nat}

/-- The block that is handed out is recorded with all of its bytes. -/
theorem MarkSweep.blocks_allocate {c c' : MarkSweep} (complete : Complete c) (large : headerSize ≤ size)
    (allocated : c.allocate size = some (block, c')) :
    ∃ n, size ≤ n ∧ n < size + smallestBlock ∧ c'.blocks.Perm (⟨block, n⟩ :: c.blocks) := by
  obtain ⟨-, -, -, n, fits, close, free, records⟩ := ledger_allocate complete.ledger large allocated
  -- The block was free, so it takes the place of no record.
  have fresh (n' : Nat) : c.records[block]? ≠ some n' := by
    intro record
    have first : Covers c.free.blocks block := free block (Nat.le_refl _) (by unfold headerSize at large; omega)
    have large' := (complete.ledger.record _ _ record).1
    exact complete.ledger.cut _ _ block record (Nat.le_refl _) (by unfold headerSize at large'; omega) first
  have distinct : (⟨block, n⟩ :: c.blocks).Nodup :=
    List.nodup_cons.2 ⟨fun member => fresh n (mem_blocks.1 member), nodup_blocks c⟩
  refine ⟨n, fits, close, (List.perm_ext_iff_of_nodup (nodup_blocks c') distinct).2 fun ⟨b, n'⟩ => ?_⟩
  rw [mem_blocks, records, List.mem_cons, mem_blocks, Block.mk.injEq]
  by_cases here : b = block
  · subst here
    simp only [if_true, Option.some.injEq, true_and, fresh, or_false, eq_comm]
  · simp only [here, if_false, false_and, false_or]

namespace Engine

variable {e e' : Engine} (charted : e.Charted types m) (ledger : e.Ledger m) (small : size ≤ largestPayload)
  (allocated : e.allocate (footprint size) = some (block, e'))

include charted ledger small allocated

theorem objectCount_allocate : e'.objectCount = e.objectCount + 1 := by
  have granted := charted.granted ledger small allocated
  have fresh : ¬ e.Held (payloadOf block) := by
    intro held
    have away := granted.apart _ held
    have span := charted.spans held
    have spans := le_footprint small
    rw [blockOf_payloadOf] at away
    unfold headerSize at *
    omega
  have nodup (e : Engine) : e.list.Nodup := (sorted_list e).imp Nat.ne_of_lt
  have distinct : (payloadOf block :: e.list).Nodup := List.nodup_cons.2 ⟨mt mem_list.1 fresh, nodup e⟩
  have perm : e'.list.Perm (payloadOf block :: e.list) := by
    refine (List.perm_ext_iff_of_nodup (nodup e') distinct).2 fun p => ?_
    rw [mem_list, granted.held, List.mem_cons, mem_list]
  rw [← length_list, ← length_list, perm.length_eq, List.length_cons]

/-- An object takes its footprint, and what is left of a block if that is of no use. -/
theorem extends_allocate (complete : ∀ c, e = .markSweep c → c.Complete) : e.Extends (footprint size) e' := by
  refine ⟨objectCount_allocate charted ledger small allocated, ?_⟩
  cases e with
  | markSweep c =>
    obtain ⟨⟨block', c'⟩, found, same⟩ := Option.map_eq_some_iff.1 allocated
    cases same
    have complete := complete c rfl
    have large := smallestBlock_le_footprint small
    obtain ⟨n, fits, close, blocks⟩ := MarkSweep.blocks_allocate complete (Nat.le_trans (by decide) large) found
    have complete' := MarkSweep.complete_allocate complete (dvd_footprint _) large found
    have whole : Block.Whole ⟨block, n⟩ := complete'.record _ _ (MarkSweep.mem_blocks.1 (blocks.mem_iff.2 List.mem_cons_self))
    have multiple : wordSize ∣ n - footprint size := Nat.dvd_sub whole.size (dvd_footprint _)
    have short : n - footprint size ≤ 16 := by
      have block : smallestBlock = 24 := by decide
      unfold wordSize at multiple
      omega
    refine ⟨n - footprint size, ?_, short, multiple, fun stays => absurd rfl stays⟩
    show c'.liveBytes = c.liveBytes + footprint size + _
    rw [complete'.partition.liveBytes, complete.partition.liveBytes, MarkSweep.totalSize_perm blocks, totalSize_cons]
    show n + _ = _
    omega
  | copying c =>
    cases Engine.allocated allocated
    exact ⟨0, rfl, by decide, Nat.dvd_zero _, fun _ => rfl⟩
  | leaky c =>
    cases Engine.allocated allocated
    exact ⟨0, rfl, by decide, Nat.dvd_zero _, fun _ => rfl⟩

end Engine

end

end TracingHeap
