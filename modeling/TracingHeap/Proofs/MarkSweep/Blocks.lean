import TracingHeap.Collector.MarkSweep
import TracingHeap.Proofs.Computation
import TracingHeap.Proofs.Memory.Words
import TracingHeap.Proofs.Space.FreeList

/-! The books of a collector that does not move.

The recorded blocks and the free ones lie in the arena and do not overlap. This does not depend on what is
in the memory. -/

set_option autoImplicit false

namespace TracingHeap

namespace MarkSweep

-- What is free is said address by address: blocks that touch are merged when they are freed, so the free list
-- cannot be compared with the records block by block.
structure Ledger (c : MarkSweep) : Prop where
  spaced : Spaced c.free.blocks
  within : ∀ a, Covers c.free.blocks a → c.start ≤ a ∧ a < c.start + c.size
  record : ∀ b n : Nat, c.records[b]? = some n → headerSize ≤ n ∧ c.start ≤ b ∧ b + n ≤ c.start + c.size
  apart : ∀ b n b' n' : Nat, c.records[b]? = some n → c.records[b']? = some n' → b < b' → b + n ≤ b'
  cut : ∀ b n a : Nat, c.records[b]? = some n → b ≤ a → a < b + n → ¬ Covers c.free.blocks a

variable {c c' : MarkSweep} {m m' : Memory} {size p : Nat}

theorem low_of_owns (owns : c.owns p = true) : headerSize ≤ p := by
  simp only [MarkSweep.owns, Bool.and_eq_true, decide_eq_true_eq] at owns
  exact owns.1

theorem owns_iff : c.owns p = true ↔ headerSize ≤ p ∧ ∃ n, c.records[blockOf p]? = some n := by
  simp only [MarkSweep.owns, Bool.and_eq_true, decide_eq_true_eq, Std.TreeMap.contains_eq_isSome_getElem?,
    Option.isSome_iff_exists]

theorem owns_payloadOf {b n : Nat} (record : c.records[b]? = some n) : c.owns (payloadOf b) = true :=
  owns_iff.2 ⟨Nat.le_add_left .., n, by rwa [blockOf, payloadOf, Nat.add_sub_cancel]⟩

theorem ledger_create {start heapSize : Nat} (positive : 0 < heapSize) :
    Ledger { start, size := heapSize, free := FreeList.insert {} start heapSize } := by
  have covers (a : Nat) : Covers [⟨start, heapSize⟩] a ↔ (Block.mk start heapSize).Contains a := by
    simp [Covers]
  constructor
  case spaced => exact Spaced.nil.cons positive fun _ member => absurd member List.not_mem_nil
  case within => exact fun a covered => (covers a).1 covered
  case record =>
    intro b n found
    cases found
  case apart =>
    intro b n b' n' found
    cases found
  case cut =>
    intro b n a found
    cases found

section

variable {block n : Nat} (ledger : Ledger c) (positive : 0 < n)
  (free : ∀ a, block ≤ a → a < block + n → Covers c.free.blocks a)

include ledger positive free

/-- The first and the last byte of a free block are in the arena. -/
theorem inside_of_free : c.start ≤ block ∧ block + n ≤ c.start + c.size := by
  have first := ledger.within block (free block (Nat.le_refl _) (by omega))
  have last := ledger.within (block + n - 1) (free (block + n - 1) (by omega) (by omega))
  omega

/-- A recorded block keeps clear of what is free. -/
theorem clear_of_free {b n' : Nat} (record : c.records[b]? = some n') : b + n' ≤ block ∨ block + n ≤ b := by
  by_cases order : b ≤ block
  · refine .inl (Nat.le_of_not_lt fun meet => ledger.cut b n' block record order meet ?_)
    exact free block (Nat.le_refl _) (by omega)
  · refine .inr (Nat.le_of_not_lt fun meet => ledger.cut b n' b record (Nat.le_refl b) ?_ (free b (by omega) meet))
    have large := (ledger.record b n' record).1
    unfold headerSize at large
    omega

end

/-- A block that is handed out was free and is recorded. -/
theorem ledger_allocate (ledger : Ledger c) (large : headerSize ≤ size) {block : Nat}
    (allocated : c.allocate size = some (block, c')) : Ledger c' ∧ c'.start = c.start ∧ c'.size = c.size ∧
      ∃ n, size ≤ n ∧ n < size + smallestBlock ∧ (∀ a, block ≤ a → a < block + n → Covers c.free.blocks a) ∧
        ∀ b, c'.records[b]? = if b = block then some n else c.records[b]? := by
  obtain ⟨⟨taken, free⟩, took, same⟩ := Option.map_eq_some_iff.1 allocated
  obtain ⟨⟨taken', blocks⟩, found, same'⟩ := Option.map_eq_some_iff.1 took
  cases same'
  cases same
  obtain ⟨fits, close, spaced, covers, cut⟩ := FreeList.takeBlock_spec ledger.spaced found
  have lookup (b : Nat) : (c.records.insert taken.start taken.size)[b]? =
      if b = taken.start then some taken.size else c.records[b]? := by
    rw [Std.TreeMap.getElem?_insert]
    simp only [Std.LawfulEqCmp.compare_eq_iff_eq, eq_comm (a := taken.start)]
  have free (a : Nat) (low : taken.start ≤ a) (high : a < taken.start + taken.size) : Covers c.free.blocks a :=
    (covers a).2 (.inl ⟨low, high⟩)
  have positive : 0 < taken.size := by
    unfold headerSize at large
    omega
  refine ⟨?_, rfl, rfl, taken.size, fits, close, free, lookup⟩
  constructor
  case spaced => exact spaced
  case within => exact fun a covered => ledger.within a ((covers a).2 (.inr covered))
  case record =>
    intro b n found
    rw [lookup] at found
    split at found
    · next new =>
      cases found
      subst new
      have inside := inside_of_free ledger positive free
      exact ⟨Nat.le_trans large fits, inside⟩
    · exact ledger.record b n found
  case apart =>
    intro b n b' n' found found' order
    rw [lookup] at found found'
    split at found <;> split at found'
    · next new new' => omega
    · next new old =>
      cases found
      subst new
      have := clear_of_free ledger positive free found'
      omega
    · next old new =>
      cases found'
      subst new
      have := clear_of_free ledger positive free found
      have := (ledger.record b n found).1
      unfold headerSize at this
      omega
    · exact ledger.apart b n b' n' found found' order
  case cut =>
    intro b n a found low high covered
    rw [lookup] at found
    split at found
    · next new =>
      cases found
      subst new
      exact cut a ⟨low, high⟩ covered
    · exact ledger.cut b n a found low high ((covers a).2 (.inr covered))

/-- Only bytes inside the block are zeroed, and only its record is given up. -/
theorem reclaim_ok (ledger : Ledger c) (regular : m.Regular) (inside : m.holds c.start c.size = true) {b : Block}
    (record : c.records[b.start]? = some b.size) : ∃ c', c.reclaim b m = .ok c' (m.clear b.start b.size) ∧ Ledger c' ∧
      c'.start = c.start ∧ c'.size = c.size ∧ m.holds b.start b.size = true ∧
      (∀ k, c'.records[k]? = if k = b.start then none else c.records[k]?) ∧
      ∀ a, Covers c'.free.blocks a ↔ b.Contains a ∨ Covers c.free.blocks a := by
  obtain ⟨large, low, high⟩ := ledger.record _ _ record
  have room := Memory.holds_of_range regular inside low high
  have lookup (k : Nat) : (c.records.erase b.start)[k]? = if k = b.start then none else c.records[k]? := by
    rw [Std.TreeMap.getElem?_erase]
    simp only [Std.LawfulEqCmp.compare_eq_iff_eq, eq_comm (a := b.start)]
  have positive : 0 < b.size := by unfold headerSize at large; omega
  have outside (x : Block) (member : x ∈ c.free.blocks) : x.stop ≤ b.start ∨ b.stop ≤ x.start := by
    have sized := ledger.spaced.positive x member
    unfold Block.stop
    by_cases order : x.start ≤ b.start
    · refine .inl (Nat.le_of_not_lt fun meet => ledger.cut _ _ b.start record (Nat.le_refl _) (by omega) ?_)
      exact ⟨x, member, order, meet⟩
    · refine .inr (Nat.le_of_not_lt fun meet => ledger.cut _ _ x.start record (by omega) meet ?_)
      exact ⟨x, member, Nat.le_refl _, by unfold Block.stop; omega⟩
  obtain ⟨spaced, covers⟩ := FreeList.insertBlock_spec ledger.spaced positive outside
  have kept (k n : Nat) (found : (c.records.erase b.start)[k]? = some n) : k ≠ b.start ∧ c.records[k]? = some n := by
    rw [lookup] at found
    split at found
    · cases found
    · next other => exact ⟨other, found⟩
  refine ⟨{ c with records := c.records.erase b.start, free := c.free.insert b.start b.size }, ?_, ?_, rfl, rfl, room,
    lookup, covers⟩
  · have cleared : Access.clear b.start b.size m = .ok () (m.clear b.start b.size) := Access.guarded_ok room
    rw [reclaim, run_bind cleared]
    rfl
  constructor
  case spaced => exact spaced
  case within =>
    intro a covered
    rcases (covers a).1 covered with ⟨first, last⟩ | old
    · unfold Block.stop at last
      show c.start ≤ a ∧ a < c.start + c.size
      omega
    · exact ledger.within a old
  case record => exact fun k n found => ledger.record k n (kept k n found).2
  case apart =>
    exact fun k n k' n' found found' => ledger.apart k n k' n' (kept k n found).2 (kept k' n' found').2
  case cut =>
    intro k n a found first last covered
    obtain ⟨other, old⟩ := kept k n found
    rcases (covers a).1 covered with ⟨start, stop⟩ | free
    · unfold Block.stop at stop
      rcases Nat.lt_or_gt_of_ne other with before | behind
      · have := ledger.apart _ _ _ _ old record before
        omega
      · have := ledger.apart _ _ _ _ record old behind
        omega
    · exact ledger.cut k n a old first last free

-- By induction on the dead blocks. Giving one back leaves the records of the others, as they start elsewhere, and
-- so each is still recorded when its turn comes.
theorem reclaimAll_ok (ledger : Ledger c) (regular : m.Regular) (inside : m.holds c.start c.size = true)
    {dead : List Block} (records : ∀ b ∈ dead, c.records[b.start]? = some b.size)
    (nodup : (dead.map Block.start).Nodup) : ∃ c' m', c.reclaimAll dead m = .ok c' m' ∧ Ledger c' ∧
      c'.start = c.start ∧ c'.size = c.size ∧ m.SameShape m' ∧ m'.cells = m.cells ∧
      (∀ k, c'.records[k]? = if k ∈ dead.map Block.start then none else c.records[k]?) ∧
      (∀ a, Covers c'.free.blocks a ↔ Covers dead a ∨ Covers c.free.blocks a) ∧
      ∀ a, (Covers dead a → m'.byte a = 0) ∧ (¬ Covers dead a → m'.byte a = m.byte a) := by
  induction dead generalizing c m with
  | nil =>
    refine ⟨c, m, rfl, ledger, rfl, rfl, .refl m, rfl, fun k => by simp, fun a => ?_, fun a => ⟨fun none => ?_, fun _ => rfl⟩⟩
    · simp [not_covers_nil]
    · exact absurd none (not_covers_nil a)
  | cons b rest ih =>
    obtain ⟨c₁, ran, ledger₁, start₁, size₁, room, records₁, covers₁⟩ :=
      reclaim_ok ledger regular inside (records b List.mem_cons_self)
    obtain ⟨fresh, nodup⟩ := List.nodup_cons.1 nodup
    have shape := Memory.sameShape_clear m b.start b.size
    have left (x : Block) (member : x ∈ rest) : c₁.records[x.start]? = some x.size := by
      rw [records₁, if_neg fun same => fresh (List.mem_map.2 ⟨x, member, same⟩)]
      exact records x (List.mem_cons_of_mem b member)
    obtain ⟨c', m', ran', ledger', start', size', shape', cells', records', covers', bytes'⟩ :=
      ih ledger₁ (regular.of_sameShape shape) (by rw [shape.holds, start₁, size₁]; exact inside) left nodup
    refine ⟨c', m', ?_, ledger', start'.trans start₁, size'.trans size₁, shape.trans shape', ?_, fun k => ?_,
      fun a => ?_, fun a => ⟨fun covered => ?_, fun clear => ?_⟩⟩
    · rw [reclaimAll, run_bind ran, ran']
    · rw [cells', Memory.clear, Memory.cells_modifyArena]
    · rw [records', records₁, List.map_cons]
      by_cases here : k = b.start
      · simp [here]
      · simp [here]
    · rw [covers', covers₁, covers_cons]
      exact or_left_comm.trans (or_assoc.symm)
    · by_cases later : Covers rest a
      · exact (bytes' a).1 later
      · have here := (covers_cons.1 covered).resolve_right later
        rw [(bytes' a).2 later, Memory.byte_clear regular room, if_pos ⟨here.1, here.2⟩]
    · have out : ¬ (b.start ≤ a ∧ a < b.start + b.size) := fun here => clear (covers_cons.2 (.inl here))
      rw [(bytes' a).2 fun later => clear (covers_cons.2 (.inr later)), Memory.byte_clear regular room, if_neg out]

end MarkSweep

end TracingHeap
