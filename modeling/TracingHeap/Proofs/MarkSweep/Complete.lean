import TracingHeap.Config.Basic
import TracingHeap.Proofs.MarkSweep.Collection
import TracingHeap.Proofs.Space.Blocks
import TracingHeap.Proofs.Space.Gaps

/-! No byte of the arena is lost.

Every address of the arena is free or recorded, and whatever is free or recorded can be used by an object.
Neither depends on what is in the memory. -/

set_option autoImplicit false

namespace TracingHeap

theorem wordSize_dvd_base (k : Nat) : wordSize ∣ Memory.base k :=
  Nat.dvd_add (by decide) (Nat.dvd_mul_left_of_dvd (by decide) k)

namespace MarkSweep

/-- The books leave nothing out, and all blocks in them are of use. -/
structure Complete (c : MarkSweep) : Prop where
  ledger : c.Ledger
  filled : ∀ a, c.start ≤ a → a < c.start + c.size →
    Covers c.free.blocks a ∨ ∃ b n, c.records[b]? = some n ∧ b ≤ a ∧ a < b + n
  free : ∀ x ∈ c.free.blocks, x.Whole
  record : ∀ b n : Nat, c.records[b]? = some n → (Block.mk b n).Whole
  counted : c.free.freeBytes = totalSize c.free.blocks

variable {c c' : MarkSweep} {m m' : Memory} {size block : Nat} {b : Block}

theorem complete_create {start heapSize : Nat} (large : smallestHeap ≤ heapSize) (aligned : wordSize ∣ heapSize)
    (granted : m.grant heapSize = some (start, m')) :
    Complete { start, size := heapSize, free := FreeList.insert {} start heapSize } := by
  have base : start = Memory.base m.arenas.size := by
    unfold Memory.grant at granted
    split at granted <;> cases granted
    rfl
  constructor
  case ledger => exact ledger_create (Nat.lt_of_lt_of_le (by decide) large)
  case filled => exact fun a low high => .inl ⟨_, List.mem_singleton_self _, low, high⟩
  case free =>
    intro x member
    cases List.mem_singleton.1 member
    exact ⟨base ▸ wordSize_dvd_base _, aligned, Nat.le_trans (by decide) large⟩
  case record =>
    intro b n found
    cases found
  case counted => rfl

/-- A recorded block keeps clear of the free ones. -/
theorem Complete.apart_free (complete : Complete c) (record : c.records[b.start]? = some b.size) :
    ∀ x ∈ c.free.blocks, b.Apart x := by
  intro x member
  refine Block.apart_of_disjoint (complete.record _ _ record).positive (complete.free x member).positive ?_
  exact fun a inside free => complete.ledger.cut _ _ a record inside.1 inside.2 ⟨x, member, free⟩

theorem complete_allocate (complete : Complete c) (aligned : wordSize ∣ size) (large : smallestBlock ≤ size)
    (allocated : c.allocate size = some (block, c')) : Complete c' := by
  have ledger' := (ledger_allocate complete.ledger (Nat.le_trans (by decide) large) allocated).1
  obtain ⟨⟨taken, free⟩, took, same⟩ := Option.map_eq_some_iff.1 allocated
  obtain ⟨⟨taken', blocks⟩, found, same'⟩ := Option.map_eq_some_iff.1 took
  cases same'
  cases same
  obtain ⟨-, -, spaced, covers, cut⟩ := FreeList.takeBlock_spec complete.ledger.spaced found
  obtain ⟨whole, left⟩ := FreeList.whole_takeBlock complete.free aligned large found
  have lookup (b : Nat) : (c.records.insert taken.start taken.size)[b]? =
      if b = taken.start then some taken.size else c.records[b]? := by
    rw [Std.TreeMap.getElem?_insert]
    simp only [Std.LawfulEqCmp.compare_eq_iff_eq, eq_comm (a := taken.start)]
  have first : Covers c.free.blocks taken.start :=
    (covers _).2 (.inl ⟨Nat.le_refl _, Nat.lt_add_of_pos_right whole.positive⟩)
  constructor
  case ledger => exact ledger'
  case filled =>
    intro a low high
    rcases complete.filled a low high with free | ⟨b, n, record, low, high⟩
    · rcases (covers a).1 free with here | there
      · exact .inr ⟨taken.start, taken.size, by rw [lookup, if_pos rfl], here⟩
      · exact .inl there
    · -- The block that is handed out was free, so it takes the place of no record.
      have other : b ≠ taken.start := by
        rintro rfl
        exact complete.ledger.cut _ _ _ record (Nat.le_refl _) (Nat.lt_of_le_of_lt low high) first
      exact .inr ⟨b, n, by rw [lookup, if_neg other, record], low, high⟩
  case free => exact left
  case record =>
    intro b n found
    rw [lookup] at found
    split at found
    · next here =>
      cases found
      cases here
      exact whole
    · exact complete.record b n found
  case counted =>
    show c.free.freeBytes - taken.size = totalSize blocks
    rw [complete.counted, FreeList.totalSize_takeBlock complete.ledger.spaced found, Nat.add_sub_cancel_left]

theorem complete_reclaim (complete : Complete c) (regular : m.Regular) (inside : m.holds c.start c.size = true)
    (record : c.records[b.start]? = some b.size) (ran : c.reclaim b m = .ok c' m') : Complete c' := by
  obtain ⟨c₁, ran₁, ledger, -, -, room, records, covers⟩ := reclaim_ok complete.ledger regular inside record
  cases ran.symm.trans ran₁
  have cleared : Access.clear b.start b.size m = .ok () (m.clear b.start b.size) := Access.guarded_ok room
  rw [reclaim, run_bind cleared] at ran
  cases ran
  have whole : b.Whole := complete.record _ _ record
  constructor
  case ledger => exact ledger
  case filled =>
    intro a low high
    rcases complete.filled a low high with free | ⟨k, n, old, low, high⟩
    · exact .inl ((covers a).2 (.inr free))
    · by_cases here : k = b.start
      · cases here
        cases old.symm.trans record
        exact .inl ((covers a).2 (.inl ⟨low, high⟩))
      · exact .inr ⟨k, n, by rw [records, if_neg here, old], low, high⟩
  case free => exact FreeList.whole_insertBlock complete.free whole
  case record =>
    intro k n found
    rw [records] at found
    split at found
    · cases found
    · exact complete.record k n found
  case counted =>
    show c.free.freeBytes + b.size = totalSize (FreeList.insertBlock b c.free.blocks)
    rw [FreeList.totalSize_insertBlock complete.ledger.spaced whole.positive (complete.apart_free record),
      complete.counted, Nat.add_comm]

-- The induction is that of `reclaimAll_ok`: a block is still recorded when its turn comes.
theorem complete_reclaimAll {dead : List Block} (complete : Complete c) (regular : m.Regular)
    (inside : m.holds c.start c.size = true) (records : ∀ b ∈ dead, c.records[b.start]? = some b.size)
    (nodup : (dead.map Block.start).Nodup) (ran : c.reclaimAll dead m = .ok c' m') : Complete c' := by
  induction dead generalizing c m with
  | nil =>
    cases ran
    exact complete
  | cons b rest ih =>
    obtain ⟨c₁, ran₁, -, start₁, size₁, -, records₁, -⟩ :=
      reclaim_ok complete.ledger regular inside (records b List.mem_cons_self)
    obtain ⟨fresh, nodup⟩ := List.nodup_cons.1 nodup
    have shape := Memory.sameShape_clear m b.start b.size
    rw [reclaimAll, run_bind ran₁] at ran
    refine ih (complete_reclaim complete regular inside (records b List.mem_cons_self) ran₁)
      (regular.of_sameShape shape) (by rw [shape.holds, start₁, size₁]; exact inside) (fun x member => ?_) nodup ran
    rw [records₁, if_neg fun same => fresh (List.mem_map.2 ⟨x, member, same⟩)]
    exact records x (List.mem_cons_of_mem b member)

theorem complete_collect {types : TypeTable} {roots : List Slot} {report : CollectionReport} (complete : Complete c)
    (regular : m.Regular) (inside : m.holds c.start c.size = true)
    (ran : c.collect types roots m = .ok (c', report) m') : Complete c' := by
  obtain ⟨m₁, dead, shape, records, nodup, reclaimed⟩ := collect_eq_ok ran
  exact complete_reclaimAll complete (regular.of_sameShape shape) (shape.holds _ _ ▸ inside) records nodup reclaimed

/-! ### The arena in blocks -/

/-- The recorded and the free blocks make up the arena. -/
structure Partition (c : MarkSweep) : Prop where
  covers : ∀ a, Covers (c.blocks ++ c.free.blocks) a ↔ c.start ≤ a ∧ a < c.start + c.size
  apart : (c.blocks ++ c.free.blocks).Pairwise Block.Apart
  whole : ∀ b ∈ c.blocks ++ c.free.blocks, b.Whole
  merged : ∀ b ∈ c.free.blocks, ∀ b' ∈ c.free.blocks, b.stop ≠ b'.start
  freeBytes : c.free.freeBytes = totalSize c.free.blocks
  liveBytes : c.liveBytes = totalSize c.blocks

theorem covers_blocks {a : Nat} : Covers c.blocks a ↔ ∃ b n, c.records[b]? = some n ∧ b ≤ a ∧ a < b + n :=
  ⟨fun ⟨x, member, low, high⟩ => ⟨x.start, x.size, mem_blocks.1 member, low, high⟩,
    fun ⟨b, n, record, low, high⟩ => ⟨⟨b, n⟩, mem_blocks.2 record, low, high⟩⟩

theorem Complete.covers (complete : Complete c) (a : Nat) :
    Covers (c.blocks ++ c.free.blocks) a ↔ c.start ≤ a ∧ a < c.start + c.size := by
  rw [covers_append, covers_blocks]
  constructor
  · rintro (⟨b, n, record, low, high⟩ | free)
    · obtain ⟨-, first, last⟩ := complete.ledger.record b n record
      omega
    · exact complete.ledger.within a free
  · exact fun ⟨low, high⟩ => (complete.filled a low high).symm

theorem Complete.apart (complete : Complete c) : (c.blocks ++ c.free.blocks).Pairwise Block.Apart := by
  refine List.pairwise_append.2 ⟨?_, complete.ledger.spaced.apart, fun b member x free => ?_⟩
  · -- Two records start at different addresses, and the books say how far they are apart.
    refine (List.pairwise_map.1 (nodup_starts c)).imp_of_mem fun {b b'} member member' other => ?_
    rcases Nat.lt_or_gt_of_ne other with less | greater
    · exact .inl (complete.ledger.apart _ _ _ _ (mem_blocks.1 member) (mem_blocks.1 member') less)
    · exact .inr (complete.ledger.apart _ _ _ _ (mem_blocks.1 member') (mem_blocks.1 member) greater)
  · exact complete.apart_free (mem_blocks.1 member) x free

theorem Complete.total (complete : Complete c) : totalSize c.blocks + totalSize c.free.blocks = c.size := by
  have whole : totalSize (c.blocks ++ c.free.blocks) = totalSize [⟨c.start, c.size⟩] := by
    refine totalSize_eq_of_covers complete.apart (List.pairwise_singleton _ _) fun a => ?_
    rw [complete.covers, covers_cons]
    exact (or_iff_left (not_covers_nil a)).symm
  rw [totalSize_append] at whole
  simpa [totalSize] using whole

theorem Complete.partition (complete : Complete c) : Partition c := by
  constructor
  case covers => exact complete.covers
  case apart => exact complete.apart
  case whole =>
    intro b member
    rcases List.mem_append.1 member with record | free
    · exact complete.record _ _ (mem_blocks.1 record)
    · exact complete.free b free
  case merged =>
    exact fun b member b' member' => complete.ledger.spaced.stop_ne_start member member'
  case freeBytes => exact complete.counted
  case liveBytes =>
    have whole := complete.total
    have counted := complete.counted
    unfold liveBytes
    omega

end MarkSweep

end TracingHeap
