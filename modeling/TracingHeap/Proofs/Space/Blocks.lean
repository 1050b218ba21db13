import Mathlib.Data.Finset.Lattice.Fold
import Mathlib.Order.Interval.Finset.Nat
import TracingHeap.Proofs.Space.FreeList
import TracingHeap.Proofs.Space.Tiled

/-! Blocks that do not overlap, and blocks that an object can use.

Blocks that do not overlap have together as many bytes as there are addresses in them. So two such lists with
the same addresses have the same total, however the addresses are divided. -/

set_option autoImplicit false

namespace TracingHeap

/-- The blocks have no address in common. -/
def Block.Apart (b b' : Block) : Prop := b.stop ≤ b'.start ∨ b'.stop ≤ b.start

theorem Block.apart_of_disjoint {b b' : Block} (positive : 0 < b.size) (positive' : 0 < b'.size)
    (disjoint : ∀ a, b.Contains a → ¬ b'.Contains a) : b.Apart b' := by
  unfold Apart Block.Contains Block.stop at *
  by_cases order : b.start ≤ b'.start
  · have out := disjoint b'.start
    omega
  · have out := disjoint b.start
    omega

/-- Aligned, and large enough for an object. -/
structure Block.Whole (b : Block) : Prop where
  start : wordSize ∣ b.start
  size : wordSize ∣ b.size
  large : smallestBlock ≤ b.size

theorem Block.Whole.positive {b : Block} (whole : b.Whole) : 0 < b.size :=
  Nat.lt_of_lt_of_le (by decide) whole.large

/-- What an object asks for is enough for a block. -/
theorem smallestBlock_le_footprint {size : Nat} (small : size ≤ largestPayload) : smallestBlock ≤ footprint size := by
  unfold smallestBlock
  rw [footprint_eq small, footprint_eq (Nat.zero_le _)]
  exact Nat.mul_le_mul_right _ (Nat.div_le_div_right (by omega))

example : smallestBlock = 24 := by decide

/-! ### Bytes together -/

theorem covers_append {blocks more : List Block} {a : Nat} :
    Covers (blocks ++ more) a ↔ Covers blocks a ∨ Covers more a := by
  simp only [Covers, List.mem_append, or_and_right, exists_or]

/-- All addresses in the blocks. -/
def addresses : List Block → Finset Nat
  | [] => ∅
  | b :: rest => Finset.Ico b.start b.stop ∪ addresses rest

theorem mem_addresses {blocks : List Block} {a : Nat} : a ∈ addresses blocks ↔ Covers blocks a := by
  induction blocks with
  | nil => simp [addresses, Covers]
  | cons b rest ih =>
    rw [covers_cons, ← ih, addresses, Finset.mem_union, Finset.mem_Ico]
    rfl

theorem card_addresses {blocks : List Block} (apart : blocks.Pairwise Block.Apart) :
    (addresses blocks).card = totalSize blocks := by
  induction blocks with
  | nil => rfl
  | cons b rest ih =>
    obtain ⟨first, others⟩ := List.pairwise_cons.1 apart
    have disjoint : Disjoint (Finset.Ico b.start b.stop) (addresses rest) := by
      refine Finset.disjoint_left.2 fun a inside later => ?_
      obtain ⟨x, member, low, high⟩ := mem_addresses.1 later
      obtain ⟨start, stop⟩ := Finset.mem_Ico.1 inside
      rcases first x member with below | above
      · omega
      · omega
    rw [totalSize_cons, ← ih others, addresses, Finset.card_union_of_disjoint disjoint, Nat.card_Ico, Block.stop,
      Nat.add_sub_cancel_left]

theorem totalSize_eq_of_covers {blocks blocks' : List Block} (apart : blocks.Pairwise Block.Apart)
    (apart' : blocks'.Pairwise Block.Apart) (same : ∀ a, Covers blocks a ↔ Covers blocks' a) :
    totalSize blocks = totalSize blocks' := by
  have equal : addresses blocks = addresses blocks' := by
    ext a
    rw [mem_addresses, mem_addresses, same]
  rw [← card_addresses apart, ← card_addresses apart', equal]

/-- Blocks between two addresses have together no more bytes than lie between them. -/
theorem totalSize_le_of_within {blocks : List Block} (apart : blocks.Pairwise Block.Apart) {low high : Nat}
    (within : ∀ b ∈ blocks, low ≤ b.start ∧ b.stop ≤ high) : totalSize blocks ≤ high - low := by
  rw [← card_addresses apart, ← Nat.card_Ico]
  refine Finset.card_le_card fun a member => ?_
  obtain ⟨b, known, inside⟩ := mem_addresses.1 member
  obtain ⟨first, last⟩ := within b known
  unfold Block.Contains at inside
  exact Finset.mem_Ico.2 ⟨by omega, by omega⟩

theorem Spaced.apart {blocks : List Block} (spaced : Spaced blocks) : blocks.Pairwise Block.Apart :=
  spaced.ordered.imp fun gap => .inl (Nat.le_of_lt gap)

/-! ### What the free list does to its blocks -/

namespace FreeList

variable {P : Block → Prop} {b taken upper : Block} {blocks others : List Block} {size : Nat}

theorem forall_put (all : ∀ x ∈ blocks, P x) (new : P b) : ∀ x ∈ put b blocks, P x := by
  induction blocks with
  | nil => simpa [put] using new
  | cons head rest ih =>
    obtain ⟨first, later⟩ := List.forall_mem_cons.1 all
    unfold put
    split
    · exact List.forall_mem_cons.2 ⟨first, ih later⟩
    · split
      · exact List.forall_mem_cons.2 ⟨new, later⟩
      · exact List.forall_mem_cons.2 ⟨new, all⟩

theorem forall_detach (all : ∀ x ∈ blocks, P x) {start : Nat} (found : detach start blocks = some (upper, others)) :
    P upper ∧ ∀ x ∈ others, P x := by
  induction blocks generalizing others with
  | nil => cases found
  | cons head rest ih =>
    obtain ⟨first, later⟩ := List.forall_mem_cons.1 all
    unfold detach at found
    split at found
    · cases found
      exact ⟨first, later⟩
    · split at found
      · cases found
      · obtain ⟨⟨b, others'⟩, found', same⟩ := Option.map_eq_some_iff.1 found
        cases same
        obtain ⟨that, left⟩ := ih later found'
        exact ⟨that, List.forall_mem_cons.2 ⟨first, left⟩⟩

-- Merging is asked for two blocks that touch. Blocks that do not are never merged, so nothing has to be known of
-- their sum.
theorem forall_putMerged (merge : ∀ x y, P x → P y → P ⟨x.start, x.size + y.size⟩) (all : ∀ x ∈ blocks, P x)
    (new : P b) : ∀ x ∈ putMerged b blocks, P x := by
  unfold putMerged
  split
  · next upper others found =>
    obtain ⟨that, left⟩ := forall_detach all found
    exact forall_put left (merge _ _ new that)
  · exact forall_put all new

/-- What holds of all blocks and of merged ones holds after a block has been given back. -/
theorem forall_insertBlock (merge : ∀ x y, P x → P y → P ⟨x.start, x.size + y.size⟩) (all : ∀ x ∈ blocks, P x)
    (new : P b) : ∀ x ∈ insertBlock b blocks, P x := by
  induction blocks with
  | nil => simpa [insertBlock] using new
  | cons head rest ih =>
    obtain ⟨first, later⟩ := List.forall_mem_cons.1 all
    unfold insertBlock
    split
    · exact forall_putMerged merge all new
    · split
      · exact List.forall_mem_cons.2 ⟨first, ih later⟩
      · split
        · exact forall_putMerged merge later (merge _ _ first new)
        · exact List.forall_mem_cons.2 ⟨first, forall_putMerged merge later new⟩

theorem whole_insertBlock (all : ∀ x ∈ blocks, x.Whole) (new : b.Whole) : ∀ x ∈ insertBlock b blocks, x.Whole :=
  forall_insertBlock (fun _ _ first second =>
    ⟨first.start, Nat.dvd_add first.size second.size, Nat.le_add_right_of_le first.large⟩) all new

/-- A block is cut only if both parts are large enough. -/
theorem whole_takeBlock (all : ∀ x ∈ blocks, x.Whole) (aligned : wordSize ∣ size) (large : smallestBlock ≤ size)
    (take : takeBlock size blocks = some (taken, others)) : taken.Whole ∧ ∀ x ∈ others, x.Whole := by
  induction blocks generalizing others with
  | nil => cases take
  | cons head rest ih =>
    obtain ⟨first, later⟩ := List.forall_mem_cons.1 all
    unfold takeBlock at take
    split at take
    · next fits =>
      split at take
      · next worth =>
        cases take
        refine ⟨⟨first.start, aligned, large⟩, forall_put later ?_⟩
        exact ⟨Nat.dvd_add first.start aligned, Nat.dvd_sub first.size aligned, worth⟩
      · cases take
        exact ⟨first, later⟩
    · obtain ⟨⟨taken', others'⟩, found, same⟩ := Option.map_eq_some_iff.1 take
      cases same
      obtain ⟨that, left⟩ := ih later found
      exact ⟨that, List.forall_mem_cons.2 ⟨first, left⟩⟩

/-- A block that is given back adds its bytes. -/
theorem totalSize_insertBlock (spaced : Spaced blocks) (positive : 0 < b.size) (apart : ∀ x ∈ blocks, b.Apart x) :
    totalSize (insertBlock b blocks) = b.size + totalSize blocks := by
  obtain ⟨spaced', covers⟩ := insertBlock_spec spaced positive fun x member => (apart x member).symm
  rw [← totalSize_cons]
  refine totalSize_eq_of_covers spaced'.apart (List.pairwise_cons.2 ⟨apart, spaced.apart⟩) fun a => ?_
  rw [covers, covers_cons]

-- A request for nothing takes nothing if the rest is a block of its own, so what is handed out may be empty.
/-- What is handed out and what stays make up the blocks. -/
theorem totalSize_takeBlock (spaced : Spaced blocks) (take : takeBlock size blocks = some (taken, others)) :
    totalSize blocks = taken.size + totalSize others := by
  obtain ⟨-, -, spaced', covers, cut⟩ := takeBlock_spec spaced take
  rcases Nat.eq_zero_or_pos taken.size with empty | positive
  · rw [empty, Nat.zero_add]
    refine totalSize_eq_of_covers spaced.apart spaced'.apart fun a => (covers a).trans (or_iff_right ?_)
    unfold Block.Contains Block.stop
    omega
  · rw [← totalSize_cons]
    refine totalSize_eq_of_covers spaced.apart (List.pairwise_cons.2 ⟨fun x member => ?_, spaced'.apart⟩) fun a => by
      rw [covers, covers_cons]
    exact Block.apart_of_disjoint positive (spaced'.positive x member) fun a inside free => cut a inside ⟨x, member, free⟩

end FreeList

end TracingHeap
