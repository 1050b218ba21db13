import Mathlib.Algebra.GroupWithZero.Nat
import TracingHeap.Space.FreeList

/-! The free list covers exactly what has been given back and not handed out again.

Its blocks stand in the order of their addresses, none is empty, and between two of them lies at least one
byte that is not free. So the addresses that are covered determine the list. -/

set_option autoImplicit false

namespace TracingHeap

def Block.Contains (b : Block) (a : Nat) : Prop := b.start ≤ a ∧ a < b.stop

/-- Two blocks that touch hold together what the merged block holds. -/
theorem Block.contains_merge {b x : Block} (touch : x.start = b.stop) (a : Nat) :
    (Block.mk b.start (b.size + x.size)).Contains a ↔ b.Contains a ∨ x.Contains a := by
  simp only [Contains, stop] at *
  omega

/-- The address lies in one of the blocks. -/
def Covers (blocks : List Block) (a : Nat) : Prop := ∃ b ∈ blocks, b.Contains a

theorem covers_cons {b : Block} {blocks : List Block} {a : Nat} :
    Covers (b :: blocks) a ↔ b.Contains a ∨ Covers blocks a := by
  simp [Covers]

theorem not_covers_nil (a : Nat) : ¬ Covers [] a := fun ⟨_, member, _⟩ => List.not_mem_nil member

theorem totalSize_eq_sum (blocks : List Block) : totalSize blocks = (blocks.map Block.size).sum := by
  rw [totalSize, List.sum_eq_foldl, List.foldl_map]

theorem totalSize_cons (b : Block) (blocks : List Block) : totalSize (b :: blocks) = b.size + totalSize blocks := by
  simp only [totalSize_eq_sum, List.map_cons, List.sum_cons]

theorem totalSize_append (blocks more : List Block) :
    totalSize (blocks ++ more) = totalSize blocks + totalSize more := by
  simp only [totalSize_eq_sum, List.map_append, List.sum_append]

theorem totalSize_reverse (blocks : List Block) : totalSize blocks.reverse = totalSize blocks := by
  simp only [totalSize_eq_sum, List.map_reverse, List.sum_reverse]

/-- In order, with gaps between the blocks. -/
structure Spaced (blocks : List Block) : Prop where
  ordered : blocks.Pairwise fun b b' => b.stop < b'.start
  positive : ∀ b ∈ blocks, 0 < b.size

namespace Spaced

variable {b head : Block} {blocks rest : List Block}

theorem nil : Spaced [] := ⟨.nil, fun _ member => absurd member List.not_mem_nil⟩

theorem tail (spaced : Spaced (head :: rest)) : Spaced rest :=
  ⟨(List.pairwise_cons.1 spaced.ordered).2, fun b member => spaced.positive b (List.mem_cons_of_mem head member)⟩

theorem head_lt (spaced : Spaced (head :: rest)) (member : b ∈ rest) : head.stop < b.start :=
  (List.pairwise_cons.1 spaced.ordered).1 b member

theorem head_pos (spaced : Spaced (head :: rest)) : 0 < head.size := spaced.positive head List.mem_cons_self

theorem cons (spaced : Spaced rest) (positive : 0 < head.size) (below : ∀ b ∈ rest, head.stop < b.start) :
    Spaced (head :: rest) := by
  refine ⟨List.pairwise_cons.2 ⟨below, spaced.ordered⟩, fun b member => ?_⟩
  rcases List.mem_cons.1 member with rfl | later
  · exact positive
  · exact spaced.positive b later

theorem covers_start (spaced : Spaced blocks) (member : b ∈ blocks) : Covers blocks b.start :=
  ⟨b, member, Nat.le_refl _, Nat.lt_add_of_pos_right (spaced.positive b member)⟩

/-- A block can stand in front of others whose addresses are covered by blocks behind it. -/
theorem cons_of_covers (spaced : Spaced rest) (positive : 0 < head.size)
    (behind : ∀ a, Covers rest a → head.stop < a) : Spaced (head :: rest) :=
  spaced.cons positive fun _ member => behind _ (spaced.covers_start member)

end Spaced

namespace FreeList

variable {b head taken : Block} {blocks rest others : List Block} {size : Nat}

/-- In front of blocks that all start behind it, a block is put first. -/
theorem put_of_lt (below : ∀ x ∈ blocks, b.stop < x.start) : put b blocks = b :: blocks := by
  cases blocks with
  | nil => rfl
  | cons head rest =>
    have gap := below head List.mem_cons_self
    unfold Block.stop at gap
    rw [put, if_neg (by omega), if_neg (by omega)]

theorem stop_lt_of_startsBelow (spaced : Spaced (head :: rest)) {a : Nat} (below : startsBelow a rest = true) :
    head.stop < a := by
  cases rest with
  | nil => cases below
  | cons next rest =>
    have gap := spaced.head_lt (b := next) List.mem_cons_self
    have order : next.start < a := by simpa [startsBelow] using below
    exact Nat.lt_trans gap order

/-- The blocks are in order, so the first tells whether any starts below an address. -/
theorem le_start_of_not_startsBelow (spaced : Spaced blocks) {a : Nat} (none : ¬ startsBelow a blocks) :
    ∀ x ∈ blocks, a ≤ x.start := by
  intro x member
  cases blocks with
  | nil => cases member
  | cons head rest =>
    have first : a ≤ head.start := by simpa [startsBelow] using none
    rcases List.mem_cons.1 member with rfl | later
    · exact first
    · have gap := spaced.head_lt later
      unfold Block.stop at gap
      omega

/-- In front of blocks that start where it ends or later, a block is merged with the first one or put before it. -/
theorem putMerged_spec (spaced : Spaced rest) (positive : 0 < b.size) (above : ∀ x ∈ rest, b.stop ≤ x.start) :
    Spaced (putMerged b rest) ∧ ∀ a, Covers (putMerged b rest) a ↔ b.Contains a ∨ Covers rest a := by
  cases rest with
  | nil =>
    refine ⟨Spaced.nil.cons positive fun _ member => absurd member List.not_mem_nil, fun a => ?_⟩
    exact covers_cons
  | cons head rest =>
    have first := above head List.mem_cons_self
    by_cases touch : head.start = b.stop
    · have below (x : Block) (member : x ∈ rest) : (Block.mk b.start (b.size + head.size)).stop < x.start := by
        have gap := spaced.head_lt member
        simp only [Block.stop] at *
        omega
      have merged : putMerged b (head :: rest) = ⟨b.start, b.size + head.size⟩ :: rest := by
        rw [putMerged, detach, if_pos touch]
        exact put_of_lt below
      rw [merged]
      refine ⟨spaced.tail.cons (by simp only; omega) below, fun a => ?_⟩
      rw [covers_cons, covers_cons, Block.contains_merge touch, or_assoc]
    · have below (x : Block) (member : x ∈ head :: rest) : b.stop < x.start := by
        rcases List.mem_cons.1 member with rfl | later
        · exact Nat.lt_of_le_of_ne first (Ne.symm touch)
        · have gap := spaced.head_lt later
          unfold Block.stop at *
          omega
      have apart : putMerged b (head :: rest) = b :: head :: rest := by
        rw [putMerged, detach, if_neg touch, if_pos (below head List.mem_cons_self)]
        exact put_of_lt below
      rw [apart]
      exact ⟨spaced.cons positive below, fun a => covers_cons⟩

-- The cases are those of the definition: before the first block, behind the second, and between the two, where
-- the block may touch the first, the second or both.
theorem insertBlock_spec (spaced : Spaced blocks) (positive : 0 < b.size)
    (apart : ∀ x ∈ blocks, x.stop ≤ b.start ∨ b.stop ≤ x.start) :
    Spaced (insertBlock b blocks) ∧ ∀ a, Covers (insertBlock b blocks) a ↔ b.Contains a ∨ Covers blocks a := by
  induction blocks with
  | nil =>
    refine ⟨Spaced.nil.cons positive fun _ member => absurd member List.not_mem_nil, fun a => ?_⟩
    exact covers_cons
  | cons head rest ih =>
    have clear := apart head List.mem_cons_self
    have more := spaced.head_pos
    unfold insertBlock
    by_cases before : b.start ≤ head.start
    · rw [if_pos before]
      apply putMerged_spec spaced positive
      intro x member
      rcases List.mem_cons.1 member with rfl | later
      · unfold Block.stop at *; omega
      · have gap := spaced.head_lt later
        unfold Block.stop at *
        omega
    · have behind : head.stop ≤ b.start := by unfold Block.stop at *; omega
      rw [if_neg before]
      by_cases further : startsBelow b.start rest
      · rw [if_pos further]
        obtain ⟨spaced', covers⟩ := ih spaced.tail fun x member => apart x (List.mem_cons_of_mem head member)
        refine ⟨spaced'.cons_of_covers more fun a covered => ?_, fun a => ?_⟩
        · rcases (covers a).1 covered with ⟨low, -⟩ | ⟨x, member, low, -⟩
          · exact Nat.lt_of_lt_of_le (stop_lt_of_startsBelow spaced further) low
          · exact Nat.lt_of_lt_of_le (spaced.head_lt member) low
        · rw [covers_cons, covers_cons, covers]
          exact or_left_comm
      · have above (x : Block) (member : x ∈ rest) : b.stop ≤ x.start := by
          have order := le_start_of_not_startsBelow spaced.tail further x member
          have sized := spaced.tail.positive x member
          rcases apart x (List.mem_cons_of_mem head member) with low | high
          · unfold Block.stop at low
            omega
          · exact high
        rw [if_neg further]
        by_cases touch : head.stop = b.start
        · rw [if_pos touch]
          obtain ⟨spaced', covers⟩ := putMerged_spec (b := ⟨head.start, head.size + b.size⟩) spaced.tail
            (by simp only; omega) fun x member => by
              have high := above x member
              unfold Block.stop at *
              simp only
              omega
          refine ⟨spaced', fun a => ?_⟩
          rw [covers, covers_cons, Block.contains_merge touch.symm, or_assoc, or_left_comm]
        · rw [if_neg touch]
          obtain ⟨spaced', covers⟩ := putMerged_spec spaced.tail positive above
          refine ⟨spaced'.cons_of_covers more fun a covered => ?_, fun a => ?_⟩
          · rcases (covers a).1 covered with ⟨low, -⟩ | ⟨x, member, low, -⟩
            · omega
            · have gap := spaced.head_lt member
              omega
          · rw [covers_cons, covers_cons, covers]
            exact or_left_comm

-- A block with a rest too small for an object is handed out whole, so the records say more than was asked for.
/-- What is handed out is large enough, by less than a block, and is cut off from the rest. -/
theorem takeBlock_spec (spaced : Spaced blocks) (take : takeBlock size blocks = some (taken, others)) :
    size ≤ taken.size ∧ taken.size < size + smallestBlock ∧ Spaced others ∧
      (∀ a, Covers blocks a ↔ taken.Contains a ∨ Covers others a) ∧ ∀ a, taken.Contains a → ¬ Covers others a := by
  induction blocks generalizing others with
  | nil => cases take
  | cons head rest ih =>
    have later (a : Nat) (covered : Covers rest a) : head.stop < a := by
      obtain ⟨x, member, low, -⟩ := covered
      exact Nat.lt_of_lt_of_le (spaced.head_lt member) low
    unfold takeBlock at take
    by_cases fits : size ≤ head.size
    · rw [if_pos fits] at take
      by_cases worth : smallestBlock ≤ head.size - size
      · rw [if_pos worth] at take
        have below (x : Block) (member : x ∈ rest) : (Block.mk (head.start + size) (head.size - size)).stop < x.start := by
          have gap := spaced.head_lt member
          simp only [Block.stop] at *
          omega
        rw [put_of_lt below] at take
        cases take
        have room : 0 < smallestBlock := by decide
        refine ⟨Nat.le_refl _, by simp only; omega, ?_, fun a => ?_, ?_⟩
        · exact spaced.tail.cons (by simp only; omega) below
        · rw [covers_cons, covers_cons, ← or_assoc]
          refine or_congr_left ?_
          simp only [Block.Contains, Block.stop]
          omega
        · rintro a inside covered
          rcases covers_cons.1 covered with other | old
          · simp only [Block.Contains, Block.stop] at *
            omega
          · have := later a old
            simp only [Block.Contains, Block.stop] at *
            omega
      · rw [if_neg worth] at take
        cases take
        refine ⟨fits, by omega, spaced.tail, fun a => covers_cons, fun a inside covered => ?_⟩
        have := later a covered
        exact absurd inside.2 (by omega)
    · rw [if_neg fits, Option.map_eq_some_iff] at take
      obtain ⟨⟨taken', others'⟩, found, same⟩ := take
      cases same
      obtain ⟨large, close, spaced', covers, cut⟩ := ih spaced.tail found
      refine ⟨large, close, spaced'.cons_of_covers spaced.head_pos fun a covered => ?_, fun a => ?_, ?_⟩
      · exact later a ((covers a).2 (.inr covered))
      · rw [covers_cons, covers_cons, covers]
        exact or_left_comm
      · rintro a inside covered
        rcases covers_cons.1 covered with first | old
        · have := later a ((covers a).2 (.inl inside))
          exact absurd first.2 (by omega)
        · exact cut a inside old

end FreeList

end TracingHeap
