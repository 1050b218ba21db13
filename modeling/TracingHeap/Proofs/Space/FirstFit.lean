import TracingHeap.Proofs.Space.Canonical

/-! A request takes the lowest block that is large enough.

The search stops at the first block that has the bytes, and the blocks stand in the order of their addresses. The
rest of that block stays where it is if an object could use it, and otherwise goes with what is handed out. -/

set_option autoImplicit false

namespace TracingHeap

/-- What a request is given of a block that has the bytes, and what stays of the block. -/
inductive Block.Serves (b : Block) (size : Nat) : (granted : Block) → (rest : List Block) → Prop
  | cut (fits : size ≤ b.size) (worth : smallestBlock ≤ b.size - size) :
    b.Serves size ⟨b.start, size⟩ [⟨b.start + size, b.size - size⟩]
  | whole (fits : size ≤ b.size) (small : b.size - size < smallestBlock) : b.Serves size b []

namespace Block.Serves

variable {b granted : Block} {rest : List Block} {size : Nat}

theorem fits (serves : b.Serves size granted rest) : size ≤ b.size := by
  cases serves with
  | cut fits _ => exact fits
  | whole fits _ => exact fits

theorem start (serves : b.Serves size granted rest) : granted.start = b.start := by
  cases serves with
  | cut _ _ => rfl
  | whole _ _ => rfl

/-- All bytes asked for are given, and less than a block more. -/
theorem size_le_and_lt (serves : b.Serves size granted rest) :
    size ≤ granted.size ∧ granted.size < size + smallestBlock := by
  cases serves with
  | cut _ _ => exact ⟨Nat.le_refl _, Nat.lt_add_of_pos_right (by decide)⟩
  | whole fits small => exact ⟨fits, by omega⟩

end Block.Serves

namespace FreeList

variable {l l' : FreeList} {granted : Block} {blocks others : List Block} {size : Nat}

/-- The list after a request, which is the one before it if the request is refused. -/
def remaining (l : FreeList) (size : Nat) : FreeList := ((l.take size).map Prod.snd).getD l

theorem take_eq_none_iff : l.take size = none ↔ ∀ b ∈ l.blocks, b.size < size := by
  rw [← Option.isNone_iff_eq_none, ← Option.not_isSome, ← canSatisfy_eq_isSome_take, canSatisfy]
  simp

theorem foldl_max_lt_iff {n : Nat} :
    blocks.foldl (fun n b => max n b.size) n < size ↔ n < size ∧ ∀ b ∈ blocks, b.size < size := by
  induction blocks generalizing n with
  | nil => simp
  | cons head rest ih => rw [List.foldl_cons, ih, max_lt_iff, and_assoc, List.forall_mem_cons]

theorem largestBlock_lt_iff (positive : 0 < size) : l.largestBlock < size ↔ ∀ b ∈ l.blocks, b.size < size :=
  foldl_max_lt_iff.trans (and_iff_right positive)

-- The rest is put back into the blocks behind the one that is cut, and all of them start above it.
/-- The first block that has the bytes serves the request, and those around it stay. -/
theorem exists_serves (spaced : Spaced blocks) (take : takeBlock size blocks = some (granted, others)) :
    ∃ before b after rest, blocks = before ++ b :: after ∧ others = before ++ rest ++ after ∧
      (∀ x ∈ before, x.size < size) ∧ b.Serves size granted rest := by
  induction blocks generalizing others with
  | nil => cases take
  | cons head rest ih =>
    unfold takeBlock at take
    by_cases fits : size ≤ head.size
    · rw [if_pos fits] at take
      refine ⟨[], head, rest, ?_⟩
      by_cases worth : smallestBlock ≤ head.size - size
      · rw [if_pos worth] at take
        have behind (x : Block) (member : x ∈ rest) :
            (Block.mk (head.start + size) (head.size - size)).stop < x.start := by
          have gap := spaced.head_lt member
          simp only [Block.stop] at *
          omega
        rw [put_of_lt behind] at take
        cases take
        exact ⟨_, rfl, rfl, by simp, .cut fits worth⟩
      · rw [if_neg worth] at take
        cases take
        exact ⟨_, rfl, rfl, by simp, .whole fits (Nat.lt_of_not_le worth)⟩
    · rw [if_neg fits, Option.map_eq_some_iff] at take
      obtain ⟨⟨granted', others'⟩, found, same⟩ := take
      cases same
      obtain ⟨before, b, after, left, rfl, rfl, small, serves⟩ := ih spaced.tail found
      refine ⟨head :: before, b, after, left, rfl, rfl, ?_, serves⟩
      exact List.forall_mem_cons.2 ⟨Nat.lt_of_not_le fits, small⟩

/-- Among the blocks that are large enough, the first is the lowest. -/
theorem start_le_of_fits {before after : List Block} {b x : Block} (spaced : Spaced (before ++ b :: after))
    (small : ∀ x ∈ before, x.size < size) (member : x ∈ before ++ b :: after) (fits : size ≤ x.size) :
    b.start ≤ x.start := by
  obtain ⟨-, ordered, -⟩ := List.pairwise_append.1 spaced.ordered
  rcases List.mem_append.1 member with first | later
  · exact absurd (small x first) (Nat.not_lt.2 fits)
  · rcases List.mem_cons.1 later with rfl | behind
    · exact Nat.le_refl _
    · have gap := (List.pairwise_cons.1 ordered).1 x behind
      unfold Block.stop at gap
      omega

/-- A request is refused exactly if no block is large enough, which the two queries tell before it is made, and then
the list stays as it is. Otherwise the lowest block that is large enough serves it: it is cut if the rest can hold an
object and handed out whole if not, so that less than a block is given in excess, and all other blocks stay. -/
theorem take_is_first_fit (made : l.Made) (positive : 0 < size) :
    (l.take size = none ↔ l.canSatisfy size = false) ∧ (l.canSatisfy size = false ↔ l.largestBlock < size) ∧
    (l.take size = none → l.remaining size = l) ∧
    ∀ granted l', l.take size = some (granted, l') → l.remaining size = l' ∧
      ∃ before b after rest, l.blocks = before ++ b :: after ∧ l'.blocks = before ++ rest ++ after ∧
        b.Serves size granted rest ∧
        (size ≤ b.size ∧ ∀ x ∈ l.blocks, size ≤ x.size → b.start ≤ x.start) ∧
        granted.start = b.start ∧ (size ≤ granted.size ∧ granted.size < size + smallestBlock) ∧
        l'.freeBytes + granted.size = l.freeBytes := by
  have normal := made.normal
  have refused : l.canSatisfy size = false ↔ l.take size = none := by
    rw [canSatisfy_eq_isSome_take, Option.isSome_eq_false_iff, Option.isNone_iff_eq_none]
  refine ⟨refused.symm, ?largest, ?unchanged, ?served⟩
  case largest => rw [refused, take_eq_none_iff, largestBlock_lt_iff positive]
  case unchanged =>
    intro none
    rw [remaining, none]
    rfl
  case served =>
    intro granted l' took
    obtain ⟨⟨granted', others⟩, found, same⟩ := Option.map_eq_some_iff.1 took
    cases same
    obtain ⟨before, b, after, rest, split, left, small, serves⟩ := exists_serves normal.spaced found
    refine ⟨by rw [remaining, took]; rfl, before, b, after, rest, split, left, serves, ⟨serves.fits, ?_⟩,
      serves.start, serves.size_le_and_lt, ?_⟩
    · intro x member fits
      rw [split] at member
      exact start_le_of_fits (split ▸ normal.spaced) small member fits
    · show l.freeBytes - granted.size + granted.size = l.freeBytes
      have total := totalSize_takeBlock normal.spaced found
      have counted := normal.counted
      omega

/-- The first block is too small. The second is handed out whole for 64 bytes, since no object has room in its rest of
8 bytes, and is cut for 48. -/
theorem take_is_first_fit_of_three :
    ∃ l : FreeList, l.Made ∧ l.blocks = [⟨4096, 32⟩, ⟨8192, 72⟩, ⟨12288, 128⟩] ∧
      (l.take 64 = some (⟨8192, 72⟩, ⟨[⟨4096, 32⟩, ⟨12288, 128⟩], 160⟩) ∧
        ∀ x ∈ l.blocks, 64 ≤ x.size → 8192 ≤ x.start) ∧
      (l.take 48 = some (⟨8192, 48⟩, ⟨[⟨4096, 32⟩, ⟨8240, 24⟩, ⟨12288, 128⟩], 184⟩) ∧
        (Block.mk 8192 72).Serves 48 ⟨8192, 48⟩ [⟨8240, 24⟩]) ∧
      (l.take 136 = none ∧ l.remaining 136 = l) := by
  have one : (FreeList.mk [⟨12288, 128⟩] 128).Made :=
    .insert (b := ⟨12288, 128⟩) .empty (accepts_of_apart (by decide) (by decide) (by simp))
  have two : (FreeList.mk [⟨4096, 32⟩, ⟨12288, 128⟩] 160).Made :=
    one.insert (b := ⟨4096, 32⟩) (accepts_of_apart (by decide) (by decide) (by simp [Block.Apart, Block.stop]))
  have three : (FreeList.mk [⟨4096, 32⟩, ⟨8192, 72⟩, ⟨12288, 128⟩] 232).Made :=
    two.insert (b := ⟨8192, 72⟩) (accepts_of_apart (by decide) (by decide) (by simp [Block.Apart, Block.stop]))
  have served := take_is_first_fit three (by decide : 0 < 64)
  have refused := take_is_first_fit three (by decide : 0 < 136)
  refine ⟨_, three, rfl, ⟨rfl, ?whole⟩, ⟨rfl, .cut (by decide) (by decide)⟩, rfl, refused.2.2.1 rfl⟩
  obtain ⟨-, before, b, after, rest, -, -, -, ⟨-, lowest⟩, start, -⟩ := served.2.2.2 _ _ rfl
  have first : b.start = 8192 := start.symm
  rwa [first] at lowest

end FreeList

end TracingHeap
