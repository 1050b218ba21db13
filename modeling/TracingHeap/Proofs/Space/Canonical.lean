import TracingHeap.Proofs.Space.Blocks
import TracingHeap.Proofs.Space.Gaps

/-! The free list is a normal form of the set of addresses that are free.

Its calls keep the blocks spaced, and two spaced lists with the same addresses are the same list. So what was
given back and handed out in which order cannot be told from the list, only what is free now. -/

set_option autoImplicit false

namespace TracingHeap

section

variable {blocks blocks' rest : List Block} {head : Block} {a : Nat}

theorem Spaced.start_le (spaced : Spaced (head :: rest)) (covered : Covers (head :: rest) a) : head.start ≤ a := by
  rcases covers_cons.1 covered with ⟨low, -⟩ | ⟨x, member, low, -⟩
  · exact low
  · have gap := spaced.head_lt member
    unfold Block.stop at gap
    omega

/-- The addresses of the later blocks are those that the first does not hold. -/
theorem Spaced.covers_tail (spaced : Spaced (head :: rest)) :
    Covers rest a ↔ Covers (head :: rest) a ∧ ¬ head.Contains a := by
  constructor
  · rintro ⟨x, member, low, high⟩
    have gap := spaced.head_lt member
    exact ⟨⟨x, List.mem_cons_of_mem head member, low, high⟩, fun inside => absurd inside.2 (by omega)⟩
  · rintro ⟨covered, outside⟩
    exact (covers_cons.1 covered).resolve_left outside

/-- A block that starts where one of the list does is no longer than it, if the list covers its addresses. -/
theorem Spaced.stop_le {b : Block} (spaced : Spaced (head :: rest)) (start : b.start = head.start)
    (covered : ∀ a, b.Contains a → Covers (head :: rest) a) : b.stop ≤ head.stop := by
  refine Nat.le_of_not_lt fun longer => spaced.not_covers_stop List.mem_cons_self (covered head.stop ⟨?_, longer⟩)
  rw [start]
  exact Nat.le_add_right _ _

-- The first blocks start at the lowest address that is covered and end in front of the lowest later one that is
-- not, so they are the same; the others cover what the first does not.
/-- The addresses determine the list. -/
theorem Spaced.eq_of_covers (spaced : Spaced blocks) (spaced' : Spaced blocks')
    (same : ∀ a, Covers blocks a ↔ Covers blocks' a) : blocks = blocks' := by
  induction blocks generalizing blocks' with
  | nil =>
    cases blocks' with
    | nil => rfl
    | cons head' rest' => exact absurd ((same _).2 (spaced'.covers_start List.mem_cons_self)) (not_covers_nil _)
  | cons head rest ih =>
    cases blocks' with
    | nil => exact absurd ((same _).1 (spaced.covers_start List.mem_cons_self)) (not_covers_nil _)
    | cons head' rest' =>
      have start : head.start = head'.start := Nat.le_antisymm
        (spaced.start_le ((same _).2 (spaced'.covers_start List.mem_cons_self)))
        (spaced'.start_le ((same _).1 (spaced.covers_start List.mem_cons_self)))
      have stop : head.stop = head'.stop := Nat.le_antisymm
        (spaced'.stop_le start fun a inside => (same a).1 (covers_cons.2 (.inl inside)))
        (spaced.stop_le start.symm fun a inside => (same a).2 (covers_cons.2 (.inl inside)))
      have first : head = head' := by
        cases head
        cases head'
        cases start
        cases Nat.add_left_cancel stop
        rfl
      cases first
      rw [ih spaced.tail spaced'.tail fun a => by rw [spaced.covers_tail, spaced'.covers_tail, same a]]

end

namespace FreeList

variable {l l' : FreeList} {b taken : Block} {size a : Nat}

/-- The address can be handed out. -/
def Free (l : FreeList) (a : Nat) : Prop := Covers l.blocks a

/-- The block can be given back: it is not empty, ends below the last address, and no part of it is free. -/
structure Accepts (l : FreeList) (b : Block) : Prop where
  positive : 0 < b.size
  fits : b.stop < wordLimit
  clear : ∀ a, b.Contains a → ¬ l.Free a

/-- Lists that calls make of the empty one. -/
inductive Made : FreeList → Prop
  | empty : Made {}
  | insert {l : FreeList} {b : Block} (made : Made l) (accepts : l.Accepts b) : Made (l.insert b.start b.size)
  | take {l l' : FreeList} {size : Nat} {taken : Block} (made : Made l) (took : l.take size = some (taken, l')) : Made l'

/-- A list in normal form, with its bytes counted. -/
structure Normal (l : FreeList) : Prop where
  spaced : Spaced l.blocks
  counted : l.freeBytes = totalSize l.blocks
  low : ∀ a, l.Free a → a + 1 < wordLimit

theorem Accepts.apart (accepts : l.Accepts b) (spaced : Spaced l.blocks) : ∀ x ∈ l.blocks, b.Apart x :=
  fun x member => Block.apart_of_disjoint accepts.positive (spaced.positive x member) fun a inside free =>
    accepts.clear a inside ⟨x, member, free⟩

theorem accepts_of_apart (positive : 0 < b.size) (fits : b.stop < wordLimit) (apart : ∀ x ∈ l.blocks, b.Apart x) :
    l.Accepts b := by
  refine ⟨positive, fits, ?_⟩
  rintro a inside ⟨x, member, low, high⟩
  have clear := apart x member
  unfold Block.Contains Block.Apart at *
  omega

/-- Giving a block back frees its addresses. -/
theorem free_insert (spaced : Spaced l.blocks) (accepts : l.Accepts b) :
    (l.insert b.start b.size).Free a ↔ l.Free a ∨ b.Contains a :=
  ((insertBlock_spec spaced accepts.positive fun x member => (accepts.apart spaced x member).symm).2 a).trans or_comm

/-- What is handed out was free, and nothing else is lost. -/
theorem free_take (spaced : Spaced l.blocks) (took : l.take size = some (taken, l')) :
    (taken.Contains a → l.Free a) ∧ (l'.Free a ↔ l.Free a ∧ ¬ taken.Contains a) := by
  obtain ⟨⟨taken', others⟩, found, same⟩ := Option.map_eq_some_iff.1 took
  cases same
  obtain ⟨-, -, -, covers, cut⟩ := takeBlock_spec spaced found
  refine ⟨fun inside => (covers a).2 (.inl inside), fun left => ⟨(covers a).2 (.inr left), fun inside => ?_⟩, ?_⟩
  · exact cut a inside left
  · rintro ⟨free, outside⟩
    exact ((covers a).1 free).resolve_left outside

namespace Normal

theorem insert (normal : l.Normal) (accepts : l.Accepts b) : (l.insert b.start b.size).Normal := by
  have apart := accepts.apart normal.spaced
  constructor
  case spaced => exact (insertBlock_spec normal.spaced accepts.positive fun x member => (apart x member).symm).1
  case counted =>
    show l.freeBytes + b.size = totalSize (insertBlock b l.blocks)
    rw [totalSize_insertBlock normal.spaced accepts.positive apart, normal.counted, Nat.add_comm]
  case low =>
    intro a free
    rcases (free_insert normal.spaced accepts).1 free with old | new
    · exact normal.low a old
    · exact Nat.lt_of_le_of_lt new.2 accepts.fits

theorem take (normal : l.Normal) (took : l.take size = some (taken, l')) : l'.Normal := by
  have left (a : Nat) (free : l'.Free a) : l.Free a := ((free_take normal.spaced took).2.1 free).1
  obtain ⟨⟨taken', others⟩, found, same⟩ := Option.map_eq_some_iff.1 took
  cases same
  constructor
  case spaced => exact (takeBlock_spec normal.spaced found).2.2.1
  case counted =>
    show l.freeBytes - taken.size = totalSize others
    rw [normal.counted, totalSize_takeBlock normal.spaced found, Nat.add_sub_cancel_left]
  case low => exact fun a free => normal.low a (left a free)

theorem stop_lt (normal : l.Normal) (member : b ∈ l.blocks) : b.stop < wordLimit := by
  have positive := normal.spaced.positive b member
  have last := normal.low (b.stop - 1) ⟨b, member, by unfold Block.stop; omega, by unfold Block.stop; omega⟩
  unfold Block.stop at *
  omega

theorem freeBytes_lt (normal : l.Normal) : l.freeBytes < wordLimit := by
  have within : totalSize l.blocks ≤ wordLimit - 1 - 0 := totalSize_le_of_within normal.spaced.apart fun b member =>
    ⟨Nat.zero_le _, Nat.le_sub_one_of_lt (normal.stop_lt member)⟩
  have positive : 0 < wordLimit := by decide
  rw [normal.counted]
  omega

/-- Two lists in normal form with the same addresses are the same. -/
theorem unique (normal : l.Normal) (normal' : l'.Normal) (same : ∀ a, l.Free a ↔ l'.Free a) : l = l' := by
  have blocks := normal.spaced.eq_of_covers normal'.spaced same
  have bytes := normal.counted.trans ((congrArg totalSize blocks).trans normal'.counted.symm)
  cases l
  cases l'
  cases blocks
  cases bytes
  rfl

end Normal

theorem Made.normal (made : l.Made) : l.Normal := by
  induction made with
  | empty => exact ⟨.nil, rfl, fun a free => absurd free (not_covers_nil a)⟩
  | insert _ accepts normal => exact normal.insert accepts
  | take _ took normal => exact normal.take took

/-! ### Several blocks -/

/-- Give several blocks back, one after the other. -/
def insertAll (l : FreeList) (given : List Block) : FreeList := given.foldl (fun l b => l.insert b.start b.size) l

-- A block is accepted when its turn comes: what has been freed meanwhile lies in the blocks before it.
theorem free_insertAll {given : List Block} (made : l.Made) (accepts : ∀ b ∈ given, l.Accepts b)
    (apart : given.Pairwise Block.Apart) :
    (l.insertAll given).Made ∧ ∀ a, (l.insertAll given).Free a ↔ l.Free a ∨ Covers given a := by
  induction given generalizing l with
  | nil => exact ⟨made, fun a => (or_iff_left (not_covers_nil a)).symm⟩
  | cons b rest ih =>
    obtain ⟨first, others⟩ := List.pairwise_cons.1 apart
    have accepted := accepts b List.mem_cons_self
    have free (a : Nat) := free_insert (a := a) made.normal.spaced accepted
    have still (x : Block) (member : x ∈ rest) : (l.insert b.start b.size).Accepts x := by
      have before := accepts x (List.mem_cons_of_mem b member)
      refine ⟨before.positive, before.fits, fun a inside freed => ?_⟩
      rcases (free a).1 freed with old | new
      · exact before.clear a inside old
      · have clear := first x member
        unfold Block.Contains Block.Apart at *
        omega
    obtain ⟨made', frees⟩ := ih (made.insert accepted) still others
    refine ⟨made', fun a => (frees a).trans ?_⟩
    rw [free, covers_cons, or_assoc]

/-- After any calls the blocks are sorted, not empty and separated by bytes that are not free, and their bytes are
counted. A call frees exactly what is given back and uses up exactly what it hands out. Lists with the same free
addresses are the same, so blocks that do not overlap can be given back in any order. -/
theorem blocks_represent_addresses (made : l.Made) :
    ((l.blocks.Pairwise fun b b' => b.stop < b'.start) ∧ ∀ b ∈ l.blocks, 0 < b.size ∧ b.stop < wordLimit) ∧
    (l.freeBytes = totalSize l.blocks ∧ l.freeBytes < wordLimit) ∧
    (∀ b, l.Accepts b → ∀ a, (l.insert b.start b.size).Free a ↔ l.Free a ∨ b.Contains a) ∧
    (∀ size taken l', l.take size = some (taken, l') → ∀ a,
      (taken.Contains a → l.Free a) ∧ (l'.Free a ↔ l.Free a ∧ ¬ taken.Contains a)) ∧
    (∀ l' : FreeList, l'.Made → (∀ a, l.Free a ↔ l'.Free a) → l = l') ∧
    ∀ given given' : List Block, given.Perm given' → (∀ b ∈ given, l.Accepts b) → given.Pairwise Block.Apart →
      l.insertAll given = l.insertAll given' := by
  have normal := made.normal
  refine ⟨⟨normal.spaced.ordered, fun b member => ⟨normal.spaced.positive b member, normal.stop_lt member⟩⟩,
    ⟨normal.counted, normal.freeBytes_lt⟩, ?inserting, ?taking, ?determined, ?reordered⟩
  case inserting => exact fun b accepts a => free_insert normal.spaced accepts
  case taking => exact fun size taken l' took a => free_take normal.spaced took
  case determined => exact fun l' made' same => normal.unique made'.normal same
  case reordered =>
    intro given given' perm accepts apart
    have accepts' (b : Block) (member : b ∈ given') : l.Accepts b := accepts b (perm.mem_iff.2 member)
    have apart' : given'.Pairwise Block.Apart := (perm.pairwise_iff Or.symm).1 apart
    obtain ⟨once, free⟩ := free_insertAll made accepts apart
    obtain ⟨again, free'⟩ := free_insertAll made accepts' apart'
    refine once.normal.unique again.normal fun a => ?_
    rw [free, free']
    simp only [Covers, perm.mem_iff]

/-- The block that was cut off and one behind the rest, given back in either order. -/
theorem blocks_represent_addresses_of_three :
    ∃ l : FreeList, l.Made ∧ l.blocks = [⟨4160, 192⟩] ∧ l.insertAll [⟨4096, 64⟩, ⟨4352, 256⟩] =
      l.insertAll [⟨4352, 256⟩, ⟨4096, 64⟩] ∧ (l.insertAll [⟨4096, 64⟩, ⟨4352, 256⟩]).blocks = [⟨4096, 512⟩] := by
  have whole : (FreeList.insert {} 4096 256).Made :=
    .insert (b := ⟨4096, 256⟩) .empty (accepts_of_apart (by decide) (by decide) fun x member => nomatch member)
  have taken : (FreeList.insert {} 4096 256).take 64 =
      some (⟨4096, 64⟩, { blocks := [⟨4160, 192⟩], freeBytes := 192 }) := by decide
  have made : FreeList.Made { blocks := [⟨4160, 192⟩], freeBytes := 192 } := whole.take taken
  refine ⟨_, made, rfl, ?_, by decide⟩
  refine (blocks_represent_addresses made).2.2.2.2.2 _ _ (.swap _ _ _) (fun b member => ?_) ?_
  · rcases List.mem_pair.1 member with rfl | rfl <;>
      exact accepts_of_apart (by decide) (by decide) (by simp [Block.Apart, Block.stop])
  · simp [Block.Apart, Block.stop]

end FreeList

end TracingHeap
