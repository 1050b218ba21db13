import TracingHeap.Layout.Header

/-! Free blocks in the order of their addresses.

Blocks that touch are merged when a block is given back. A request takes the first block that is
large enough, and leaves the rest free if an object could use it. -/

set_option autoImplicit false

namespace TracingHeap

structure Block where
  start : Nat
  size : Nat
  deriving DecidableEq, Repr

/-- The address after the last byte. -/
abbrev Block.stop (b : Block) : Nat := b.start + b.size

/-- The bytes of several blocks together. -/
def totalSize (blocks : List Block) : Nat := blocks.foldl (fun n b => n + b.size) 0

/-- A smaller rest is handed out with the block it would be cut from. -/
def smallestBlock : Nat := footprint 0

structure FreeList where
  blocks : List Block := []
  freeBytes : Nat := 0
  deriving DecidableEq, Repr

namespace FreeList

/-- Put a block in its place; one that starts at the same address is replaced. -/
def put (b : Block) : List Block → List Block
  | [] => [b]
  | head :: rest =>
    if head.start < b.start then head :: put b rest
    else if head.start = b.start then b :: rest
    else b :: head :: rest

/-- Take out the block that starts at an address. -/
def detach (start : Nat) : List Block → Option (Block × List Block)
  | [] => none
  | head :: rest =>
    if head.start = start then some (head, rest)
    else if start < head.start then none
    else (detach start rest).map fun (b, others) => (b, head :: others)

/-- Merge a block with the one that starts where it ends, and put it in its place. -/
def putMerged (b : Block) (blocks : List Block) : List Block :=
  match detach b.stop blocks with
  | some (upper, others) => put ⟨b.start, b.size + upper.size⟩ others
  | none => put b blocks

/-- The first block starts below an address. -/
def startsBelow (a : Nat) : List Block → Bool
  | [] => false
  | head :: _ => head.start < a

/-- Put a block in its place, merged with its two neighbours where they touch it. -/
def insertBlock (b : Block) : List Block → List Block
  | [] => [b]
  | head :: rest =>
    if b.start ≤ head.start then putMerged b (head :: rest)
    else if startsBelow b.start rest then head :: insertBlock b rest
    else if head.stop = b.start then putMerged ⟨head.start, head.size + b.size⟩ rest
    else head :: putMerged b rest

/-- Give back the `size` bytes from `start` on. -/
def insert (l : FreeList) (start size : Nat) : FreeList :=
  { blocks := insertBlock ⟨start, size⟩ l.blocks, freeBytes := l.freeBytes + size }

/-- Cut `size` bytes off the first block that has them, or take all of it if the rest would be too
small. -/
def takeBlock (size : Nat) : List Block → Option (Block × List Block)
  | [] => none
  | head :: rest =>
    if size ≤ head.size then
      if smallestBlock ≤ head.size - size then
        some (⟨head.start, size⟩, put ⟨head.start + size, head.size - size⟩ rest)
      else some (head, rest)
    else (takeBlock size rest).map fun (b, others) => (b, head :: others)

/-- Hand out at least `size` bytes, if there is a block that has them. -/
def take (l : FreeList) (size : Nat) : Option (Block × FreeList) :=
  (takeBlock size l.blocks).map fun (b, blocks) => (b, { blocks, freeBytes := l.freeBytes - b.size })

def canSatisfy (l : FreeList) (size : Nat) : Bool := l.blocks.any fun b => size ≤ b.size

def largestBlock (l : FreeList) : Nat := l.blocks.foldl (fun n b => max n b.size) 0

def hasBlock (l : FreeList) (start : Nat) : Bool := l.blocks.any fun b => b.start = start

theorem isSome_takeBlock (size : Nat) (blocks : List Block) :
    (takeBlock size blocks).isSome = blocks.any fun b => size ≤ b.size := by
  induction blocks with
  | nil => rfl
  | cons head rest ih =>
    rw [takeBlock, List.any_cons]
    by_cases fits : size ≤ head.size
    · rw [if_pos fits]
      split <;> simp [fits]
    · simp [fits, ih]

theorem canSatisfy_eq_isSome_take (l : FreeList) (size : Nat) : l.canSatisfy size = (l.take size).isSome := by
  rw [canSatisfy, take, Option.isSome_map, isSome_takeBlock]

end FreeList

end TracingHeap
