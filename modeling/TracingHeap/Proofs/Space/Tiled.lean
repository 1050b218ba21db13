import Mathlib.Algebra.GroupWithZero.Nat
import Mathlib.Data.List.Perm.Subperm
import TracingHeap.Proofs.Graph
import TracingHeap.Space.Walk

/-! Spaces that are filled from the bottom up.

The headers of such a space lead from block to block. Where they lead through exactly the objects that the
collector holds, and end at the top, the walk finds these objects. -/

set_option autoImplicit false

namespace TracingHeap

theorem footprint_eq {size : Nat} (small : size ≤ largestPayload) :
    footprint size = (headerSize + size + 7) / wordSize * wordSize := by
  simp only [footprint, Word.ceil, Word.floor, Word.wrap, headerSize, wordSize, wordLimit, largestPayload] at *
  omega

theorem le_footprint {size : Nat} (small : size ≤ largestPayload) : headerSize + size ≤ footprint size := by
  rw [footprint_eq small]
  simp only [headerSize, wordSize]
  omega

/-- Also an address that is taken for a size does not wrap. -/
theorem le_footprint_of_holds {m : Memory} (regular : m.Regular) {a n : Nat} (inside : m.holds a n = true) :
    a ≤ footprint a := by
  have limit := Memory.holds_limit regular inside
  simp only [footprint, Word.ceil, Word.floor, Word.wrap, headerSize, wordSize, wordLimit, Memory.largestArena] at *
  omega

theorem dvd_footprint (size : Nat) : wordSize ∣ footprint size := Word.floor_dvd _

/-- A set of addresses lists its members in order. -/
theorem toList_eq_of_sorted {held : Std.TreeSet Nat} {objects : List Nat} (sorted : objects.Pairwise (· < ·))
    (members : ∀ p, held.contains p = true ↔ p ∈ objects) : held.toList = objects := by
  have ordered : held.toList.Pairwise (· < ·) :=
    Std.TreeSet.ordered_toList.imp fun less => Nat.compare_eq_lt.1 less
  refine List.Perm.eq_of_pairwise (fun a b _ _ first second => absurd first (Nat.lt_asymm second)) ordered sorted ?_
  apply (List.perm_ext_iff_of_nodup (ordered.imp Nat.ne_of_lt) (sorted.imp Nat.ne_of_lt)).2
  intro p
  rw [← members p]
  exact Std.TreeSet.mem_toList

theorem length_le_size {held : Std.TreeSet Nat} {objects : List Nat} (nodup : objects.Nodup)
    (known : ∀ p ∈ objects, held.contains p = true) : objects.length ≤ held.size := by
  rw [← Std.TreeSet.length_toList]
  exact (nodup.subperm fun p member => Std.TreeSet.mem_toList.2 (known p member)).length_le

/-- A set has as many members as are listed, each once. -/
theorem size_eq_length {held : Std.TreeSet Nat} {objects : List Nat} (nodup : objects.Nodup)
    (members : ∀ p, held.contains p = true ↔ p ∈ objects) : held.size = objects.length := by
  have distinct : held.toList.Nodup :=
    Std.TreeSet.distinct_toList.imp fun different same => different (Nat.compare_eq_eq.2 same)
  rw [← Std.TreeSet.length_toList]
  refine ((List.perm_ext_iff_of_nodup distinct nodup).2 fun p => ?_).length_eq
  exact Std.TreeSet.mem_toList.trans (members p)

-- By recursion on the objects and not on the headers: whether the headers of an arbitrary memory ever come to an
-- end is what has to be shown.
/-- From `block` on, the headers lead through the objects of a list and end at `stop`. -/
def Tiled (m : Memory) (stop : Nat) : (block : Nat) → List Nat → Prop
  | block, [] => block = stop
  | block, p :: rest => p = payloadOf block ∧ Tiled m stop (block + (m.header block).footprint) rest

/-- The bytes of an object with its header. -/
def Memory.blockSize (m : Memory) (p : Nat) : Nat := (m.header (blockOf p)).footprint

namespace Tiled

variable {m m' : Memory} {stop block p q : Nat} {objects : List Nat}

theorem cons_iff {rest : List Nat} : Tiled m stop block (p :: rest) ↔
    p = payloadOf block ∧ Tiled m stop (block + m.blockSize p) rest := by
  rw [Tiled]
  refine and_congr_right ?_
  rintro rfl
  rw [Memory.blockSize, blockOf_payloadOf]

theorem total (tiled : Tiled m stop block objects) : block + (objects.map m.blockSize).sum = stop := by
  induction objects generalizing block with
  | nil => exact tiled
  | cons p rest ih =>
    have later := ih (cons_iff.1 tiled).2
    rw [List.map_cons, List.sum_cons]
    omega

/-- Each block lies between the first one and the end. -/
theorem bounds (tiled : Tiled m stop block objects) (member : p ∈ objects) :
    payloadOf block ≤ p ∧ blockOf p + m.blockSize p ≤ stop := by
  induction objects generalizing block with
  | nil => cases member
  | cons q rest ih =>
    obtain ⟨rfl, later⟩ := cons_iff.1 tiled
    have whole := later.total
    rcases List.mem_cons.1 member with rfl | behind
    · rw [blockOf_payloadOf]
      exact ⟨Nat.le_refl _, by omega⟩
    · obtain ⟨low, high⟩ := ih later behind
      unfold payloadOf at *
      exact ⟨by omega, high⟩

/-- Every address between the first block and the end lies in a block. -/
theorem exists_block (tiled : Tiled m stop block objects) {a : Nat} (low : block ≤ a) (high : a < stop) :
    ∃ p ∈ objects, blockOf p ≤ a ∧ a < blockOf p + m.blockSize p := by
  induction objects generalizing block with
  | nil =>
    obtain rfl : block = stop := tiled
    omega
  | cons q rest ih =>
    obtain ⟨rfl, later⟩ := cons_iff.1 tiled
    by_cases inside : a < block + m.blockSize (payloadOf block)
    · refine ⟨_, List.mem_cons_self, ?_⟩
      rw [blockOf_payloadOf]
      exact ⟨low, inside⟩
    · obtain ⟨p, member, found⟩ := ih later (by omega)
      exact ⟨p, List.mem_cons_of_mem _ member, found⟩

theorem apart (tiled : Tiled m stop block objects) (first : p ∈ objects) (second : q ∈ objects) (less : p < q) :
    blockOf p + m.blockSize p ≤ blockOf q := by
  induction objects generalizing block with
  | nil => cases first
  | cons x rest ih =>
    obtain ⟨rfl, later⟩ := cons_iff.1 tiled
    rcases List.mem_cons.1 first with rfl | firstLater
    · rcases List.mem_cons.1 second with rfl | secondLater
      · omega
      · have low := (later.bounds secondLater).1
        unfold blockOf payloadOf at *
        omega
    · rcases List.mem_cons.1 second with rfl | secondLater
      · have low := (later.bounds firstLater).1
        unfold payloadOf at *
        omega
      · exact ih later firstLater secondLater

theorem sorted (tiled : Tiled m stop block objects) (positive : ∀ p ∈ objects, 0 < m.blockSize p) :
    objects.Pairwise (· < ·) := by
  induction objects generalizing block with
  | nil => exact .nil
  | cons p rest ih =>
    obtain ⟨rfl, later⟩ := cons_iff.1 tiled
    have first := positive _ List.mem_cons_self
    refine .cons (fun q member => ?_) (ih later fun q member => positive q (List.mem_cons_of_mem _ member))
    have low := (later.bounds member).1
    unfold payloadOf at *
    omega

/-- The blocks are where they were if their sizes are what they were. -/
theorem congr (tiled : Tiled m stop block objects) (same : ∀ p ∈ objects, m'.blockSize p = m.blockSize p) :
    Tiled m' stop block objects := by
  induction objects generalizing block with
  | nil => exact tiled
  | cons p rest ih =>
    obtain ⟨start, later⟩ := cons_iff.1 tiled
    refine cons_iff.2 ⟨start, ?_⟩
    rw [same p List.mem_cons_self]
    exact ih later fun q member => same q (List.mem_cons_of_mem p member)

/-- One more block behind the last one. -/
theorem append (tiled : Tiled m stop block objects) (size : m.blockSize (payloadOf stop) = q) :
    Tiled m (stop + q) block (objects ++ [payloadOf stop]) := by
  induction objects generalizing block with
  | nil =>
    obtain rfl : block = stop := tiled
    exact cons_iff.2 ⟨rfl, by rw [size]; rfl⟩
  | cons p rest ih =>
    obtain ⟨start, later⟩ := cons_iff.1 tiled
    exact cons_iff.2 ⟨start, ih later⟩

/-- A set of objects that tile a space, and one more behind them. -/
theorem insert {held : Std.TreeSet Nat} {size : Nat} (tiled : Tiled m stop block held.toList)
    (positive : ∀ p, held.contains p = true → 0 < m.blockSize p)
    (same : ∀ p, held.contains p = true → m'.blockSize p = m.blockSize p)
    (new : m'.blockSize (payloadOf stop) = size) (some' : 0 < size) :
    Tiled m' (stop + size) block (held.insert (payloadOf stop)).toList := by
  have stays (p : Nat) (member : p ∈ held.toList) : m'.blockSize p = m.blockSize p :=
    same p (Std.TreeSet.mem_toList.1 member)
  have longer := (tiled.congr stays).append new
  have sorted := longer.sorted fun p member => by
    rcases List.mem_append.1 member with old | last
    · rw [stays p old]
      exact positive p (Std.TreeSet.mem_toList.1 old)
    · rw [List.mem_singleton.1 last, new]
      exact some'
  rwa [toList_eq_of_sorted sorted fun p => ?_]
  rw [contains_insert_iff, List.mem_append, List.mem_singleton, or_comm]
  exact or_congr_left Std.TreeSet.mem_toList.symm

/-- The next bytes of a space hold the object behind the others. -/
theorem bump {s : Space} {held : Std.TreeSet Nat} {size : Nat} (tiled : Tiled m s.top s.start held.toList)
    (positive : ∀ p, held.contains p = true → 0 < m.blockSize p)
    (same : ∀ p, held.contains p = true → m'.blockSize p = m.blockSize p)
    (new : m'.blockSize (payloadOf s.top) = size) (some' : 0 < size) :
    Tiled m' { s with cursor := s.cursor + size }.top s.start (held.insert (payloadOf s.top)).toList := by
  show Tiled m' (s.start + (s.cursor + size)) _ _
  rw [← Nat.add_assoc]
  exact insert tiled positive same new some'

-- A round of the walk passes one block, and no block is empty, so as many rounds as there are bytes suffice.
theorem walkFrom_eq (tiled : Tiled m stop block objects) (readable : ∀ p ∈ objects, m.holds (blockOf p) wordSize = true)
    (positive : ∀ p ∈ objects, 0 < m.blockSize p) (rounds : Nat) (enough : stop ≤ block + rounds) (found : List Nat) :
    m.walkFrom stop rounds block found = .ok (found.reverse ++ objects) := by
  induction objects generalizing block rounds found with
  | nil =>
    have done : stop ≤ block := Nat.le_of_eq tiled.symm
    rw [List.append_nil]
    cases rounds <;> rw [Memory.walkFrom, if_pos done]
  | cons p rest ih =>
    obtain ⟨rfl, later⟩ := cons_iff.1 tiled
    have whole := later.total
    have first := positive _ List.mem_cons_self
    have header := readable _ List.mem_cons_self
    rw [blockOf_payloadOf] at header
    cases rounds with
    | zero => omega
    | succ rounds =>
      rw [Memory.walkFrom, if_neg (by omega), Memory.readHeader, if_pos header]
      rw [Memory.blockSize, blockOf_payloadOf] at later whole first
      have rest' := ih later (fun q member => readable q (List.mem_cons_of_mem _ member))
        (fun q member => positive q (List.mem_cons_of_mem _ member)) rounds (by omega) (payloadOf block :: found)
      rw [List.reverse_cons, List.append_assoc] at rest'
      exact rest'

end Tiled

end TracingHeap
