import TracingHeap.Proofs.Collector.Books

/-! What an engine promises about a block that it hands out. -/

set_option autoImplicit false

namespace TracingHeap

/-- The next bytes of a space lie inside it, if they are left. -/
theorem Space.inside_of_room {s : Space} {size whole : Nat} (room : s.cursor + size ≤ whole) (a : Nat)
    (low : s.top ≤ a) (high : a < s.top + size) : s.start ≤ a ∧ a < s.start + whole := by
  unfold Space.top at low high
  exact ⟨by omega, by omega⟩

namespace Engine

variable {e e' : Engine} {m m' : Memory} {size block : Nat}

-- The books of the engine speak of the new object before its header is written, hence `fits` asks for a memory in
-- which it has been.
/-- The engine has handed out a block. -/
structure Granted (e e' : Engine) (m : Memory) (size block : Nat) : Prop where
  ledger : e'.Ledger m
  strategy : e'.strategy = e.strategy
  within : ∀ a, e'.Within a ↔ e.Within a
  room : m.holds block size = true
  active : ∀ a, e'.Active a ↔ e.Active a
  inside : ∀ a, block ≤ a → a < block + size → e.Active a
  apart : ∀ p, e.Held p → blockOf p + m.blockSize p ≤ block ∨ block + size ≤ blockOf p
  held : ∀ p, e'.Held p ↔ p = payloadOf block ∨ e.Held p
  fits : ∀ m' : Memory, (∀ p, e.Held p → m'.blockSize p = m.blockSize p) → m'.blockSize (payloadOf block) = size →
    e'.Fits m'

/-- The block lies in memory, and its object is held, whatever stands in the headers. -/
theorem held_of_allocate (ledger : e.Ledger m) (regular : m.Regular) (large : headerSize ≤ size)
    (found : e.allocate size = some (block, e')) : m.holds block size = true ∧ e'.Held (payloadOf block) := by
  cases allocated found with
  | markSweep took =>
    obtain ⟨ledger', start, whole, n, enough, -, -, records⟩ := MarkSweep.ledger_allocate ledger.1 large took
    have record := (records block).trans (if_pos rfl)
    obtain ⟨-, first, last⟩ := ledger'.record block n record
    rw [start] at first last
    rw [whole] at last
    exact ⟨Memory.holds_of_range regular ledger.2 first (by omega), MarkSweep.owns_payloadOf record⟩
  | copying room =>
    have whole := ledger.1.active
    exact ⟨Memory.holds_of_range regular ledger.2.1 (Nat.le_add_right _ _) (by unfold Space.top; omega),
      contains_insert_iff.2 (.inl rfl)⟩
  | leaky room =>
    exact ⟨Memory.holds_of_range regular ledger.2 (Nat.le_add_right _ _) (by unfold Space.top; omega),
      contains_insert_iff.2 (.inl rfl)⟩

-- A collector by moving looks whether the address of the payload is in use, which the last one is not if it is empty.
/-- The collector recognises the object, unless it moves objects and this one has no payload. -/
theorem owns_of_allocate (ledger : e.Ledger m) (regular : m.Regular) (large : headerSize ≤ size)
    (found : e.allocate size = some (block, e')) (full : e'.strategy = .copying → headerSize < size) :
    e'.owns (payloadOf block) = true := by
  have held := (held_of_allocate ledger regular large found).2
  cases allocated found with
  | markSweep took => exact held
  | leaky room => exact held
  | copying room =>
    have payload := full rfl
    refine Bool.and_eq_true_iff.2 ⟨Space.contains_iff.2 ⟨?_, ?_⟩, held⟩
    · exact Nat.le_trans (Nat.le_add_right _ _) (Nat.le_add_right _ _)
    · simp only [Space.top, payloadOf]
      omega

theorem granted_markSweep {c c' : MarkSweep} (ledger : (markSweep c).Ledger m) (regular : m.Regular)
    (fits : (markSweep c).Fits m) (large : headerSize ≤ size) (allocated : c.allocate size = some (block, c')) :
    Granted (markSweep c) (markSweep c') m size block := by
  obtain ⟨ledger', start, whole, n, enough, close, free, records⟩ := MarkSweep.ledger_allocate ledger.1 large allocated
  have record : c'.records[block]? = some n := by rw [records, if_pos rfl]
  obtain ⟨-, first, last⟩ := ledger'.record block n record
  rw [start] at first last
  rw [whole] at last
  have other (b n' : Nat) (old : c.records[b]? = some n') : b ≠ block := by
    have large' := (ledger.1.record _ _ old).1
    have clear := MarkSweep.clear_of_free ledger.1 (by unfold headerSize at large; omega) free old
    unfold headerSize at large large'
    omega
  constructor
  case ledger => exact ⟨ledger', by rw [start, whole]; exact ledger.2⟩
  case strategy => rfl
  case within =>
    intro a
    show c'.start ≤ a ∧ a < c'.start + c'.size ↔ _
    rw [start, whole]
    rfl
  case active =>
    intro a
    show c'.start ≤ a ∧ a < c'.start + c'.size ↔ _
    rw [start, whole]
    rfl
  case room => exact Memory.holds_of_range regular ledger.2 first (by omega)
  case inside => exact fun a low high => ⟨by omega, by omega⟩
  case apart =>
    intro p holds
    obtain ⟨low, n', old⟩ := MarkSweep.owns_iff.1 holds
    have different := other _ _ old
    have old' : c'.records[blockOf p]? = some n' := by rw [records, if_neg different, old]
    have span : m.blockSize p ≤ n' := (fits _ _ old).1
    rcases Nat.lt_or_gt_of_ne different with less | greater
    · exact .inl (Nat.le_trans (Nat.add_le_add_left span _) (ledger'.apart _ _ _ _ old' record less))
    · exact .inr (Nat.le_trans (Nat.add_le_add_left enough _) (ledger'.apart _ _ _ _ record old' greater))
  case held =>
    intro p
    show c'.owns p = true ↔ _ ∨ c.owns p = true
    rw [MarkSweep.owns_iff, MarkSweep.owns_iff]
    constructor
    · rintro ⟨low, n', found⟩
      rw [records] at found
      split at found
      · next same => exact .inl (same ▸ (payloadOf_blockOf low).symm)
      · exact .inr ⟨low, n', found⟩
    · rintro (rfl | ⟨low, n', found⟩)
      · exact ⟨Nat.le_add_left .., n, by rw [blockOf_payloadOf]; exact record⟩
      · exact ⟨low, n', by rw [records, if_neg (other _ _ found), found]⟩
  case fits =>
    intro m' same new b n' found
    rw [records] at found
    split at found
    · next here =>
      cases found
      subst here
      unfold Memory.blockSize at new
      rw [blockOf_payloadOf] at new
      rw [new]
      exact ⟨enough, close⟩
    · have size' := same (payloadOf b) (MarkSweep.owns_payloadOf found)
      unfold Memory.blockSize at size'
      rw [blockOf_payloadOf] at size'
      rw [size']
      exact fits b n' found

theorem granted (ledger : e.Ledger m) (regular : m.Regular) (fits : e.Fits m) (large : headerSize ≤ size)
    (spans : ∀ p, e.Held p → headerSize ≤ m.blockSize p) (found : e.allocate size = some (block, e')) :
    Granted e e' m size block := by
  have ledger' := ledger_allocate ledger large found
  have some' : 0 < size := Nat.lt_of_lt_of_le (by decide) large
  have positive (p : Nat) (holds : e.Held p) : 0 < m.blockSize p := Nat.lt_of_lt_of_le (by decide) (spans p holds)
  cases allocated found with
  | markSweep took => exact granted_markSweep ledger regular fits large took
  | copying room =>
    have whole := ledger.1.active
    constructor
    case ledger => exact ledger'
    case strategy => rfl
    case within => exact fun a => Iff.rfl
    case active => exact fun a => Iff.rfl
    case room => exact (held_of_allocate ledger regular large found).1
    case inside => exact Space.inside_of_room (whole ▸ room)
    case apart => exact fun p holds => .inl (Tiled.bounds fits (Std.TreeSet.mem_toList.2 holds)).2
    case held => exact fun p => contains_insert_iff
    case fits => exact fun m' same new => Tiled.bump fits positive same new some'
  | leaky room =>
    constructor
    case ledger => exact ledger'
    case strategy => rfl
    case within => exact fun a => Iff.rfl
    case active => exact fun a => Iff.rfl
    case room => exact (held_of_allocate ledger regular large found).1
    case inside => exact Space.inside_of_room room
    case apart => exact fun p holds => .inl (Tiled.bounds fits (Std.TreeSet.mem_toList.2 holds)).2
    case held => exact fun p => contains_insert_iff
    case fits => exact fun m' same new => Tiled.bump fits positive same new some'

end Engine

end TracingHeap
