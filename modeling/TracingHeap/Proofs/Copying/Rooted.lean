import TracingHeap.Proofs.Copying.Evacuation
import TracingHeap.Proofs.Heap.WellFormed
import TracingHeap.Proofs.Space.Blocks

/-! The part of a heap that a moving collection reads.

It reads what the roots lead to and nothing else. So what has to be in order is that part alone; a well-formed
heap is a case of it. -/

set_option autoImplicit false

namespace TracingHeap

/-- What the roots lead to stays within a list that is closed under references. -/
theorem Reach.mem_of_closed {types : TypeTable} {roots : List Slot} {m : Memory} {live : List Nat}
    (started : ∀ s ∈ roots, m.slot s = 0 ∨ m.slot s ∈ live)
    (closed : ∀ p ∈ live, ∃ slots, types.tracedSlots m p = .ok slots ∧ ∀ a ∈ slots, m.word a = 0 ∨ m.word a ∈ live)
    {p : Nat} (reach : Reach types roots m p) : p ∈ live := by
  induction reach with
  | root member value => exact (started _ member).resolve_left value
  | step _ listed member value ih =>
    obtain ⟨slots, listed', leads⟩ := closed _ ih
    obtain rfl := Except.ok.inj (listed.symm.trans listed')
    exact (leads _ member).resolve_left value

/-- Objects whose blocks lie one behind the other between two addresses take no more bytes than lie between them. -/
theorem Memory.sum_blockSize_le {m : Memory} {l : List Nat} {low high : Nat} (nodup : l.Nodup)
    (before : ∀ p ∈ l, ∀ q ∈ l, p < q → blockOf p + m.blockSize p ≤ blockOf q)
    (within : ∀ p ∈ l, low ≤ blockOf p ∧ blockOf p + m.blockSize p ≤ high) : (l.map m.blockSize).sum ≤ high - low := by
  let block (p : Nat) : Block := ⟨blockOf p, m.blockSize p⟩
  have apart : (l.map block).Pairwise Block.Apart := by
    refine List.pairwise_map.2 (nodup.imp_of_mem fun {p q} first second different => ?_)
    exact (Nat.lt_or_gt_of_ne different).imp (before p first q second) (before q second p first)
  have bound := totalSize_le_of_within apart fun b known => by
    obtain ⟨p, member, rfl⟩ := List.mem_map.1 known
    exact within p member
  rwa [totalSize_eq_sum, List.map_map] at bound

namespace Copying

/-- What lies in the active space keeps clear of the reserve. -/
theorem Ledger.away {c : Copying} {m : Memory} {block n : Nat} (ledger : Ledger c) (regular : m.Regular)
    (active : m.holds c.spaces.active.start c.spaces.active.size = true)
    (reserve : m.holds c.spaces.reserve.start c.spaces.reserve.size = true)
    (first : c.spaces.active.start ≤ block) (last : block + n ≤ c.spaces.active.top) :
    block + n ≤ c.spaces.reserve.start ∨ c.spaces.reserve.start + c.spaces.reserve.size ≤ block := by
  by_contra meet
  have room := ledger.room
  unfold Space.top at last
  have inside : m.holds block n = true := Memory.holds_of_range regular active first (by omega)
  have sameArena := Memory.index_eq_of_overlap regular inside reserve (by omega)
  have here := Memory.index_eq_of_range regular active first (by omega)
  exact ledger.apart (here.symm.trans sameArena)

-- Nothing is asked of a damaged header, except that no object lies over it.
/-- The intact headers among some objects of the active space give registered types and the right sizes. -/
structure Sized (types : TypeTable) (c : Copying) (m : Memory) (live : Nat → Prop) : Prop where
  typed : ∀ p, live p → m.Unmarked p → ∃ d, types.get? (m.header (blockOf p)).typeId = some d ∧
    d.fixedSize ≤ m.payloadSize p ∧ m.payloadSize p ≤ largestPayload
  within : ∀ p, live p → payloadOf c.spaces.active.start ≤ p ∧ blockOf p + m.extent p ≤ c.spaces.active.top
  apart : ∀ p q, live p → live q → p < q → blockOf p + m.extent p ≤ blockOf q

namespace Sized

variable {types : TypeTable} {roots : List Slot} {c : Copying} {m : Memory} {live : Nat → Prop} {p : Nat}
  (sized : Sized types c m live)

include sized

theorem small (fit : live p ∧ m.Unmarked p) : m.payloadSize p ≤ largestPayload := by
  obtain ⟨d, -, -, small⟩ := sized.typed p fit.1 fit.2
  exact small

theorem spans (fit : live p ∧ m.Unmarked p) : headerSize + m.payloadSize p ≤ m.blockSize p :=
  le_footprint (sized.small fit)

/-- Together they take no more than what is in use. -/
theorem total_le (l : List Nat) (nodup : l.Nodup) (fit : ∀ p ∈ l, live p ∧ m.Unmarked p) :
    (l.map m.blockSize).sum ≤ c.spaces.active.cursor := by
  have extent (p : Nat) (member : p ∈ l) : m.extent p = m.blockSize p := Memory.extent_of_unmarked (fit p member).2
  have bound : (l.map m.blockSize).sum ≤ c.spaces.active.top - c.spaces.active.start := by
    refine Memory.sum_blockSize_le nodup (fun p first q second less => ?_) fun p member => ?_
    · exact extent p first ▸ sized.apart p q (fit p first).1 (fit q second).1 less
    · obtain ⟨low, high⟩ := sized.within p (fit p member).1
      rw [extent p member] at high
      unfold payloadOf at low
      exact ⟨Nat.le_sub_of_add_le low, high⟩
  exact Nat.le_trans bound (Nat.le_of_eq (Nat.add_sub_cancel_left ..))

section

variable (regular : m.Regular) (checked : types.Checked) (ledger : (Engine.copying c).Ledger m)

include regular ledger

theorem inside (holds : live p) : m.holds (blockOf p) (m.extent p) = true := by
  obtain ⟨ledger, active, -⟩ := ledger
  have room := ledger.room
  rw [← ledger.active] at active
  obtain ⟨first, last⟩ := sized.within p holds
  unfold payloadOf Space.top at *
  exact Memory.holds_of_range regular active (by unfold blockOf; omega) (by omega)

include checked

theorem framed (fit : live p ∧ m.Unmarked p) : ∃ d, Framed types m p d := by
  obtain ⟨d, type, fixed, small⟩ := sized.typed p fit.1 fit.2
  have block := sized.inside regular ledger fit.1
  rw [Memory.extent_of_unmarked fit.2] at block
  refine ⟨d, Nat.le_trans (Nat.le_add_left ..) (sized.within p fit.1).1, ?_, type,
    checked.sound type (Nat.le_trans fixed small), fixed⟩
  exact Memory.holds_of_range regular block (Nat.le_refl _) (Nat.add_le_add_left (sized.spans fit) _)

theorem intact (unmarked : ∀ p, live p → m.Unmarked p) : Intact types live m := by
  refine ⟨regular, fun p holds => sized.framed regular checked ledger ⟨holds, unmarked p holds⟩, unmarked, ?_⟩
  intro p q first second less
  have gap := sized.apart p q first second less
  have span := sized.spans ⟨first, unmarked p first⟩
  obtain ⟨low, -⟩ := sized.within p first
  rw [Memory.extent_of_unmarked (unmarked p first)] at gap
  unfold blockOf payloadOf at *
  omega

/-- They can be moved to the reserve if the references that are followed lead to no other residents. -/
theorem footing (known : ∀ p, live p → c.resident.contains p = true) (cells : ∀ s ∈ roots, ∃ i, s = .cell i ∧ i < m.cells.size)
    (started : ∀ s ∈ roots, m.slot s ≠ 0 → c.resident.contains (m.slot s) = true → live (m.slot s))
    (led : ∀ p, live p ∧ m.Unmarked p → ∀ a ∈ types.visited m p, m.word a ≠ 0 →
      c.resident.contains (m.word a) = true → live (m.word a)) :
    Footing types roots c.resident c.spaces.reserve m live := by
  have inside (p : Nat) (holds : live p) := sized.inside regular ledger holds
  have framed (p : Nat) (fit : live p ∧ m.Unmarked p) := sized.framed regular checked ledger fit
  obtain ⟨ledger, active, reserve⟩ := ledger
  rw [← ledger.reserve] at reserve
  rw [← ledger.active] at active
  have room := ledger.room
  constructor
  case regular => exact regular
  case framed => exact framed
  case known => exact known
  case small => exact fun p fit => sized.small fit
  case room => exact inside
  case apart => exact sized.apart
  case reserve => exact reserve
  case away =>
    intro p holds
    obtain ⟨first, last⟩ := sized.within p holds
    unfold payloadOf at first
    exact ledger.away regular active reserve (Nat.le_sub_of_add_le first) last
  case total =>
    intro l nodup fit
    have total := sized.total_le l nodup fit
    rw [ledger.active, ← ledger.reserve] at room
    exact Nat.le_trans total room
  case cells => exact cells
  case started => exact started
  case led => exact led

end

end Sized

-- Nothing is said of objects that cannot be reached: where their headers should be, anything may stand.
/-- The objects that can be reached are intact, and so are the references in them and in the roots. -/
structure Rooted (types : TypeTable) (roots : List Slot) (c : Copying) (m : Memory) : Prop where
  unmarked : ∀ p, Reach types roots m p → (m.header (blockOf p)).check = .ok .unmarked
  typed : ∀ p, Reach types roots m p → ∃ d, types.get? (m.header (blockOf p)).typeId = some d ∧
    d.fixedSize ≤ m.payloadSize p ∧ m.payloadSize p ≤ largestPayload
  references : ∀ p, Reach types roots m p → ∃ slots, types.tracedSlots m p = .ok slots ∧
    ∀ a ∈ slots, m.word a = 0 ∨ c.resident.contains (m.word a) = true
  within : ∀ p, Reach types roots m p → payloadOf c.spaces.active.start ≤ p ∧
    blockOf p + m.blockSize p ≤ c.spaces.active.top
  apart : ∀ p q, Reach types roots m p → Reach types roots m q → p < q → blockOf p + m.blockSize p ≤ blockOf q
  outside : ∀ s ∈ roots, ∃ i, s = .cell i ∧ i < m.cells.size
  roots : ∀ s ∈ roots, m.slot s = 0 ∨ c.resident.contains (m.slot s) = true

-- A list that is closed under references bounds what can be reached, so on such a list it can be decided.
/-- The objects of a list are intact, and the references in them and in the roots lead back to it. -/
def RootedOn (types : TypeTable) (roots : List Slot) (c : Copying) (m : Memory) (live : List Nat) : Prop :=
  (∀ p ∈ live, c.resident.contains p = true ∧ (m.header (blockOf p)).isIntact .unmarked = true ∧
    (∃ d, types.get? (m.header (blockOf p)).typeId = some d ∧ d.fixedSize ≤ m.payloadSize p ∧
      m.payloadSize p ≤ largestPayload) ∧
    (∃ slots, types.tracedSlots m p = .ok slots ∧ ∀ a ∈ slots, m.word a = 0 ∨ m.word a ∈ live) ∧
    payloadOf c.spaces.active.start ≤ p ∧ blockOf p + m.blockSize p ≤ c.spaces.active.top ∧
    ∀ q ∈ live, p < q → blockOf p + m.blockSize p ≤ blockOf q) ∧
  ∀ s ∈ roots, m.isCell s = true ∧ (m.slot s = 0 ∨ m.slot s ∈ live)

instance (types : TypeTable) (roots : List Slot) (c : Copying) (m : Memory) (live : List Nat) :
    Decidable (RootedOn types roots c m live) := inferInstanceAs (Decidable (_ ∧ _))

end Copying

namespace World

variable {w : World} {c : Copying}

/-- Where the headers are in order and all words that are met lead to held objects, all is in order that can be
reached. -/
theorem Headed.rooted (headed : w.Headed) (engine : w.heap.collector.engine = .copying c)
    (known : ∀ p, w.Met p → w.heap.collector.engine.Held p)
    (listed : ∀ p, w.Met p → ∃ slots, w.heap.types.tracedSlots w.memory p = .ok slots) :
    Copying.Rooted w.heap.types w.heap.roots.slots c w.memory := by
  have met (p : Nat) (reach : Reach w.heap.types w.heap.roots.slots w.memory p) : w.Met p := reach.met known
  have held (p : Nat) (reach : Reach w.heap.types w.heap.roots.slots w.memory p) := known p (met p reach)
  have present (p : Nat) (met : w.Met p) : c.resident.contains p = true := by
    have holds := known p met
    rwa [engine] at holds
  have fits := headed.fits
  rw [engine] at fits
  constructor
  case unmarked => exact fun p reach => headed.unmarked p (held p reach)
  case typed => exact fun p reach => headed.typed p (held p reach)
  case references =>
    intro p reach
    obtain ⟨slots, found⟩ := listed p (met p reach)
    refine ⟨slots, found, fun a within => Decidable.or_iff_not_imp_left.2 fun value => present _ ?_⟩
    exact .step (met p reach) (held p reach) found within value
  case within => exact fun p reach => Tiled.bounds fits (Std.TreeSet.mem_toList.2 (present p (met p reach)))
  case apart =>
    exact fun p q first second => Tiled.apart fits (Std.TreeSet.mem_toList.2 (present p (met p first)))
      (Std.TreeSet.mem_toList.2 (present q (met q second)))
  case outside => exact headed.outside
  case roots => exact fun s root => Decidable.or_iff_not_imp_left.2 fun value => present _ (.root root value)

/-- In a well-formed heap all objects are in order, also those that can be reached. -/
theorem WellFormed.rooted (formed : w.WellFormed) (books : w.Books) (engine : w.heap.collector.engine = .copying c) :
    Copying.Rooted w.heap.types w.heap.roots.slots c w.memory := by
  have consistent := formed.consistent books
  have held (p : Nat) (met : w.Met p) := consistent.held_of_reach met.reach
  exact formed.headed.rooted engine held fun p met => consistent.listed p (held p met)

end World

namespace Copying.Rooted

variable {types : TypeTable} {roots : List Slot} {c : Copying} {m : Memory} {p : Nat}

section

variable (rooted : Rooted types roots c m)

include rooted

theorem known (reach : Reach types roots m p) : c.resident.contains p = true := by
  cases reach with
  | root member value => exact (rooted.roots _ member).resolve_left value
  | step before listed member value =>
    obtain ⟨slots, listed', leads⟩ := rooted.references _ before
    obtain rfl := Except.ok.inj (listed.symm.trans listed')
    exact (leads _ member).resolve_left value

theorem extent (reach : Reach types roots m p) : m.extent p = m.blockSize p :=
  Memory.extent_of_unmarked (rooted.unmarked p reach)

theorem sized : Sized types c m (Reach types roots m) := by
  refine ⟨fun p reach _ => rooted.typed p reach, fun p reach => ?_, fun p q first second => ?_⟩
  · rw [rooted.extent reach]
    exact rooted.within p reach
  · rw [rooted.extent first]
    exact rooted.apart p q first second

end

/-- It is enough that the objects of a closed list are in order. -/
theorem of_list {live : List Nat} (on : RootedOn types roots c m live) : Rooted types roots c m := by
  obtain ⟨objects, starts⟩ := on
  have within {p : Nat} (reach : Reach types roots m p) : p ∈ live :=
    reach.mem_of_closed (fun s root => (starts s root).2) fun p member => (objects p member).2.2.2.1
  have known (word : Nat) (leads : word = 0 ∨ word ∈ live) : word = 0 ∨ c.resident.contains word = true :=
    leads.imp_right fun member => (objects word member).1
  constructor
  case unmarked => exact fun p reach => Header.isIntact_iff.1 (objects p (within reach)).2.1
  case typed => exact fun p reach => (objects p (within reach)).2.2.1
  case references =>
    intro p reach
    obtain ⟨slots, listed, leads⟩ := (objects p (within reach)).2.2.2.1
    exact ⟨slots, listed, fun a member => known _ (leads a member)⟩
  case within =>
    intro p reach
    obtain ⟨-, -, -, -, low, high, -⟩ := objects p (within reach)
    exact ⟨low, high⟩
  case apart =>
    intro p q first second
    exact (objects p (within first)).2.2.2.2.2.2 q (within second)
  case outside => exact fun s root => Memory.isCell_iff.1 (starts s root).1
  case roots => exact fun s root => known _ (starts s root).2

/-- What can be reached can be moved to the reserve. -/
theorem departure (rooted : Rooted types roots c m) (regular : m.Regular) (checked : types.Checked)
    (ledger : (Engine.copying c).Ledger m) : Departure types roots c.resident c.spaces.reserve m := by
  have intact := rooted.sized.intact regular checked ledger rooted.unmarked
  have listed (p : Nat) (reach : Reach types roots m p) : ∃ slots, types.tracedSlots m p = .ok slots := by
    obtain ⟨slots, listed, -⟩ := rooted.references p reach
    exact ⟨slots, listed⟩
  refine ⟨?_, intact.reachable (fun _ reach => reach) listed rooted.outside⟩
  refine rooted.sized.footing regular checked ledger (fun p reach => rooted.known reach) rooted.outside
    (fun s root value _ => .root root value) fun p fit a member value _ => ?_
  obtain ⟨slots, found⟩ := listed p fit.1
  obtain ⟨rfl, -⟩ := intact.eq_visited fit.1 found
  exact .step fit.1 found member value

end Copying.Rooted

end TracingHeap
