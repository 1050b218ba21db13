import TracingHeap.Proofs.Copying.Rounds

/-! The end of a collection.

All words of the copies have been rewritten, so the copies refer to each other as the objects did, and they
lie one behind the other in their new space. -/

set_option autoImplicit false

namespace TracingHeap

/-- Objects that have been put one behind the other tile the space. -/
theorem Tiled.of_placed {m : Memory} {size : Nat → Nat} {start : Nat} {l : List Nat} (nodup : l.Nodup)
    (sizes : ∀ p ∈ l, m.blockSize (payloadOf (placed size start l p)) = size p) :
    Tiled m (start + (l.map size).sum) start (l.map fun p => payloadOf (placed size start l p)) := by
  induction l generalizing start with
  | nil => rfl
  | cons x rest ih =>
    obtain ⟨fresh, distinct⟩ := List.nodup_cons.1 nodup
    have behind (p : Nat) (member : p ∈ rest) : placed size start (x :: rest) p = placed size (start + size x) rest p := by
      rw [placed, if_neg fun same : x = p => fresh (same ▸ member)]
    have first : placed size start (x :: rest) x = start := by rw [placed, if_pos rfl]
    have here := sizes x List.mem_cons_self
    rw [first] at here
    have later := ih distinct fun p member => by
      rw [← behind p member]
      exact sizes p (List.mem_cons_of_mem x member)
    rw [List.map_cons, List.map_cons, List.sum_cons, first, ← Nat.add_assoc]
    refine Tiled.cons_iff.2 ⟨rfl, ?_⟩
    rw [here, List.map_congr_left fun p member => congrArg payloadOf (behind p member)]
    exact later

namespace Arrived

variable {types : TypeTable} {roots : List Slot} {resident : Std.TreeSet Nat} {space : Space} {m₀ m' : Memory}
  {live : Nat → Prop} {l : List Nat} {done : List Origin} {e : Evacuation} {p : Nat} {d : Descriptor}
  (footing : Footing types roots resident space m₀ live) (arrived : Arrived types roots space m₀ live l done e)
  (shape : e.memory.SameShape m')
  (same : ∀ a, space.start ≤ a → a < space.start + space.size → m'.byte a = e.memory.byte a)

-- The collection still clears the old space behind it, hence `m'`: a memory that agrees on the reserve.
include footing arrived shape same

omit shape in
theorem byte_eq (member : p ∈ l) {i : Nat} (lt : i < m₀.blockSize p) :
    m'.byte (blockOf (copyOf space m₀ l p) + i) = e.memory.byte (blockOf (copyOf space m₀ l p) + i) := by
  have bounds := copyOf_bounds space m₀ member
  have room := arrived.total_le footing
  exact same _ (by omega) (by omega)

omit shape in
/-- Of a copy only the words that are followed have been rewritten. -/
theorem byte_copy (member : p ∈ l) {i : Nat} (lt : i < m₀.blockSize p)
    (clear : ∀ a ∈ types.visited m₀ p, blockOf p + i < a ∨ a + wordSize ≤ blockOf p + i) :
    m'.byte (blockOf (copyOf space m₀ l p) + i) = m₀.byte (blockOf p + i) := by
  rw [arrived.byte_eq footing same member lt]
  exact arrived.toMoving.byte_copy member lt clear

theorem header_eq (member : p ∈ l) : m'.header (blockOf (copyOf space m₀ l p)) =
    { m₀.header (blockOf p) with forward := e.memory.word (blockOf (copyOf space m₀ l p) + 16) } := by
  have regular := arrived.regular footing
  have large := footing.large (arrived.reached _ member)
  have front : e.memory.holds (blockOf (copyOf space m₀ l p)) headerSize = true :=
    Memory.holds_of_range regular (arrived.holds_copy footing member) (Nat.le_refl _) (Nat.add_le_add_left large _)
  rw [← arrived.header_copy footing member]
  apply Memory.header_stay regular shape front
  intro i lt
  exact arrived.byte_eq footing same member (Nat.lt_of_lt_of_le lt large)

theorem check_eq (member : p ∈ l) : (m'.header (blockOf (copyOf space m₀ l p))).check = .ok .unmarked := by
  rw [arrived.header_eq footing shape same member]
  exact Header.check_eq_ok.2 (Header.check_eq_ok.1 (arrived.intact p member))

theorem payloadSize_eq (member : p ∈ l) : m'.payloadSize (copyOf space m₀ l p) = m₀.payloadSize p := by
  unfold Memory.payloadSize
  rw [arrived.header_eq footing shape same member]

theorem blockSize_eq (member : p ∈ l) : m'.blockSize (copyOf space m₀ l p) = m₀.blockSize p :=
  congrArg footprint (arrived.payloadSize_eq footing shape same member)

theorem word_eq (member : p ∈ l) {k : Nat} (last : k + wordSize ≤ headerSize + m₀.payloadSize p) :
    m'.word (blockOf (copyOf space m₀ l p) + k) = e.memory.word (blockOf (copyOf space m₀ l p) + k) := by
  have regular := arrived.regular footing
  have readable := Memory.holds_sub regular (arrived.holds_copy_object footing member) k wordSize last
  have spans := footing.spans (arrived.reached _ member)
  apply Memory.word_stay regular shape readable
  intro i lt
  rw [Nat.add_assoc]
  exact arrived.byte_eq footing same member (by omega)

theorem framed_eq (member : p ∈ l) (f : Framed types m₀ p d) : Framed types m' (copyOf space m₀ l p) d := by
  have header := arrived.header_eq footing shape same member
  refine f.congr (Nat.le_add_left _ _) ?_ (by rw [header]) (by rw [header])
  rw [shape.holds]
  exact arrived.holds_copy_object footing member

/-- The slots of a copy are where the object has them, and can be listed. -/
theorem tracedSlots_eq (member : p ∈ l) : ∃ ks : List Nat, types.visited m₀ p = ks.map (blockOf p + ·) ∧
    types.tracedSlots m' (copyOf space m₀ l p) = .ok (ks.map (blockOf (copyOf space m₀ l p) + ·)) ∧
    ∀ k ∈ ks, m'.word (blockOf (copyOf space m₀ l p) + k) = aim space m₀ l (m₀.word (blockOf p + k)) := by
  obtain ⟨d, f⟩ := footing.framed p (arrived.reached _ member)
  have header := arrived.header_eq footing shape same member
  have f' := arrived.framed_eq footing shape same member f
  have size : (m'.header (blockOf (copyOf space m₀ l p))).size = (m₀.header (blockOf p)).size := by rw [header]
  have word (r : Region) (region : d.region = some r) :
      m'.word (blockOf (copyOf space m₀ l p) + placeOf r.countOffset) = m₀.word (blockOf p + placeOf r.countOffset) := by
    obtain ⟨-, last, -⟩ := f.sound.count r region
    rw [arrived.word_eq footing shape same member (Nat.le_trans last (Nat.add_le_add_left f.fixed _))]
    exact arrived.toMoving.word_count footing member f region
  obtain ⟨excess, followed⟩ := Descriptor.followed_congr (m₀.header (blockOf p)).size
    (fun k => m₀.word (blockOf p + k)) (fun k => m'.word (blockOf (copyOf space m₀ l p) + k)) word
  have none := arrived.counted p member
  rw [f.excess_eq] at none
  refine ⟨_, f.visited_eq, ?_, fun k place => ?_⟩
  · rw [f'.tracedSlots_eq ((arrived.regular footing).of_sameShape shape) (arrived.check_eq footing shape same member)
      (by decide), f'.excess_eq, f'.visited_eq, size, excess, followed, none]
  · have visited : blockOf p + k ∈ types.visited m₀ p := by
      rw [f.visited_eq]
      exact List.mem_map_of_mem place
    have bounds := footing.place (arrived.reached _ member) visited
    rw [arrived.word_eq footing shape same member bounds.2.1]
    exact arrived.rewritten p k ((arrived.complete _).2 ⟨member, visited⟩)

omit same shape in
-- Along a path from the roots: behind an object that has been copied all words have been followed, and an object that
-- was forwarded before the collection ends the path.
/-- What can be reached has been copied, or names a copy as an object does that has been copied. -/
theorem copied_or_forwarded {word : Nat} (reach : Reach types roots m₀ word) : word ∈ l ∨
    live word ∧ (m₀.header (blockOf word)).check = .ok .forwarded ∧
      ∃ q ∈ l, copyOf space m₀ l q = (m₀.header (blockOf word)).forward := by
  induction reach with
  | @root s root value =>
    obtain ⟨i, rfl, -⟩ := footing.cells s root
    exact (arrived.settled (.root i) ((arrived.complete _).2 root)).resolve_left value
  | @step p a slots _ listed within value ih =>
    rcases ih with member | ⟨-, moved, -⟩
    · obtain ⟨d, framed⟩ := footing.framed p (arrived.reached p member)
      rw [footing.tracedSlots_eq (arrived.reached p member), arrived.counted p member] at listed
      obtain rfl := Except.ok.inj listed
      obtain ⟨k, rfl, -⟩ := framed.mem_visited within
      exact (arrived.settled (.word p k) ((arrived.complete _).2 ⟨member, within⟩)).resolve_left value
    · obtain ⟨state, check, stays⟩ := check_of_tracedSlots listed
      exact absurd (Except.ok.inj (check.symm.trans moved)) stays

/-- The copies are the objects of the space that they were moved to. -/
theorem tiled_copies : Tiled m' e.reserve.top space.start (l.map (copyOf space m₀ l)) := by
  have sizes (p : Nat) (member : p ∈ l) := arrived.blockSize_eq footing shape same member
  rw [arrived.reserve]
  exact .of_placed arrived.nodup sizes

theorem toList_copies : e.copies.toList = l.map (copyOf space m₀ l) := by
  have tiled := arrived.tiled_copies footing shape same
  refine toList_eq_of_sorted (tiled.sorted fun q known => ?_) fun q => (arrived.copies q).trans List.mem_map.symm
  obtain ⟨p, member, rfl⟩ := List.mem_map.1 known
  rw [arrived.blockSize_eq footing shape same member]
  exact Nat.lt_of_lt_of_le (by decide) (footing.large (arrived.reached _ member))

end Arrived

/-! ### Where all that can be reached is in order -/

namespace Arrived

variable {types : TypeTable} {roots : List Slot} {resident : Std.TreeSet Nat} {space : Space} {m₀ m' : Memory}
  {l : List Nat} {done : List Origin} {e : Evacuation}
  (departure : Departure types roots resident space m₀)
  (arrived : Arrived types roots space m₀ (Reach types roots m₀) l done e)

include departure arrived

/-- Exactly what can be reached has been copied. -/
theorem mem_iff_reach (p : Nat) : p ∈ l ↔ Reach types roots m₀ p := by
  refine ⟨fun member => (arrived.reached p member).1, fun reach => ?_⟩
  refine (arrived.copied_or_forwarded departure.footing reach).resolve_right fun left => ?_
  cases left.2.1.symm.trans (departure.consistent.unmarked p reach)

/-- What has been written is the new place of what was there. -/
theorem aim_eq {word : Nat} (fine : word ≠ 0 → Reach types roots m₀ word) :
    aim space m₀ l word = relocated (copyOf space m₀ l) word := by
  unfold relocated
  split
  · next null => rw [null]; exact if_pos rfl
  · next value => exact aim_of_mem value ((arrived.mem_iff_reach departure word).2 (fine value))

theorem relocation (shape : e.memory.SameShape m')
    (same : ∀ a, space.start ≤ a → a < space.start + space.size → m'.byte a = e.memory.byte a)
    (cells : m'.cells = e.memory.cells) : Relocation types roots m₀ m' (copyOf space m₀ l) := by
  have consistent := departure.consistent
  have footing := departure.footing
  have met (p : Nat) (reach : Reach types roots m₀ p) : p ∈ l := (arrived.mem_iff_reach departure p).2 reach
  have slot (i : Nat) : m'.slot (.cell i) = e.memory.slot (.cell i) := by simp only [Memory.slot, cells]
  have place (p k : Nat) (member : p ∈ l) :
      blockOf p + k + copyOf space m₀ l p - p = blockOf (copyOf space m₀ l p) + k := by
    have low := consistent.low (arrived.reached _ member).1
    rw [blockOf_copyOf]
    unfold copyOf blockOf payloadOf at *
    omega
  constructor
  case injective =>
    exact fun p q first second => footing.copyOf_injective arrived.reached (met p first) (met q second)
  case root =>
    intro s root
    obtain ⟨i, rfl, -⟩ := consistent.cells s root
    rw [slot, arrived.cell, if_pos ((arrived.complete (.root i)).2 root)]
    exact arrived.aim_eq departure fun value => .root root value
  case cell =>
    intro i free
    rw [slot, arrived.cell, if_neg fun written => free ((arrived.complete (.root i)).1 written)]
  case shape => exact arrived.shape.trans shape
  case unmarked => exact fun p reach => arrived.check_eq footing shape same (met p reach)
  case type =>
    intro p reach
    rw [arrived.header_eq footing shape same (met p reach)]
  case size => exact fun p reach => arrived.payloadSize_eq footing shape same (met p reach)
  case slots =>
    intro p reach slots listed
    obtain ⟨rfl, -⟩ := consistent.toIntact.eq_visited reach listed
    obtain ⟨ks, visited, found, -⟩ := arrived.tracedSlots_eq footing shape same (met p reach)
    rw [found, visited, List.map_map]
    congr 1
    exact List.map_congr_left fun k _ => (place p k (met p reach)).symm
  case word =>
    intro p reach slots listed a within
    obtain ⟨rfl, -⟩ := consistent.toIntact.eq_visited reach listed
    obtain ⟨ks, visited, -, word⟩ := arrived.tracedSlots_eq footing shape same (met p reach)
    have step (value : m₀.word a ≠ 0) : Reach types roots m₀ (m₀.word a) := .step reach listed within value
    rw [visited] at within
    obtain ⟨k, known, rfl⟩ := List.mem_map.1 within
    rw [place p k (met p reach), word k known]
    exact arrived.aim_eq departure step
  case byte =>
    intro p reach slots listed i lt clear
    obtain ⟨rfl, -⟩ := consistent.toIntact.eq_visited reach listed
    have spans := departure.spans reach
    exact arrived.byte_copy footing same (met p reach) (by omega) clear

end Arrived

end TracingHeap
