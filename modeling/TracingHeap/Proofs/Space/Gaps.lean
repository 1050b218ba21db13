import Mathlib.Tactic.ByContra
import TracingHeap.Proofs.Space.FreeList

/-! Gaps between what is taken.

Blocks that are spaced and cover exactly what is not taken are the gaps, since no two of them touch. -/

set_option autoImplicit false

namespace TracingHeap

/-- Nothing is taken between the two addresses, and on either side the arena ends or something is. -/
structure IsGap (taken : Nat → Prop) (start stop low high : Nat) : Prop where
  order : low < high
  inside : start ≤ low ∧ high ≤ stop
  clear : ∀ a, low ≤ a → a < high → ¬ taken a
  below : low = start ∨ taken (low - 1)
  above : high = stop ∨ taken high

theorem IsGap.congr {taken taken' : Nat → Prop} {start stop low high : Nat} (same : ∀ a, taken a ↔ taken' a) :
    IsGap taken start stop low high ↔ IsGap taken' start stop low high := by
  rw [funext fun a => propext (same a)]

namespace Spaced

variable {blocks : List Block} {b b' : Block} {taken : Nat → Prop} {a start stop low high : Nat}

theorem ordered_or_eq (spaced : Spaced blocks) (member : b ∈ blocks) (member' : b' ∈ blocks) :
    b = b' ∨ b.stop < b'.start ∨ b'.stop < b.start := by
  induction blocks with
  | nil => cases member
  | cons head rest ih =>
    rcases List.mem_cons.1 member with rfl | later <;> rcases List.mem_cons.1 member' with rfl | later'
    · exact .inl rfl
    · exact .inr (.inl (spaced.head_lt later'))
    · exact .inr (.inr (spaced.head_lt later))
    · exact ih spaced.tail later later'

/-- The address behind a block is not covered. -/
theorem not_covers_stop (spaced : Spaced blocks) (member : b ∈ blocks) : ¬ Covers blocks b.stop := by
  rintro ⟨b', member', first, last⟩
  rcases spaced.ordered_or_eq member member' with rfl | before | behind
  · exact Nat.lt_irrefl _ last
  · omega
  · have positive := spaced.positive b member
    unfold Block.stop at *
    omega

/-- No block ends where another begins. -/
theorem stop_ne_start (spaced : Spaced blocks) (member : b ∈ blocks) (member' : b' ∈ blocks) : b.stop ≠ b'.start :=
  fun touch => spaced.not_covers_stop member (touch ▸ spaced.covers_start member')

/-- The address in front of a block is not covered. -/
theorem not_covers_pred (spaced : Spaced blocks) (member : b ∈ blocks) (low : 0 < b.start) :
    ¬ Covers blocks (b.start - 1) := by
  rintro ⟨b', member', first, last⟩
  rcases spaced.ordered_or_eq member member' with rfl | before | behind
  · omega
  · unfold Block.stop at before
    omega
  · omega

/-- Addresses in a row lie in one block. -/
theorem exists_block_of_covered (spaced : Spaced blocks) (order : low < high)
    (covered : ∀ a, low ≤ a → a < high → Covers blocks a) : ∃ b ∈ blocks, b.start ≤ low ∧ high ≤ b.stop := by
  obtain ⟨b, member, first, last⟩ := covered low (Nat.le_refl _) order
  refine ⟨b, member, first, Nat.le_of_not_lt fun beyond => ?_⟩
  exact spaced.not_covers_stop member (covered b.stop (Nat.le_of_lt last) beyond)

/-- The blocks that cover what is not taken are the gaps. -/
theorem isGap_iff (spaced : Spaced blocks)
    (covers : ∀ a, Covers blocks a ↔ (start ≤ a ∧ a < stop) ∧ ¬ taken a) :
    IsGap taken start stop low high ↔ ∃ b ∈ blocks, b.start = low ∧ b.stop = high := by
  constructor
  · intro gap
    have covered (a : Nat) (first : low ≤ a) (last : a < high) : Covers blocks a :=
      (covers a).2 ⟨⟨Nat.le_trans gap.inside.1 first, Nat.lt_of_lt_of_le last gap.inside.2⟩, gap.clear a first last⟩
    obtain ⟨b, member, first, last⟩ := spaced.exists_block_of_covered gap.order covered
    have order := gap.order
    refine ⟨b, member, ?_, ?_⟩
    · -- The block does not begin earlier: the address in front of the gap is outside or taken.
      refine Nat.le_antisymm first (Nat.le_of_not_lt fun earlier => ?_)
      obtain ⟨⟨inside, -⟩, free⟩ := (covers (low - 1)).1 ⟨b, member, by omega, by omega⟩
      rcases gap.below with edge | occupied
      · omega
      · exact free occupied
    · refine Nat.le_antisymm (Nat.le_of_not_lt fun later => ?_) last
      obtain ⟨⟨-, inside⟩, free⟩ := (covers high).1 ⟨b, member, by omega, later⟩
      rcases gap.above with edge | occupied
      · omega
      · exact free occupied
  · rintro ⟨b, member, rfl, rfl⟩
    have positive := spaced.positive b member
    have within (a : Nat) (first : b.start ≤ a) (last : a < b.stop) := (covers a).1 ⟨b, member, first, last⟩
    have bottom := within b.start (Nat.le_refl _) (Nat.lt_add_of_pos_right positive)
    have top := within (b.stop - 1) (by unfold Block.stop; omega) (by unfold Block.stop; omega)
    constructor
    case order => exact Nat.lt_add_of_pos_right positive
    case inside => exact ⟨bottom.1.1, by omega⟩
    case clear => exact fun a first last => (within a first last).2
    case below =>
      by_contra neither
      obtain ⟨edge, free⟩ := not_or.1 neither
      exact spaced.not_covers_pred member (by omega) ((covers _).2 ⟨by omega, free⟩)
    case above =>
      by_contra neither
      obtain ⟨edge, free⟩ := not_or.1 neither
      exact spaced.not_covers_stop member ((covers _).2 ⟨by omega, free⟩)

end Spaced

end TracingHeap
