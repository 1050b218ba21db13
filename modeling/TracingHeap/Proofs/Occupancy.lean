import Mathlib.Data.List.Nodup
import Mathlib.Tactic.Choose
import TracingHeap.Proofs.Audit.Census
import TracingHeap.Proofs.Space.Tiled

/-! How much room the objects take that can be reached. -/

set_option autoImplicit false

namespace TracingHeap

/-- The sizes of all numbers with a property add up to a total. -/
def Totals (P : Nat → Prop) (size : Nat → Nat) (total : Nat) : Prop :=
  ∃ l : List Nat, l.Nodup ∧ (∀ p, p ∈ l ↔ P p) ∧ (l.map size).sum = total

namespace Totals

variable {P P' : Nat → Prop} {size size' : Nat → Nat} {total total' : Nat}

theorem congr (same : ∀ p, P p ↔ P' p) : Totals P size total ↔ Totals P' size total :=
  exists_congr fun _ => and_congr_right fun _ => and_congr_left fun _ => forall_congr' fun p => iff_congr Iff.rfl (same p)

theorem unique (totals : Totals P size total) (totals' : Totals P size total') : total = total' := by
  obtain ⟨l, nodup, members, rfl⟩ := totals
  obtain ⟨l', nodup', members', rfl⟩ := totals'
  have same : l.Perm l' := (List.perm_ext_iff_of_nodup nodup nodup').2 fun p => (members p).trans (members' p).symm
  exact (same.map size).sum_nat

/-- The total is the same for numbers that correspond one to one and have the same sizes. -/
theorem transfer (totals : Totals P size total) {R : Nat → Nat → Prop} (there : ∀ p, P p → ∃ q, P' q ∧ R p q)
    (back : ∀ q, P' q → ∃ p, P p ∧ R p q) (functional : ∀ p q q', R p q → R p q' → q = q')
    (injective : ∀ p p' q, R p q → R p' q → p = p') (same : ∀ p q, P p → R p q → size' q = size p) :
    Totals P' size' total := by
  obtain ⟨l, nodup, members, rfl⟩ := totals
  have image (p : Nat) (member : p ∈ l) := there p ((members p).1 member)
  choose! f lands meets using image
  refine ⟨l.map f, ?_, fun q => ?_, ?_⟩
  · refine (List.nodup_map_iff_inj_on nodup).2 fun p member p' member' equal => ?_
    exact injective p p' (f p) (meets p member) (equal ▸ meets p' member')
  · constructor
    · intro member
      obtain ⟨p, known, rfl⟩ := List.mem_map.1 member
      exact lands p known
    · intro holds
      obtain ⟨p, holds', meet⟩ := back q holds
      have member := (members p).2 holds'
      exact List.mem_map.2 ⟨p, member, functional p _ _ (meets p member) meet⟩
  · rw [List.map_map]
    exact congrArg List.sum (List.map_congr_left fun p member =>
      same p (f p) ((members p).1 member) (meets p member))

end Totals

/-- The blocks of the objects that can be reached take so many bytes. -/
def Occupied (types : TypeTable) (roots : List Slot) (m : Memory) (bytes : Nat) : Prop :=
  Totals (Reach types roots m) m.blockSize bytes

/-- They are what is counted. -/
theorem Consistent.occupied {types : TypeTable} {roots : List Slot} {held : Nat → Prop} {m : Memory}
    (consistent : Consistent types roots held m) :
    ∃ found, types.census roots m = .ok found ∧ Occupied types roots m found.bytes := by
  obtain ⟨reached, nodup, members, counted⟩ := consistent.census_ok
  exact ⟨_, counted, reached, nodup, members, rfl⟩

end TracingHeap
