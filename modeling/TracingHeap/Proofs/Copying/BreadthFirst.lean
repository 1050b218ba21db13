import TracingHeap.Proofs.Copying.Scan

/-! The order of copying is breadth first.

The search below keeps a queue of its own. A collection has none: the copies that it has not looked through yet
are its queue. -/

set_option autoImplicit false

namespace TracingHeap

namespace BreadthFirst

/-- The words that are not null and have not been met before, each once and where it stands first. -/
def fresh (met : List Nat) : List Nat → List Nat
  | [] => []
  | word :: rest => if word = 0 ∨ word ∈ met then fresh met rest else word :: fresh (met ++ [word]) rest

/-- The first object of the queue is looked through, and what is met there for the first time goes to the end of
the queue. -/
def search (references : Nat → List Nat) : (rounds : Nat) → (queue met : List Nat) → List Nat
  | rounds + 1, p :: queue, met =>
    search references rounds (queue ++ fresh met (references p)) (met ++ fresh met (references p))
  | _, _, met => met

variable {met : List Nat} {words : List Nat}

/-- A slot that has been visited shows nothing new. -/
theorem fresh_distinctSlots (word : Slot → Nat) (slots : List Slot) :
    fresh [] ((distinctSlots slots).map word) = fresh [] (slots.map word) := by
  suffices visited : ∀ (seen : Std.HashSet Slot) (met : List Nat),
      (∀ s, seen.contains s = true → word s = 0 ∨ word s ∈ met) →
        fresh met ((distinctFrom seen slots).map word) = fresh met (slots.map word) from
    visited ∅ [] fun s member => absurd member (by simp)
  induction slots with
  | nil => exact fun _ _ _ => rfl
  | cons s rest ih =>
    intro seen met known
    rw [distinctFrom, List.map_cons, fresh]
    by_cases again : seen.contains s = true
    · rw [if_pos again, if_pos (known s again)]
      exact ih seen met known
    · rw [if_neg again, List.map_cons, fresh]
      split
      · next old =>
        refine ih _ _ fun t member => ?_
        rw [Std.HashSet.contains_insert, Bool.or_eq_true, beq_iff_eq] at member
        rcases member with rfl | before
        · exact old
        · exact known t before
      · refine congrArg _ (ih _ _ fun t member => ?_)
        rw [Std.HashSet.contains_insert, Bool.or_eq_true, beq_iff_eq] at member
        rcases member with rfl | before
        · exact .inr (List.mem_append_right _ List.mem_cons_self)
        · exact (known t before).imp_right (List.mem_append_left _)

end BreadthFirst

/-- The objects that can be reached, in the order in which a search meets them that visits the roots first. A root
slot that is registered twice may be visited twice. -/
def breadthFirst (types : TypeTable) (roots : List Slot) (m : Memory) (rounds : Nat) : List Nat :=
  BreadthFirst.search (types.references m) rounds (BreadthFirst.fresh [] (roots.map m.slot))
    (BreadthFirst.fresh [] (roots.map m.slot))

namespace CopyOrder

variable {empty : Nat → Bool} {references : Nat → List Nat} {copied copied' words l : List Nat}

theorem follow_eq {word : Nat} (followed : follow empty copied word = some copied') :
    copied' = if word = 0 ∨ word ∈ copied then copied else copied ++ [word] := by
  unfold follow at followed
  split at followed
  · next null => cases followed; rw [if_pos (.inl null)]
  · next value =>
    split at followed
    · next known =>
      split at followed
      · cases followed
      · cases followed; rw [if_pos (.inr known)]
    · next new => cases followed; rw [if_neg (not_or.2 ⟨value, new⟩)]

theorem followAll_eq (followed : followAll empty copied words = some copied') :
    copied' = copied ++ BreadthFirst.fresh copied words := by
  induction words generalizing copied with
  | nil =>
    cases followed
    exact (List.append_nil _).symm
  | cons word rest ih =>
    obtain ⟨next, step, later⟩ := Option.bind_eq_some_iff.1 followed
    have same := follow_eq step
    rw [BreadthFirst.fresh, ih later]
    split at same
    · next old => rw [if_pos old, same]
    · next new => rw [if_neg new, same, List.append_assoc, List.singleton_append]

theorem scan_extends {rounds next : Nat} (scanned : scan empty references rounds next copied = some l) : copied <+: l := by
  induction rounds generalizing next copied with
  | zero => cases scanned; exact List.prefix_refl _
  | succ rounds ih =>
    rw [scan] at scanned
    split at scanned
    · cases scanned; exact List.prefix_refl _
    · obtain ⟨more, followed, later⟩ := Option.bind_eq_some_iff.1 scanned
      exact (followAll_extends followed).trans (ih later)

-- The copies from `next` on are the queue. By induction on the rounds of the search; both sides may have more
-- rounds than they need.
theorem scan_eq_search {rounds next : Nat} (scanned : scan empty references rounds next copied = some l)
    (enough : l.length ≤ next + rounds) (more : Nat) (enough' : l.length ≤ next + more) :
    BreadthFirst.search references more (copied.drop next) copied = l := by
  induction more generalizing rounds next copied with
  | zero =>
    have grown := (scan_extends scanned).length_le
    have done : copied[next]? = none := List.getElem?_eq_none (by omega)
    have same : some copied = some l := by
      cases rounds with
      | zero => exact scanned
      | succ rounds => rwa [scan, done] at scanned
    exact Option.some.inj same
  | succ more ih =>
    cases at' : copied[next]? with
    | none =>
      have same : some copied = some l := by
        cases rounds with
        | zero => exact scanned
        | succ rounds => rwa [scan, at'] at scanned
      rw [List.drop_eq_nil_of_le (List.getElem?_eq_none_iff.1 at')]
      exact Option.some.inj same
    | some p =>
      have below := (List.getElem?_eq_some_iff.1 at').1
      have grown := (scan_extends scanned).length_le
      obtain ⟨rounds, rfl⟩ : ∃ n, rounds = n + 1 := ⟨rounds - 1, by omega⟩
      rw [scan, at'] at scanned
      obtain ⟨copied₁, followed, later⟩ := Option.bind_eq_some_iff.1 scanned
      obtain rfl := followAll_eq followed
      have queue : copied.drop next = p :: copied.drop (next + 1) := by
        rw [List.drop_eq_getElem_cons below, (List.getElem?_eq_some_iff.1 at').2]
      have rest := ih later (by omega) (by omega)
      rw [List.drop_append_of_le_length below] at rest
      rw [queue, BreadthFirst.search]
      exact rest

end CopyOrder

/-- Where the order of copying has an answer, it is breadth first. -/
theorem breadthFirst_eq {types : TypeTable} {roots : List Slot} {m : Memory} {rounds : Nat} {l : List Nat}
    (order : copyOrder types roots m rounds = some l) (enough : l.length ≤ rounds) (more : Nat)
    (enough' : l.length ≤ more) : breadthFirst types roots m more = l := by
  obtain ⟨first, followed, scanned⟩ := Option.bind_eq_some_iff.1 order
  have started := CopyOrder.followAll_eq followed
  rw [List.nil_append, BreadthFirst.fresh_distinctSlots] at started
  have searched := CopyOrder.scan_eq_search scanned (by omega) more (by omega)
  rw [started, List.drop_zero] at searched
  exact searched

end TracingHeap
