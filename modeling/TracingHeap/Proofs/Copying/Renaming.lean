import TracingHeap.Proofs.Copying.Evacuation

/-! Objects under other addresses.

The order of copying and the places of the copies depend on how the objects refer to each other and on their sizes, not
on where the objects are. -/

set_option autoImplicit false

namespace TracingHeap

/-- On some objects, `f` gives different objects different addresses other than null. -/
structure Renames (good : Nat → Prop) (f : Nat → Nat) : Prop where
  injective : ∀ p q, good p → good q → f p = f q → p = q
  value : ∀ p, good p → f p ≠ 0

namespace Renames

variable {good : Nat → Prop} {f : Nat → Nat} (renames : Renames good f) {copied words : List Nat} {p : Nat}

include renames

theorem mem_map (all : ∀ q ∈ copied, good q) (here : good p) : f p ∈ copied.map f ↔ p ∈ copied := by
  constructor
  · intro member
    obtain ⟨q, known, same⟩ := List.mem_map.1 member
    exact renames.injective q p (all q known) here same ▸ known
  · exact List.mem_map_of_mem

theorem getLast?_map (all : ∀ q ∈ copied, good q) (here : good p) :
    (copied.map f).getLast? = some (f p) ↔ copied.getLast? = some p := by
  rw [List.getLast?_map, Option.map_eq_some_iff]
  constructor
  · rintro ⟨q, last, same⟩
    exact renames.injective q p (all q (List.mem_of_getLast? last)) here same ▸ last
  · exact fun last => ⟨p, last, rfl⟩

section

variable {empty empty' : Nat → Bool} (sizes : ∀ q, good q → empty' (f q) = empty q)

include sizes

theorem follow {word : Nat} (all : ∀ q ∈ copied, good q) (fine : word ≠ 0 → good word) :
    CopyOrder.follow empty' (copied.map f) (relocated f word) = (CopyOrder.follow empty copied word).map (List.map f) := by
  by_cases null : word = 0
  · simp [CopyOrder.follow, null]
  · have here := fine null
    have there := renames.value word here
    simp only [CopyOrder.follow, relocated_of_ne null, null, there, if_false, renames.mem_map all here,
      renames.getLast?_map all here, sizes word here]
    split
    · split <;> rfl
    · simp

theorem followAll (all : ∀ q ∈ copied, good q) (fine : ∀ word ∈ words, word ≠ 0 → good word) :
    CopyOrder.followAll empty' (copied.map f) (words.map (relocated f)) =
      (CopyOrder.followAll empty copied words).map (List.map f) := by
  induction words generalizing copied with
  | nil => rfl
  | cons word rest ih =>
    rw [List.map_cons, CopyOrder.followAll, CopyOrder.followAll,
      renames.follow sizes all (fine word List.mem_cons_self)]
    cases followed : CopyOrder.follow empty copied word with
    | none => rfl
    | some next =>
      simp only [Option.map_some, Option.bind_some]
      apply ih
      · intro q member
        rcases CopyOrder.mem_of_follow followed member with old | ⟨rfl, value⟩
        · exact all q old
        · exact fine q List.mem_cons_self value
      · exact fun other member => fine other (List.mem_cons_of_mem word member)

/-- The objects are met in the same order. -/
theorem scan {references references' : Nat → List Nat} (closed : ∀ q, good q → ∀ word ∈ references q, word ≠ 0 → good word)
    (same : ∀ q, good q → references' (f q) = (references q).map (relocated f)) (rounds next : Nat)
    (all : ∀ q ∈ copied, good q) : CopyOrder.scan empty' references' rounds next (copied.map f) =
      (CopyOrder.scan empty references rounds next copied).map (List.map f) := by
  induction rounds generalizing next copied with
  | zero => rfl
  | succ rounds ih =>
    rw [CopyOrder.scan, CopyOrder.scan, List.getElem?_map]
    cases at' : copied[next]? with
    | none => rfl
    | some q =>
      have here := all q (List.mem_of_getElem? at')
      simp only [Option.map_some, same q here, renames.followAll sizes all (closed q here)]
      cases followed : CopyOrder.followAll empty copied (references q) with
      | none => rfl
      | some more =>
        simp only [Option.map_some, Option.bind_some]
        apply ih
        intro x member
        rcases CopyOrder.mem_of_followAll followed member with old | ⟨within, value⟩
        · exact all x old
        · exact closed q here x within value

end

/-- The copies are put in the same places. -/
theorem placed {size size' : Nat → Nat} (all : ∀ q ∈ copied, good q) (sizes : ∀ q ∈ copied, size' (f q) = size q)
    (here : good p) (start : Nat) :
    TracingHeap.placed size' start (copied.map f) (f p) = TracingHeap.placed size start copied p := by
  induction copied generalizing start with
  | nil => rfl
  | cons x rest ih =>
    have same : f x = f p ↔ x = p := ⟨renames.injective x p (all x List.mem_cons_self) here, congrArg f⟩
    simp only [List.map_cons, TracingHeap.placed, same, sizes x List.mem_cons_self]
    split
    · rfl
    · exact ih (fun q later => all q (List.mem_cons_of_mem x later))
        (fun q later => sizes q (List.mem_cons_of_mem x later)) _

end Renames

namespace Relocation

variable {types : TypeTable} {roots : List Slot} {m m' : Memory} {f : Nat → Nat}
  (relocation : Relocation types roots m m' f) (value : ∀ p, Reach types roots m p → f p ≠ 0)

include relocation

theorem blockSize_eq {p : Nat} (reach : Reach types roots m p) : m'.blockSize (f p) = m.blockSize p :=
  congrArg footprint (relocation.size p reach)

theorem sum_blockSize {l : List Nat} (reach : ∀ p ∈ l, Reach types roots m p) :
    ((l.map f).map m'.blockSize).sum = (l.map m.blockSize).sum := by
  rw [List.map_map]
  exact congrArg List.sum (List.map_congr_left fun p member => relocation.blockSize_eq (reach p member))

include value

theorem renames : Renames (Reach types roots m) f := ⟨relocation.injective, value⟩

/-- A relocated object is copied to where the object itself would have been copied. -/
theorem copyOf_eq {l : List Nat} (reach : ∀ p ∈ l, Reach types roots m p) {p : Nat} (here : Reach types roots m p)
    (space : Space) : copyOf space m' (l.map f) (f p) = copyOf space m l p :=
  congrArg payloadOf
    ((relocation.renames value).placed reach (fun q member => relocation.blockSize_eq (reach q member)) here space.start)

/-- The relocated objects are copied in the order in which the objects themselves would have been. -/
theorem copyOrder_eq (consistent : Consistent types roots (Reach types roots m) m)
    (consistent' : Consistent types roots (Reach types roots m') m') (rounds : Nat) :
    copyOrder types roots m' rounds = (copyOrder types roots m rounds).map (List.map f) := by
  have renames := relocation.renames value
  have sizes (p : Nat) (reach : Reach types roots m p) : m'.isEmpty (f p) = m.isEmpty p := by
    simp only [Memory.isEmpty, relocation.size p reach]
  have words : (distinctSlots roots).map m'.slot = ((distinctSlots roots).map m.slot).map (relocated f) := by
    rw [List.map_map]
    exact List.map_congr_left fun s member => relocation.root s (mem_distinctSlots.1 member)
  have start (word : Nat) (member : word ∈ (distinctSlots roots).map m.slot) (value : word ≠ 0) :
      Reach types roots m word := by
    obtain ⟨s, root, rfl⟩ := List.mem_map.1 member
    exact .root (mem_distinctSlots.1 root) value
  have closed (p : Nat) (reach : Reach types roots m p) (word : Nat) (member : word ∈ types.references m p)
      (value : word ≠ 0) : Reach types roots m word := by
    obtain ⟨d, count, -, listed⟩ := consistent.tracedSlots_eq reach
    rw [consistent.references_eq reach listed] at member
    obtain ⟨a, within, rfl⟩ := List.mem_map.1 member
    exact .step reach listed within value
  have references (p : Nat) (reach : Reach types roots m p) :
      types.references m' (f p) = (types.references m p).map (relocated f) := by
    obtain ⟨slots, listed⟩ := consistent.listed p reach
    have there : Reach types roots m' (f p) := (relocation.reach_iff consistent value).2 ⟨p, reach, rfl⟩
    rw [consistent'.references_eq there (relocation.slots p reach slots listed), consistent.references_eq reach listed,
      List.map_map, List.map_map]
    exact List.map_congr_left fun a within => relocation.word p reach _ listed a within
  have none (p : Nat) (member : p ∈ []) : Reach types roots m p := absurd member List.not_mem_nil
  have first := renames.followAll sizes none start
  rw [List.map_nil] at first
  rw [copyOrder, copyOrder, words, first]
  cases followed : CopyOrder.followAll m.isEmpty [] ((distinctSlots roots).map m.slot) with
  | none => rfl
  | some l =>
    simp only [Option.map_some, Option.bind_some]
    refine renames.scan sizes closed references rounds 0 fun p member => ?_
    rcases CopyOrder.mem_of_followAll followed member with old | ⟨within, value⟩
    · exact absurd old List.not_mem_nil
    · exact start p within value

end Relocation

end TracingHeap
