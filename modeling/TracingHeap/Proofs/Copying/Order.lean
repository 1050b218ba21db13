import Mathlib.Algebra.GroupWithZero.Nat
import TracingHeap.Proofs.Graph

/-! The order in which objects are copied, and where the copies go.

A collection copies an object when it meets the first reference to it, and puts the copy behind the copies
made before. So a list of objects says both what has been copied and where. -/

set_option autoImplicit false

namespace TracingHeap

namespace CopyOrder

/-- What has been copied after one more reference is followed. There is no answer if the reference leads to the
object copied last and that object is empty: its copy ends where the used part of the reserve ends, and is not
taken for a copy. -/
def follow (empty : Nat → Bool) (copied : List Nat) (word : Nat) : Option (List Nat) :=
  if word = 0 then some copied
  else if word ∈ copied then
    if copied.getLast? = some word ∧ empty word then none else some copied
  else some (copied ++ [word])

-- The memory does not occur here: a collection writes new words into its copies, yet what it copies next depends
-- only on the references that the objects held before.
def followAll (empty : Nat → Bool) (copied : List Nat) : List Nat → Option (List Nat)
  | [] => some copied
  | word :: rest => (follow empty copied word).bind fun copied => followAll empty copied rest

/-- Look through the copies, from one on. -/
def scan (empty : Nat → Bool) (references : Nat → List Nat) :
    (rounds next : Nat) → (copied : List Nat) → Option (List Nat)
  | 0, _, copied => some copied
  | rounds + 1, next, copied =>
    match copied[next]? with
    | none => some copied
    | some p => (followAll empty copied (references p)).bind fun copied => scan empty references rounds (next + 1) copied

variable {empty : Nat → Bool} {references : Nat → List Nat} {copied copied' words : List Nat}

theorem follow_extends {word : Nat} (followed : follow empty copied word = some copied') : copied <+: copied' := by
  unfold follow at followed
  split at followed
  · cases followed; exact List.prefix_refl _
  · split at followed
    · split at followed
      · cases followed
      · cases followed; exact List.prefix_refl _
    · cases followed; exact List.prefix_append _ _

theorem followAll_extends (followed : followAll empty copied words = some copied') : copied <+: copied' := by
  induction words generalizing copied with
  | nil => cases followed; exact List.prefix_refl _
  | cons word rest ih =>
    obtain ⟨next, step, later⟩ := Option.bind_eq_some_iff.1 followed
    exact (follow_extends step).trans (ih later)

/-- Without empty objects every reference can be followed. -/
theorem follow_isSome {word : Nat} (full : word ≠ 0 → empty word = false) : (follow empty copied word).isSome := by
  unfold follow
  split
  · rfl
  · next value =>
    simp only [full value, Bool.false_eq_true, and_false, if_false]
    split <;> rfl

theorem followAll_isSome (full : ∀ word ∈ words, word ≠ 0 → empty word = false) :
    (followAll empty copied words).isSome := by
  induction words generalizing copied with
  | nil => rfl
  | cons word rest ih =>
    obtain ⟨next, step⟩ := Option.isSome_iff_exists.1 (follow_isSome (full word List.mem_cons_self))
    rw [followAll, step]
    exact ih fun other member => full other (List.mem_cons_of_mem word member)

theorem mem_of_follow {word p : Nat} (followed : follow empty copied word = some copied') (member : p ∈ copied') :
    p ∈ copied ∨ p = word ∧ word ≠ 0 := by
  unfold follow at followed
  split at followed
  · cases followed; exact .inl member
  · next value =>
    split at followed
    · split at followed
      · cases followed
      · cases followed; exact .inl member
    · cases followed
      exact (List.mem_append.1 member).imp_right fun new => ⟨List.mem_singleton.1 new, value⟩

theorem mem_of_followAll {p : Nat} (followed : followAll empty copied words = some copied') (member : p ∈ copied') :
    p ∈ copied ∨ p ∈ words ∧ p ≠ 0 := by
  induction words generalizing copied with
  | nil => cases followed; exact .inl member
  | cons word rest ih =>
    obtain ⟨next, step, later⟩ := Option.bind_eq_some_iff.1 followed
    rcases ih later with early | ⟨within, value⟩
    · refine (mem_of_follow step early).imp_right ?_
      rintro ⟨rfl, value⟩
      exact ⟨List.mem_cons_self, value⟩
    · exact .inr ⟨List.mem_cons_of_mem word within, value⟩

/-- Among objects that are closed under references and not empty, the copying comes to its end. -/
theorem scan_isSome (good : Nat → Prop) (closed : ∀ p, good p → ∀ word ∈ references p, word ≠ 0 → good word)
    (full : ∀ p, good p → empty p = false) (rounds next : Nat) (all : ∀ p ∈ copied, good p) :
    (scan empty references rounds next copied).isSome := by
  induction rounds generalizing next copied with
  | zero => rfl
  | succ rounds ih =>
    rw [scan]
    cases at' : copied[next]? with
    | none => rfl
    | some p =>
      have here := all p (List.mem_of_getElem? at')
      have words := closed p here
      have step : (followAll empty copied (references p)).isSome :=
        followAll_isSome fun word member value => full word (words word member value)
      obtain ⟨more, followed⟩ := Option.isSome_iff_exists.1 step
      simp only [followed, Option.bind_some]
      apply ih (next + 1)
      intro q member
      rcases mem_of_followAll followed member with old | ⟨within, value⟩
      · exact all q old
      · exact words q within value

end CopyOrder

/-! ### Placement -/

/-- Where the block of an object goes when objects of given sizes are put one behind the other. -/
def placed (size : Nat → Nat) : (start : Nat) → List Nat → Nat → Nat
  | start, [], _ => start
  | start, q :: rest, p => if q = p then start else placed size (start + size q) rest p

section Placement

variable {size : Nat → Nat} {start p q : Nat} {l more : List Nat}

theorem placed_append (member : p ∈ l) (more : List Nat) : placed size start (l ++ more) p = placed size start l p := by
  induction l generalizing start with
  | nil => cases member
  | cons x rest ih =>
    rw [List.cons_append, placed, placed]
    split
    · rfl
    · next other => exact ih ((List.mem_cons.1 member).resolve_left (Ne.symm other))

theorem placed_of_notMem (fresh : p ∉ l) (more : List Nat) :
    placed size start (l ++ more) p = placed size (start + (l.map size).sum) more p := by
  induction l generalizing start with
  | nil => rfl
  | cons x rest ih =>
    obtain ⟨other, later⟩ := not_or.1 (mt List.mem_cons.2 fresh)
    rw [List.cons_append, placed, if_neg (Ne.symm other), ih later, List.map_cons, List.sum_cons, Nat.add_assoc]

theorem placed_extends (grown : l <+: more) (member : p ∈ l) : placed size start more p = placed size start l p := by
  obtain ⟨rest, rfl⟩ := grown
  exact placed_append member rest

theorem placed_congr {size' : Nat → Nat} (same : ∀ x ∈ l, size' x = size x) :
    placed size' start l p = placed size start l p := by
  induction l generalizing start with
  | nil => rfl
  | cons x rest ih =>
    rw [placed, placed, same x List.mem_cons_self, ih fun y later => same y (List.mem_cons_of_mem x later)]

theorem dvd_placed {d : Nat} (first : d ∣ start) (sizes : ∀ q, d ∣ size q) : d ∣ placed size start l p := by
  induction l generalizing start with
  | nil => exact first
  | cons x rest ih =>
    rw [placed]
    split
    · exact first
    · exact ih (Nat.dvd_add first (sizes x))

theorem placed_bounds (member : p ∈ l) :
    start ≤ placed size start l p ∧ placed size start l p + size p ≤ start + (l.map size).sum := by
  induction l generalizing start with
  | nil => cases member
  | cons x rest ih =>
    rw [placed, List.map_cons, List.sum_cons]
    split
    · next same => subst same; omega
    · next other =>
      have bounds : start + size x ≤ placed size (start + size x) rest p ∧
          placed size (start + size x) rest p + size p ≤ start + size x + (rest.map size).sum :=
        ih ((List.mem_cons.1 member).resolve_left (Ne.symm other))
      omega

-- The copies are compared by their objects: of two, the one that comes first in the list ends before the other.
theorem placed_apart (first : p ∈ l) (second : q ∈ l) (different : p ≠ q) :
    placed size start l p + size p ≤ placed size start l q ∨ placed size start l q + size q ≤ placed size start l p := by
  induction l generalizing start with
  | nil => cases first
  | cons x rest ih =>
    rw [placed, placed]
    by_cases headFirst : x = p
    · subst headFirst
      have later := (List.mem_cons.1 second).resolve_left (Ne.symm different)
      rw [if_pos rfl, if_neg different]
      exact .inl (placed_bounds later).1
    · by_cases headSecond : x = q
      · subst headSecond
        have later := (List.mem_cons.1 first).resolve_left different
        rw [if_neg headFirst, if_pos rfl]
        exact .inr (placed_bounds later).1
      · rw [if_neg headFirst, if_neg headSecond]
        exact ih ((List.mem_cons.1 first).resolve_left (Ne.symm headFirst))
          ((List.mem_cons.1 second).resolve_left (Ne.symm headSecond))

/-- The object placed last ends where the used part ends, and no other one with some size does. -/
theorem placed_end (positive : ∀ x ∈ l, 0 < size x) (nodup : l.Nodup) (member : p ∈ l) :
    placed size start l p + size p = start + (l.map size).sum ↔ l.getLast? = some p := by
  induction l generalizing start with
  | nil => cases member
  | cons x rest ih =>
    obtain ⟨fresh, nodup⟩ := List.nodup_cons.1 nodup
    rw [placed, List.map_cons, List.sum_cons]
    cases rest with
    | nil =>
      obtain rfl := List.mem_singleton.1 member
      simp
    | cons y rest =>
      rw [List.getLast?_cons_cons]
      by_cases head : x = p
      · subst head
        rw [if_pos rfl, List.map_cons, List.sum_cons]
        have more := positive y (List.mem_cons_of_mem x List.mem_cons_self)
        refine ⟨fun same => ?_, fun last => ?_⟩
        · omega
        · exact absurd (List.mem_of_getLast? last) fresh
      · rw [if_neg head, ← Nat.add_assoc]
        exact ih (fun z later => positive z (List.mem_cons_of_mem x later)) nodup
          ((List.mem_cons.1 member).resolve_left (Ne.symm head))

end Placement

/-! ### The order of copying -/

/-- The object has no payload. -/
def Memory.isEmpty (m : Memory) (p : Nat) : Bool := m.payloadSize p = 0

/-- The references in an object, as far as they can be listed. -/
def TypeTable.references (types : TypeTable) (m : Memory) (p : Nat) : List Nat :=
  match types.tracedWords m p with
  | .ok words => words
  | .error _ => []

/-- The objects that can be reached, in the order of copying. There is no answer if an empty object is met again
while it is the one copied last. -/
def copyOrder (types : TypeTable) (roots : List Slot) (m : Memory) (rounds : Nat) : Option (List Nat) :=
  (CopyOrder.followAll m.isEmpty [] ((distinctSlots roots).map m.slot)).bind
    (CopyOrder.scan m.isEmpty (types.references m) rounds 0)

/-- Where no slot stands twice, all are kept. -/
theorem distinctSlots_of_nodup {slots : List Slot} (nodup : slots.Nodup) : distinctSlots slots = slots := by
  suffices fresh : ∀ seen : Std.HashSet Slot, (∀ s ∈ slots, seen.contains s = false) →
      distinctFrom seen slots = slots from fresh ∅ fun s _ => Std.HashSet.contains_empty
  induction slots with
  | nil => exact fun _ _ => rfl
  | cons head rest ih =>
    obtain ⟨notMem, nodup⟩ := List.nodup_cons.1 nodup
    intro seen unseen
    rw [distinctFrom, unseen head List.mem_cons_self, if_neg Bool.false_ne_true, ih nodup]
    intro s later
    rw [Std.HashSet.contains_insert, unseen s (List.mem_cons_of_mem head later), Bool.or_false, beq_eq_false_iff_ne]
    rintro rfl
    exact notMem later

theorem Consistent.references_eq {types : TypeTable} {roots : List Slot} {held : Nat → Prop} {m : Memory} {p : Nat}
    (consistent : Consistent types roots held m) (holds : held p) {slots : List Nat}
    (listed : types.tracedSlots m p = .ok slots) : types.references m p = slots.map m.word := by
  obtain ⟨slots', listed', words⟩ := consistent.tracedWords_eq holds
  have same : slots = slots' := Except.ok.inj (listed.symm.trans listed')
  subst same
  unfold TypeTable.references
  rw [words]

/-- Without empty objects all that can be reached is copied. -/
theorem Consistent.copyOrder_isSome {types : TypeTable} {roots : List Slot} {held : Nat → Prop} {m : Memory}
    (consistent : Consistent types roots held m) (full : ∀ p, held p → m.isEmpty p = false) (rounds : Nat) :
    (copyOrder types roots m rounds).isSome := by
  have started (word : Nat) (member : word ∈ (distinctSlots roots).map m.slot) (value : word ≠ 0) : held word := by
    obtain ⟨s, root, rfl⟩ := List.mem_map.1 member
    exact (consistent.roots s (mem_distinctSlots.1 root)).resolve_left value
  have first : (CopyOrder.followAll m.isEmpty [] ((distinctSlots roots).map m.slot)).isSome :=
    CopyOrder.followAll_isSome fun word member value => full word (started word member value)
  obtain ⟨copied, followed⟩ := Option.isSome_iff_exists.1 first
  rw [copyOrder, followed, Option.bind_some]
  refine CopyOrder.scan_isSome held ?_ full rounds 0 fun p member => ?_
  · intro p holds word member value
    obtain ⟨d, count, -, listed⟩ := consistent.tracedSlots_eq holds
    rw [consistent.references_eq holds listed] at member
    obtain ⟨a, within, rfl⟩ := List.mem_map.1 member
    exact (consistent.words p holds _ listed a within).resolve_left value
  · rcases CopyOrder.mem_of_followAll followed member with old | ⟨within, value⟩
    · exact absurd old List.not_mem_nil
    · exact started p within value

end TracingHeap
