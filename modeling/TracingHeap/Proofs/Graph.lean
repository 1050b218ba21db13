import Std.Data.TreeSet
import TracingHeap.Proofs.Layout.Outline
import TracingHeap.RootStack

/-! The graph of objects, and the memories in which every reference can be followed. -/

set_option autoImplicit false

namespace TracingHeap

/-- What the roots lead to through traced slots. -/
inductive Reach (types : TypeTable) (roots : List Slot) (m : Memory) : Nat → Prop where
  | root {s : Slot} : s ∈ roots → m.slot s ≠ 0 → Reach types roots m (m.slot s)
  | step {p a : Nat} {slots : List Nat} : Reach types roots m p → types.tracedSlots m p = .ok slots → a ∈ slots →
      m.word a ≠ 0 → Reach types roots m (m.word a)

-- Unlike what can be reached this makes sense of words that lead nowhere: they are met, and not followed.
/-- The words that are met on the way from the roots through held objects. -/
inductive Met (types : TypeTable) (roots : List Slot) (held : Nat → Prop) (m : Memory) : Nat → Prop where
  | root {s : Slot} : s ∈ roots → m.slot s ≠ 0 → Met types roots held m (m.slot s)
  | step {p a : Nat} {slots : List Nat} : Met types roots held m p → held p → types.tracedSlots m p = .ok slots →
      a ∈ slots → m.word a ≠ 0 → Met types roots held m (m.word a)

theorem Met.reach {types : TypeTable} {roots : List Slot} {held : Nat → Prop} {m : Memory} {p : Nat}
    (met : Met types roots held m p) : Reach types roots m p := by
  induction met with
  | root member value => exact .root member value
  | step _ _ listed member value ih => exact .step ih listed member value

theorem Met.mono {types : TypeTable} {roots : List Slot} {held held' : Nat → Prop} {m : Memory} {p : Nat}
    (met : Met types roots held m p) (sub : ∀ p, held p → held' p) : Met types roots held' m p := by
  induction met with
  | root member value => exact .root member value
  | step _ holds listed member value ih => exact .step ih (sub _ holds) listed member value

/-- If all words that are met lead to held objects, they are what can be reached. -/
theorem Reach.met {types : TypeTable} {roots : List Slot} {held : Nat → Prop} {m : Memory} {p : Nat}
    (reach : Reach types roots m p) (known : ∀ p, Met types roots held m p → held p) : Met types roots held m p := by
  induction reach with
  | root member value => exact .root member value
  | step _ listed member value ih => exact .step ih (known _ ih) listed member value

/-- Only which slots are roots matters, and not how often or in which order they are listed. -/
theorem Reach.congr_roots {types : TypeTable} {roots roots' : List Slot} {m : Memory} {p : Nat}
    (reach : Reach types roots m p) (same : ∀ s, s ∈ roots ↔ s ∈ roots') : Reach types roots' m p := by
  induction reach with
  | root member value => exact .root ((same _).1 member) value
  | step _ listed member value ih => exact .step ih listed member value

/-- Only what the table says about the types matters for the slots of an object. -/
theorem TypeTable.tracedSlots_congr {types types' : TypeTable} (same : ∀ id, types'.get? id = types.get? id) (m : Memory)
    (p : Nat) : types'.tracedSlots m p = types.tracedSlots m p := by
  simp only [tracedSlots, shape, TypeTable.get, same]

theorem Reach.congr_types {types types' : TypeTable} {roots : List Slot} {m : Memory} {p : Nat}
    (reach : Reach types roots m p) (same : ∀ id, types'.get? id = types.get? id) : Reach types' roots m p := by
  induction reach with
  | root member value => exact .root member value
  | step _ listed member value ih => exact .step ih ((TypeTable.tracedSlots_congr same ..).trans listed) member value

theorem Met.congr_roots {types : TypeTable} {roots roots' : List Slot} {held : Nat → Prop} {m : Memory} {p : Nat}
    (met : Met types roots held m p) (same : ∀ s, s ∈ roots ↔ s ∈ roots') : Met types roots' held m p := by
  induction met with
  | root member value => exact .root ((same _).1 member) value
  | step _ holds listed member value ih => exact .step ih holds listed member value

/-- The size of an object, as its header has it. -/
def Memory.payloadSize (m : Memory) (p : Nat) : Nat := (m.header (blockOf p)).size

/-- The header of the object is intact, and in the state that all objects are in between collections. -/
abbrev Memory.Unmarked (m : Memory) (p : Nat) : Prop := (m.header (blockOf p)).check = .ok .unmarked

-- `held` is a parameter because the collectors keep different books.
/-- The headers of the held objects are in order, and the objects are apart. Their words may be anything. -/
structure Intact (types : TypeTable) (held : Nat → Prop) (m : Memory) : Prop where
  regular : m.Regular
  framed : ∀ p, held p → ∃ d, Framed types m p d
  unmarked : ∀ p, held p → (m.header (blockOf p)).check = .ok .unmarked
  apart : ∀ p q, held p → held q → p < q → p + m.payloadSize p ≤ blockOf q

-- The traced words are asked to be references in every held object, also in those that nothing leads to, as the
-- check of a heap asks it.
/-- The slots of the held objects can be listed, and every reference in them and in the roots is null or leads to
one of them. -/
structure Consistent (types : TypeTable) (roots : List Slot) (held : Nat → Prop) (m : Memory) : Prop
    extends Intact types held m where
  listed : ∀ p, held p → ∃ slots, types.tracedSlots m p = .ok slots
  words : ∀ p, held p → ∀ slots, types.tracedSlots m p = .ok slots → ∀ a ∈ slots, m.word a = 0 ∨ held (m.word a)
  cells : ∀ s ∈ roots, ∃ i, s = .cell i ∧ i < m.cells.size
  roots : ∀ s ∈ roots, m.slot s = 0 ∨ held (m.slot s)

/-- Roots outside the arenas can be read. -/
theorem Memory.readSlot_of_cell {roots : List Slot} {m : Memory} (cells : ∀ s ∈ roots, ∃ i, s = .cell i ∧ i < m.cells.size)
    {s : Slot} (root : s ∈ roots) : m.readSlot s = .ok (m.slot s) := by
  obtain ⟨i, rfl, below⟩ := cells s root
  rw [readSlot, if_pos (by simpa [holdsSlot] using below)]

theorem Memory.readRoots_of_cells {roots : List Slot} {m : Memory}
    (cells : ∀ s ∈ roots, ∃ i, s = .cell i ∧ i < m.cells.size) : roots.mapM m.readSlot = .ok (roots.map m.slot) :=
  mapM_eq_ok fun _ root => readSlot_of_cell cells root

/-- Roots that have been read held what was read. -/
theorem Memory.roots_of_readRoots {roots : List Slot} {m : Memory} {words : List Nat}
    (read : roots.mapM m.readSlot = .ok words) : words = roots.map m.slot := by
  induction roots generalizing words with
  | nil => cases read; rfl
  | cons s rest ih =>
    rw [List.mapM_cons] at read
    obtain ⟨word, first, later⟩ := bind_eq_ok.1 read
    obtain ⟨others, behind, same⟩ := bind_eq_ok.1 later
    cases same
    unfold readSlot at first
    split at first <;> cases first
    rw [ih behind]
    rfl

namespace Intact

variable {types : TypeTable} {held : Nat → Prop} {m : Memory} {p q : Nat} (intact : Intact types held m)

include intact

theorem low (holds : held p) : headerSize ≤ p := by
  obtain ⟨d, framed⟩ := intact.framed p holds
  exact framed.low

theorem inside (holds : held p) : m.holds (blockOf p) (headerSize + m.payloadSize p) = true := by
  obtain ⟨d, framed⟩ := intact.framed p holds
  exact framed.inside

theorem holds_header (holds : held p) : m.holds (blockOf p) headerSize = true := by
  obtain ⟨d, framed⟩ := intact.framed p holds
  exact framed.holds_header intact.regular

/-- A place in one object is outside every other object. -/
theorem separate (first : held p) (second : held q) (different : p ≠ q) {i : Nat}
    (inside : i < headerSize + m.payloadSize p) :
    blockOf p + i < blockOf q ∨ blockOf q + (headerSize + m.payloadSize q) ≤ blockOf p + i := by
  have lowFirst := intact.low first
  have lowSecond := intact.low second
  unfold blockOf at *
  rcases Nat.lt_or_gt_of_ne different with less | greater
  · have gap := intact.apart p q first second less
    unfold blockOf at gap
    omega
  · have gap := intact.apart q p second first greater
    unfold blockOf at gap
    omega

theorem readObject_eq (holds : held p) : m.readObject p = .ok (m.header (blockOf p), .unmarked) := by
  obtain ⟨d, framed⟩ := intact.framed p holds
  exact framed.readObject_eq intact.regular (intact.unmarked p holds)

/-- The references in a held object are listed with the slots that they are in, or neither are. -/
theorem listing (holds : held p) :
    (∃ slots, types.tracedSlots m p = .ok slots ∧ types.tracedWords m p = .ok (slots.map m.word)) ∨
      ∃ count capacity, types.tracedSlots m p = .error (.corrupted p (.regionOverflow count capacity)) ∧
        types.tracedWords m p = .error (.corrupted p (.regionOverflow count capacity)) := by
  obtain ⟨d, framed⟩ := intact.framed p holds
  have unmarked := intact.unmarked p holds
  rw [framed.tracedSlots_eq intact.regular unmarked (by decide), framed.tracedWords_eq intact.regular unmarked (by decide)]
  cases types.excess m p with
  | some pair => exact .inr ⟨pair.1, pair.2, rfl, rfl⟩
  | none => exact .inl ⟨_, rfl, rfl⟩

/-- Listed are the slots that a collector follows. -/
theorem eq_visited (holds : held p) {slots : List Nat} (listed : types.tracedSlots m p = .ok slots) :
    slots = types.visited m p ∧ types.tracedWords m p = .ok (slots.map m.word) := by
  obtain ⟨d, framed⟩ := intact.framed p holds
  have unmarked := intact.unmarked p holds
  rw [framed.tracedSlots_eq intact.regular unmarked (by decide)] at listed
  rw [framed.tracedWords_eq intact.regular unmarked (by decide)]
  cases excess : types.excess m p with
  | some pair => rw [excess] at listed; cases listed
  | none => rw [excess] at listed; cases listed; exact ⟨rfl, rfl⟩

/-- They are listed if the count is within its capacity. -/
theorem excess_eq_none (holds : held p) {slots : List Nat} (listed : types.tracedSlots m p = .ok slots) :
    types.excess m p = none := by
  obtain ⟨d, framed⟩ := intact.framed p holds
  rw [framed.tracedSlots_eq intact.regular (intact.unmarked p holds) (by decide)] at listed
  cases excess : types.excess m p with
  | some pair => rw [excess] at listed; cases listed
  | none => rfl

theorem excess_eq_some (holds : held p) {count capacity : Nat}
    (unlisted : types.tracedWords m p = .error (.corrupted p (.regionOverflow count capacity))) :
    types.excess m p = some (count, capacity) := by
  obtain ⟨d, framed⟩ := intact.framed p holds
  rw [framed.tracedWords_eq intact.regular (intact.unmarked p holds) (by decide)] at unlisted
  cases excess : types.excess m p with
  | none => rw [excess] at unlisted; cases unlisted
  | some pair => rw [excess] at unlisted; cases unlisted; rfl

omit intact in
theorem mono {held' : Nat → Prop} (intact : Intact types held m) (sub : ∀ p, held' p → held p) : Intact types held' m :=
  ⟨intact.regular, fun p holds => intact.framed p (sub p holds), fun p holds => intact.unmarked p (sub p holds),
    fun p q first second => intact.apart p q (sub p first) (sub q second)⟩

-- A collector looks at nothing else, and after the collection nothing else is held.
/-- If what can be reached is held and its slots can be listed, the memory is consistent as far as it can be
reached. -/
theorem reachable {roots : List Slot} (known : ∀ p, Reach types roots m p → held p)
    (listed : ∀ p, Reach types roots m p → ∃ slots, types.tracedSlots m p = .ok slots)
    (cells : ∀ s ∈ roots, ∃ i, s = .cell i ∧ i < m.cells.size) : Consistent types roots (Reach types roots m) m where
  toIntact := intact.mono known
  listed := listed
  words := fun _ reach _ found _ member => Decidable.or_iff_not_imp_left.2 fun value => .step reach found member value
  cells := cells
  roots := fun _ root => Decidable.or_iff_not_imp_left.2 fun value => .root root value

end Intact

-- This is all that a collector may look at. What a word leads to that is not held may differ, and so may the words in
-- the objects that are not traced.
/-- The memories have the same in the roots, in the headers of the held objects and in their traced words. -/
structure Alike (types : TypeTable) (roots : List Slot) (held : Nat → Prop) (m m' : Memory) : Prop where
  shape : m.SameShape m'
  roots : ∀ s ∈ roots, m'.slot s = m.slot s
  header : ∀ p, held p → m'.header (blockOf p) = m.header (blockOf p)
  words : ∀ p, held p → types.tracedWords m' p = types.tracedWords m p

namespace Alike

variable {types : TypeTable} {roots : List Slot} {held : Nat → Prop} {m m' : Memory} {p : Nat}

theorem payloadSize_eq (alike : Alike types roots held m m') (holds : held p) : m'.payloadSize p = m.payloadSize p :=
  congrArg Header.size (alike.header p holds)

theorem framed (alike : Alike types roots held m m') (holds : held p) {d : Descriptor} (f : Framed types m p d) :
    Framed types m' p d := by
  have header := alike.header p holds
  exact f.congr f.low (alike.shape.holds _ _ ▸ f.inside) (congrArg Header.typeId header) (congrArg Header.size header)

theorem transfer (alike : Alike types roots held m m') (intact : Intact types held m) : Intact types held m' := by
  refine ⟨intact.regular.of_sameShape alike.shape, ?framed, ?unmarked, ?apart⟩
  case framed =>
    intro p holds
    obtain ⟨d, f⟩ := intact.framed p holds
    exact ⟨d, alike.framed holds f⟩
  case unmarked =>
    intro p holds
    rw [alike.header p holds]
    exact intact.unmarked p holds
  case apart =>
    intro p q first second less
    rw [alike.payloadSize_eq first]
    exact intact.apart p q first second less

/-- The collectors find the same counts and follow the same words. -/
theorem visited_eq (alike : Alike types roots held m m') (intact : Intact types held m) (holds : held p) :
    types.excess m' p = types.excess m p ∧
      (types.excess m p = none → (types.visited m' p).map m'.word = (types.visited m p).map m.word) := by
  obtain ⟨d, f⟩ := intact.framed p holds
  have intact' := alike.transfer intact
  have words := alike.words p holds
  rw [f.tracedWords_eq intact.regular (intact.unmarked p holds) (by decide),
    (alike.framed holds f).tracedWords_eq intact'.regular (intact'.unmarked p holds) (by decide)] at words
  revert words
  rcases types.excess m p with _ | ⟨count, capacity⟩ <;> rcases types.excess m' p with _ | ⟨count', capacity'⟩ <;>
    intro words
  · exact ⟨rfl, fun _ => Except.ok.inj words⟩
  · cases words
  · cases words
  · cases words
    exact ⟨rfl, fun fits => nomatch fits⟩

end Alike

namespace Consistent

variable {types : TypeTable} {roots : List Slot} {held : Nat → Prop} {m : Memory} {p : Nat}

theorem held_of_reach (consistent : Consistent types roots held m) (reach : Reach types roots m p) : held p := by
  induction reach with
  | root member value => exact (consistent.roots _ member).resolve_left value
  | step _ listed member value ih => exact (consistent.words _ ih _ listed _ member).resolve_left value

theorem outline (consistent : Consistent types roots held m) (p : Nat) (holds : held p) :
    ∃ d count, Outline types m p d count := by
  obtain ⟨d, framed⟩ := consistent.framed p holds
  obtain ⟨slots, listed⟩ := consistent.listed p holds
  exact ⟨d, outline_of_tracedSlots framed.low framed.inside framed.type framed.sound framed.fixed listed⟩

theorem tracedSlots_eq (consistent : Consistent types roots held m) (holds : held p) :
    ∃ d count, Outline types m p d count ∧ types.tracedSlots m p = .ok ((d.places count).map (blockOf p + ·)) := by
  obtain ⟨d, count, outline⟩ := consistent.outline p holds
  exact ⟨d, count, outline,
    outline.tracedSlots_eq consistent.regular (consistent.unmarked p holds) (by decide)⟩

theorem tracedWords_eq (consistent : Consistent types roots held m) (holds : held p) :
    ∃ slots, types.tracedSlots m p = .ok slots ∧ types.tracedWords m p = .ok (slots.map m.word) := by
  refine (consistent.toIntact.listing holds).resolve_right ?_
  rintro ⟨count, capacity, failed, -⟩
  obtain ⟨slots, listed⟩ := consistent.listed p holds
  cases listed.symm.trans failed

end Consistent

/-- Objects at different addresses have blocks at different addresses. -/
theorem nodup_blocks {l : List Nat} (nodup : l.Nodup) (low : ∀ p ∈ l, headerSize ≤ p) : (l.map blockOf).Nodup := by
  refine List.pairwise_map.2 (nodup.imp_of_mem fun {p q} first second different same => different ?_)
  have lowFirst := low p first
  have lowSecond := low q second
  unfold blockOf at same
  omega

/-! ### Traversals -/

theorem contains_insert_iff {seen : Std.TreeSet Nat} {p q : Nat} :
    (seen.insert p).contains q = true ↔ q = p ∨ seen.contains q = true := by
  rw [Std.TreeSet.contains_insert, Bool.or_eq_true, beq_iff_eq, Std.LawfulEqCmp.compare_eq_iff_eq]
  exact or_congr_left eq_comm

theorem mem_dropWhile {settled : Nat → Bool} {work : List Nat} {p : Nat} (member : p ∈ work) :
    settled p = true ∨ p ∈ work.dropWhile settled := by
  rw [← List.takeWhile_append_dropWhile (p := settled) (l := work), List.mem_append] at member
  exact member.imp_left fun early => List.all_eq_true.1 List.all_takeWhile p early

theorem head_dropWhile {settled : Nat → Bool} {work rest : List Nat} {p : Nat}
    (left : work.dropWhile settled = p :: rest) : p ∈ work ∧ settled p = false := by
  constructor
  · exact (List.dropWhile_sublist settled).subset (left ▸ List.mem_cons_self)
  · have head := List.head?_dropWhile_not settled work
    rw [left] at head
    simpa using head

variable {types : TypeTable} {roots : List Slot} {m : Memory} {marks work : List Nat} {p : Nat}

-- The invariant of both traversals, of the marker and of the census. The order of the work plays no part in it.
/-- The state of the traversal: what is marked can be reached, and what a marked object refers to is marked or
waits for it. -/
structure Frontier (types : TypeTable) (roots : List Slot) (m : Memory) (marks work : List Nat) : Prop where
  nodup : marks.Nodup
  reached : ∀ p ∈ marks, Reach types roots m p
  listed : ∀ p ∈ marks, ∃ slots, types.tracedSlots m p = .ok slots
  waiting : ∀ p ∈ work, Reach types roots m p
  next : ∀ p ∈ marks, ∀ slots, types.tracedSlots m p = .ok slots → ∀ a ∈ slots, m.word a ≠ 0 →
    m.word a ∈ marks ∨ m.word a ∈ work

/-- A traversal starts with nothing marked and with roots as its work. -/
theorem Frontier.start (reached : ∀ p ∈ work, ∃ s ∈ roots, m.slot s = p ∧ p ≠ 0) :
    Frontier types roots m [] work := by
  constructor
  case nodup => exact .nil
  case reached => exact fun p member => absurd member List.not_mem_nil
  case listed => exact fun p member => absurd member List.not_mem_nil
  case waiting =>
    intro p member
    obtain ⟨s, root, rfl, value⟩ := reached p member
    exact .root root value
  case next => exact fun p member => absurd member List.not_mem_nil

/-- What is marked already may be taken off the work. -/
theorem Frontier.drop {left : List Nat} (frontier : Frontier types roots m marks work) (sub : left ⊆ work)
    (rest : ∀ p ∈ work, p ∈ marks ∨ p ∈ left) : Frontier types roots m marks left := by
  refine ⟨frontier.nodup, frontier.reached, frontier.listed, fun p member => frontier.waiting p (sub member), ?_⟩
  intro p member slots listed a within value
  rcases frontier.next p member slots listed a within value with old | waiting
  · exact .inl old
  · exact rest _ waiting

/-- One more object is marked, and what it refers to is put on the work. -/
theorem Frontier.visit {rest : List Nat} {slots : List Nat} (frontier : Frontier types roots m marks (p :: rest))
    (fresh : p ∉ marks) (listed : types.tracedSlots m p = .ok slots) :
    Frontier types roots m (p :: marks) (((slots.map m.word).filter (· ≠ 0)).reverse ++ rest) := by
  have reach := frontier.waiting p List.mem_cons_self
  constructor
  case nodup => exact List.nodup_cons.2 ⟨fresh, frontier.nodup⟩
  case reached =>
    intro q member
    rcases List.mem_cons.1 member with rfl | old
    · exact reach
    · exact frontier.reached q old
  case listed =>
    intro q member
    rcases List.mem_cons.1 member with rfl | old
    · exact ⟨slots, listed⟩
    · exact frontier.listed q old
  case waiting =>
    intro q member
    rcases List.mem_append.1 member with found | old
    · obtain ⟨word, value⟩ := List.mem_filter.1 (List.mem_reverse.1 found)
      obtain ⟨a, within, rfl⟩ := List.mem_map.1 word
      exact .step reach listed within (by simpa using value)
    · exact frontier.waiting q (List.mem_cons_of_mem p old)
  case next =>
    intro q member others listed' a within value
    rcases List.mem_cons.1 member with rfl | old
    · obtain rfl : others = slots := Except.ok.inj (listed'.symm.trans listed)
      refine .inr (List.mem_append_left _ (List.mem_reverse.2 (List.mem_filter.2 ⟨?_, by simpa using value⟩)))
      exact List.mem_map_of_mem within
    · rcases frontier.next q old others listed' a within value with done | waiting
      · exact .inl (List.mem_cons_of_mem p done)
      · rcases List.mem_cons.1 waiting with same | later
        · exact .inl (same ▸ List.mem_cons_self)
        · exact .inr (List.mem_append_right _ later)

/-- The roots are where the traversal starts, so its marks are what they reach. -/
theorem Frontier.mem_iff_reach (frontier : Frontier types roots m marks [])
    (started : ∀ s ∈ roots, m.slot s ≠ 0 → m.slot s ∈ marks) (p : Nat) : p ∈ marks ↔ Reach types roots m p := by
  refine ⟨frontier.reached p, fun reach => ?_⟩
  -- By induction on the way from the roots: with no work left, what a marked object refers to is marked.
  induction reach with
  | root member value => exact started _ member value
  | step _ listed member value ih =>
    exact (frontier.next _ ih _ listed _ member value).resolve_right (List.not_mem_nil)

end TracingHeap
