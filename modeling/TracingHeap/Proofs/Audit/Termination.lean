import Mathlib.Data.List.TakeWhile
import TracingHeap.Proofs.Audit.Census
import TracingHeap.Proofs.Loops
import TracingHeap.Proofs.Space.Tiled

/-! Walking over a space and counting what can be reached come to an end.

A walk passes one block in each round, and no block is shorter than a header. A census looks at no object twice: the set of
what it has seen grows in each round that makes the work longer. Neither writes anything. -/

set_option autoImplicit false

namespace TracingHeap

namespace Memory

variable {m : Memory} {stop block p : Nat} {objects found : List Nat}

/-- One round of a walk: a block is passed. -/
def passBlock (stop : Nat) (m : Memory) : Nat × List Nat → Reading (Option (Nat × List Nat))
  | (block, found) =>
    if stop ≤ block then .ok none
    else do
      let header ← m.readHeader block
      return some (block + header.footprint, payloadOf block :: found)

def walkRound (stop : Nat) : Loop Memory (Nat × List Nat) := .reading (passBlock stop)

/-- A walk over a space ends at its top. -/
structure WalkEnds (m : Memory) (s : Space) (objects : List Nat) : Prop where
  round : ∀ {block₁ block₂ found₁ found₂ m₁ m₂},
    Loop.Leads (walkRound s.top) (s.start, []) m (block₁, found₁) m₁ →
    walkRound s.top (block₁, found₁) m₁ = .ok (some (block₂, found₂)) m₂ →
    block₁ + headerSize ≤ block₂ ∧ block₂ ≤ s.top ∧ m₂ = m₁
  ends : m.walk s = .ok objects ∧ Loop.Ends (walkRound s.top) (s.start, []) m (.ok (s.top, objects.reverse) m)

end Memory

namespace Tiled

variable {m : Memory} {stop block p : Nat} {objects found : List Nat}

theorem passBlock_cons {rest : List Nat} (tiled : Tiled m stop block (p :: rest))
    (readable : m.holds (blockOf p) wordSize = true) (large : headerSize ≤ m.blockSize p) (found : List Nat) :
    m.passBlock stop (block, found) = .ok (some (block + m.blockSize p, p :: found)) := by
  obtain ⟨rfl, later⟩ := cons_iff.1 tiled
  have whole := later.total
  have positive : 0 < headerSize := by decide
  rw [blockOf_payloadOf] at readable
  rw [Memory.passBlock, if_neg (by omega), Memory.readHeader, if_pos readable, Memory.blockSize, blockOf_payloadOf]
  rfl

theorem passBlock_nil (tiled : Tiled m stop block []) (found : List Nat) : m.passBlock stop (block, found) = .ok none :=
  if_pos (Nat.le_of_eq (Eq.symm tiled))

/-- A walk that goes on has passed the first of the blocks that are left. -/
theorem passBlock_some {next : Nat × List Nat} (tiled : Tiled m stop block objects)
    (readable : ∀ p ∈ objects, m.holds (blockOf p) wordSize = true) (large : ∀ p ∈ objects, headerSize ≤ m.blockSize p)
    (passed : m.passBlock stop (block, found) = .ok (some next)) :
    ∃ p rest, objects = p :: rest ∧ next = (block + m.blockSize p, p :: found) ∧
      Tiled m stop (block + m.blockSize p) rest := by
  cases objects with
  | nil => cases passed.symm.trans (tiled.passBlock_nil found)
  | cons p rest =>
    cases passed.symm.trans (tiled.passBlock_cons (readable p List.mem_cons_self) (large p List.mem_cons_self) found)
    obtain ⟨rfl, later⟩ := cons_iff.1 tiled
    exact ⟨_, rest, rfl, rfl, by rwa [Memory.blockSize, blockOf_payloadOf]⟩

theorem walk_ends (tiled : Tiled m stop block objects) (readable : ∀ p ∈ objects, m.holds (blockOf p) wordSize = true)
    (large : ∀ p ∈ objects, headerSize ≤ m.blockSize p) (found : List Nat) :
    Loop.Ends (Memory.walkRound stop) (block, found) m (.ok (stop, objects.reverse ++ found) m) := by
  induction objects generalizing block found with
  | nil =>
    have round := Loop.reading_ok (tiled.passBlock_nil found)
    obtain rfl : block = stop := tiled
    exact .done round
  | cons p rest ih =>
    have round := tiled.passBlock_cons (readable p List.mem_cons_self) (large p List.mem_cons_self) found
    have later := ih (cons_iff.1 tiled).2 (fun q member => readable q (List.mem_cons_of_mem p member))
      (fun q member => large q (List.mem_cons_of_mem p member)) (p :: found)
    rw [List.reverse_cons, List.append_assoc]
    exact .again (Loop.reading_ok round) later

theorem walkEnds {s : Space} (tiled : Tiled m s.top s.start objects)
    (readable : ∀ p ∈ objects, m.holds (blockOf p) wordSize = true)
    (large : ∀ p ∈ objects, headerSize ≤ m.blockSize p) : m.WalkEnds s objects where
  round {block₁ block₂ found₁ found₂ m₁ m₂} leads ran := by
    -- Before each round the blocks that are left tile the rest of the space.
    obtain ⟨rfl, rest, tiled, part⟩ := leads.keeps
      (P := fun i t => t = m ∧ ∃ rest, Tiled m s.top i.1 rest ∧ rest ⊆ objects) ⟨rfl, objects, tiled, fun _ member => member⟩
      (by
        rintro ⟨block, found⟩ next _ u ⟨rfl, rest, tiled, part⟩ ran
        obtain ⟨rfl, passed⟩ := Loop.of_reading ran
        obtain ⟨p, rest, rfl, rfl, later⟩ :=
          tiled.passBlock_some (fun p here => readable p (part here)) (fun p here => large p (part here)) passed
        exact ⟨rfl, rest, later, fun _ member => part (List.mem_cons_of_mem p member)⟩)
    obtain ⟨rfl, passed⟩ := Loop.of_reading ran
    obtain ⟨p, rest, rfl, next, later⟩ :=
      tiled.passBlock_some (fun p here => readable p (part here)) (fun p here => large p (part here)) passed
    cases next
    exact ⟨Nat.add_le_add_left (large p (part List.mem_cons_self)) _, Nat.le_trans (Nat.le_add_right ..) (Nat.le_of_eq later.total),
      rfl⟩
  ends := by
    have positive (p : Nat) (member : p ∈ objects) : 0 < m.blockSize p := Nat.lt_of_lt_of_le (by decide) (large p member)
    refine ⟨tiled.walkFrom_eq readable positive s.cursor (Nat.le_refl _) [], ?_⟩
    have ends := tiled.walk_ends readable large []
    rwa [List.append_nil] at ends

end Tiled

namespace Census

variable {types : TypeTable} {roots : List Slot} {held : Nat → Prop} {m m' : Memory} {work work' : List Nat}
  {seen seen' : Std.TreeSet Nat} {counted counted' total : Census}

/-- One round of a census: what has been found last is taken off the work. If it is an object that has not been seen, it
is counted, and its references are put on the work. -/
def visit (types : TypeTable) (m : Memory) :
    List Nat × Std.TreeSet Nat × Census → Reading (Option (List Nat × Std.TreeSet Nat × Census))
  | ([], _, _) => .ok none
  | (word :: rest, seen, counted) =>
    if isSettled seen word then .ok (some (rest, seen, counted))
    else do
      let (header, _) ← m.readObject word
      let words ← types.tracedWords m word
      return some (words.reverse ++ rest, seen.insert word, ⟨counted.objects + 1, counted.bytes + header.footprint⟩)

def round (types : TypeTable) : Loop Memory (List Nat × Std.TreeSet Nat × Census) := .reading (visit types)

theorem visit_of_settled {word : Nat} {rest : List Nat} (settled : isSettled seen word = true) :
    visit types m (word :: rest, seen, counted) = .ok (some (rest, seen, counted)) := if_pos settled

/-- Objects that have been seen are taken off the work, one by one. -/
theorem ends_of_dropWhile {r : EStateM.Result Failure Memory (List Nat × Std.TreeSet Nat × Census)}
    (ends : Loop.Ends (round types) (work.dropWhile (isSettled seen), seen, counted) m r) :
    Loop.Ends (round types) (work, seen, counted) m r := by
  induction work with
  | nil => exact ends
  | cons word rest ih =>
    by_cases settled : isSettled seen word = true
    · rw [List.dropWhile_cons_of_pos settled] at ends
      exact .again (Loop.reading_ok (visit_of_settled settled)) (ih ends)
    · rwa [List.dropWhile_cons_of_neg settled] at ends

-- By induction on the rounds that were counted.
/-- Where counting the rounds leads to a census, the loop ends with it. -/
theorem ends_of_countFrom {rounds : Nat} (ran : countFrom types m rounds work seen counted = .ok total) :
    ∃ seen', Loop.Ends (round types) (work, seen, counted) m (.ok ([], seen', total) m) := by
  induction rounds generalizing work seen counted with
  | zero =>
    rw [countFrom] at ran
    split at ran
    · next all =>
      cases ran
      refine ⟨seen, ends_of_dropWhile ?_⟩
      rw [List.dropWhile_eq_nil_iff.2 (List.all_eq_true.1 all)]
      exact .done (Loop.reading_ok rfl)
    · cases ran
  | succ rounds ih =>
    rw [countFrom] at ran
    cases left : work.dropWhile (isSettled seen) with
    | nil =>
      rw [left] at ran
      cases ran
      refine ⟨seen, ends_of_dropWhile ?_⟩
      rw [left]
      exact .done (Loop.reading_ok rfl)
    | cons p rest =>
      rw [left] at ran
      obtain ⟨⟨header, state⟩, read, rest'⟩ := bind_eq_ok.1 ran
      obtain ⟨words, listed, later⟩ := bind_eq_ok.1 rest'
      obtain ⟨seen', ends⟩ := ih later
      have fresh : ¬ isSettled seen p = true := by rw [(head_dropWhile left).2]; exact Bool.false_ne_true
      refine ⟨seen', ends_of_dropWhile ?_⟩
      rw [left]
      refine .again (Loop.reading_ok ?_) ends
      simp only [visit, fresh, if_false, Bool.false_eq_true, read, listed, bind, Except.bind]
      rfl

end Census

/-- A census comes to an end. -/
structure TypeTable.CensusEnds (types : TypeTable) (roots : List Slot) (held : Nat → Prop) (m : Memory) : Prop where
  /-- Each round makes the work shorter and no other difference, or it sees one more held object. -/
  round : ∀ {work₁ work₂ seen₁ seen₂ counted₁ counted₂ m₁ m₂},
    Loop.Leads (Census.round types) ((roots.map m.slot).reverse, ∅, {}) m (work₁, seen₁, counted₁) m₁ →
    Census.round types (work₁, seen₁, counted₁) m₁ = .ok (some (work₂, seen₂, counted₂)) m₂ → m₂ = m₁ ∧
    ((∃ word, work₁ = word :: work₂) ∧ seen₂ = seen₁ ∧ counted₂ = counted₁ ∨
      ∃ p rest, work₁ = p :: rest ∧ held p ∧ seen₁.contains p = false ∧ seen₂ = seen₁.insert p)
  ends : ∃ seen total, types.census roots m = .ok total ∧
    Loop.Ends (Census.round types) ((roots.map m.slot).reverse, ∅, {}) m (.ok ([], seen, total) m)

namespace Census

variable {types : TypeTable} {roots : List Slot} {held : Nat → Prop} {m m' : Memory} {work work' : List Nat}
  {seen seen' : Std.TreeSet Nat} {counted counted' : Census}

/-- On the work are null and held objects, and a round leaves no other words there. -/
theorem round_spec (consistent : Consistent types roots held m) (waiting : ∀ word ∈ work, word = 0 ∨ held word)
    (ran : round types (work, seen, counted) m = .ok (some (work', seen', counted')) m') :
    m' = m ∧ (∀ word ∈ work', word = 0 ∨ held word) ∧
      ((∃ word, work = word :: work') ∧ seen' = seen ∧ counted' = counted ∨
        ∃ p rest, work = p :: rest ∧ held p ∧ seen.contains p = false ∧ seen' = seen.insert p) := by
  obtain ⟨rfl, visited⟩ := Loop.of_reading ran
  cases work with
  | nil => cases visited
  | cons p rest =>
    have later (word : Nat) (member : word ∈ rest) := waiting word (List.mem_cons_of_mem p member)
    by_cases settled : isSettled seen p = true
    · cases visited.symm.trans (visit_of_settled settled)
      exact ⟨rfl, later, .inl ⟨⟨p, rfl⟩, rfl, rfl⟩⟩
    · obtain ⟨value, fresh⟩ : p ≠ 0 ∧ seen.contains p = false := by
        rw [isSettled, Bool.or_eq_true, not_or, decide_eq_true_eq, Bool.not_eq_true] at settled
        exact settled
      have known := (waiting p List.mem_cons_self).resolve_left value
      obtain ⟨slots, listed, words⟩ := consistent.tracedWords_eq known
      simp only [visit, settled, if_false, Bool.false_eq_true, consistent.readObject_eq known, words, bind, Except.bind] at visited
      cases visited
      refine ⟨rfl, fun word member => ?_, .inr ⟨p, rest, rfl, known, fresh, rfl⟩⟩
      rcases List.mem_append.1 member with found | old
      · obtain ⟨a, within, rfl⟩ := List.mem_map.1 (List.mem_reverse.1 found)
        exact consistent.words p known slots listed a within
      · exact later word old

end Census

theorem Consistent.censusEnds {types : TypeTable} {roots : List Slot} {held : Nat → Prop} {m : Memory}
    (consistent : Consistent types roots held m) : types.CensusEnds roots held m where
  round {work₁ work₂ seen₁ seen₂ counted₁ counted₂ m₁ m₂} leads ran := by
    obtain ⟨rfl, waiting⟩ := leads.keeps (P := fun i t => t = m ∧ ∀ word ∈ i.1, word = 0 ∨ held word)
      ⟨rfl, fun word member => by
        obtain ⟨s, root, rfl⟩ := List.mem_map.1 (List.mem_reverse.1 member)
        exact consistent.roots s root⟩
      (by
        rintro ⟨work, seen, counted⟩ ⟨work', seen', counted'⟩ _ u ⟨rfl, waiting⟩ ran
        obtain ⟨same, waiting', -⟩ := Census.round_spec consistent waiting ran
        exact ⟨same, waiting'⟩)
    obtain ⟨same, -, round⟩ := Census.round_spec consistent waiting ran
    exact ⟨same, round⟩
  ends := by
    obtain ⟨reached, -, -, counted⟩ := consistent.census_ok
    obtain ⟨words, read, ran⟩ := bind_eq_ok.1 counted
    obtain rfl := Memory.roots_of_readRoots read
    obtain ⟨seen, ends⟩ := Census.ends_of_countFrom ran
    exact ⟨seen, _, counted, ends⟩

end TracingHeap
