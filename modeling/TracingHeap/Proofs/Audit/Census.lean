import Mathlib.Algebra.GroupWithZero.Nat
import TracingHeap.Audit.Census
import TracingHeap.Proofs.Graph

/-! The census counts what can be reached, each object once.

It has as many rounds as there are bytes in the arenas. That is enough, since every object begins at a byte
of its own. -/

set_option autoImplicit false

namespace TracingHeap

namespace Memory

/-- The addresses in a list of arenas of which the first has number `k`. -/
def addressesFrom : (k : Nat) → List Arena → List Nat
  | _, [] => []
  | k, arena :: rest => (List.range arena.extent).map (base k + ·) ++ addressesFrom (k + 1) rest

theorem length_addressesFrom (k : Nat) (arenas : List Arena) (n : Nat) :
    arenas.foldl (fun n arena => n + arena.extent) n = n + (addressesFrom k arenas).length := by
  induction arenas generalizing k n with
  | nil => rfl
  | cons arena rest ih =>
    rw [List.foldl_cons, ih (k + 1), addressesFrom, List.length_append, List.length_map, List.length_range]
    omega

theorem mem_addressesFrom {k i : Nat} {arenas : List Arena} {arena : Arena} (found : arenas[i]? = some arena)
    {j : Nat} (below : j < arena.extent) : base (k + i) + j ∈ addressesFrom k arenas := by
  induction arenas generalizing k i with
  | nil => cases found
  | cons head rest ih =>
    rw [addressesFrom, List.mem_append]
    cases i with
    | zero =>
      cases found
      exact .inl (List.mem_map.2 ⟨j, List.mem_range.2 below, rfl⟩)
    | succ i =>
      have later := ih (k := k + 1) found
      rw [Nat.add_assoc, Nat.add_comm 1] at later
      exact .inr later

theorem length_le_capacity {m : Memory} {places : List Nat} (nodup : places.Nodup)
    (inside : ∀ a ∈ places, m.holds a 1 = true) : places.length ≤ m.capacity := by
  have total : m.capacity = (addressesFrom 0 m.arenas.toList).length := by
    rw [capacity, ← Array.foldl_toList, length_addressesFrom 0, Nat.zero_add]
  rw [total]
  apply nodup.length_le_of_subset
  intro a member
  obtain ⟨arena, found, low, room⟩ := exists_arena (inside a member)
  have listedArena : m.arenas.toList[index a]? = some arena := by simpa using found
  have listed := mem_addressesFrom (k := 0) listedArena (j := offset a) (by omega)
  have address : base (0 + index a) + offset a = a := by
    simp only [base, index, offset, origin, stride] at *
    omega
  rwa [address] at listed

end Memory

namespace Census

variable {types : TypeTable} {roots : List Slot} {held : Nat → Prop} {m : Memory} {marks : List Nat}

/-- What has been counted when some objects have been visited. -/
def of (m : Memory) (marks : List Nat) : Census :=
  ⟨marks.length, (marks.map fun p => (m.header (blockOf p)).footprint).sum⟩

theorem isSettled_iff {seen : Std.TreeSet Nat} (knows : ∀ p, seen.contains p = true ↔ p ∈ marks) {word : Nat} :
    isSettled seen word = true ↔ word = 0 ∨ word ∈ marks := by
  simp only [isSettled, Bool.or_eq_true, decide_eq_true_eq, knows]

theorem length_le (consistent : Consistent types roots held m) (nodup : marks.Nodup)
    (holds : ∀ p ∈ marks, held p) : marks.length ≤ m.capacity := by
  have blocks := nodup_blocks nodup fun p known => consistent.low (holds p known)
  have inside (b : Nat) (member : b ∈ marks.map blockOf) : m.holds b 1 = true := by
    obtain ⟨p, known, rfl⟩ := List.mem_map.1 member
    exact Memory.holds_of_range consistent.regular (consistent.inside (holds p known)) (Nat.le_refl _)
      (by unfold headerSize; omega)
  have bound := Memory.length_le_capacity blocks inside
  rwa [List.length_map] at bound

/-- When there are as many marks as bytes, there is no room for an object that has not been marked. -/
theorem all_marked (consistent : Consistent types roots held m) {work : List Nat}
    (frontier : Frontier types roots m marks (work.filter (· ≠ 0))) (full : m.capacity ≤ marks.length) {p : Nat}
    (member : p ∈ work) (value : p ≠ 0) : p ∈ marks := by
  refine Classical.byContradiction fun fresh => ?_
  have reach := frontier.waiting p (List.mem_filter.2 ⟨member, by simpa using value⟩)
  have more := length_le consistent (List.nodup_cons.2 ⟨fresh, frontier.nodup⟩) fun q known => by
    rcases List.mem_cons.1 known with rfl | old
    · exact consistent.held_of_reach reach
    · exact consistent.held_of_reach (frontier.reached q old)
  rw [List.length_cons] at more
  omega

/-- What is settled is null or marked, so nothing is lost when it is dropped. -/
theorem mem_dropWhile_of_value {seen : Std.TreeSet Nat} (knows : ∀ p, seen.contains p = true ↔ p ∈ marks)
    {work : List Nat} {p : Nat} (member : p ∈ work) (value : p ≠ 0) :
    p ∈ marks ∨ p ∈ work.dropWhile (isSettled seen) :=
  (mem_dropWhile member).imp_left fun settled => ((isSettled_iff knows).1 settled).resolve_left value

-- A round marks one object more, and what is marked never outnumbers the bytes, so the rounds do not run out.
-- Null stays on the work and is dropped with what is settled; the frontier speaks of the other words only.
theorem countFrom_ok (consistent : Consistent types roots held m) (rounds : Nat) {work : List Nat}
    {seen : Std.TreeSet Nat} (knows : ∀ p, seen.contains p = true ↔ p ∈ marks)
    (frontier : Frontier types roots m marks (work.filter (· ≠ 0))) (enough : m.capacity ≤ rounds + marks.length) :
    ∃ marks', countFrom types m rounds work seen (of m marks) = .ok (of m marks') ∧
      Frontier types roots m marks' [] ∧ (∀ p ∈ marks, p ∈ marks') ∧ ∀ p ∈ work, p ≠ 0 → p ∈ marks' := by
  have holds (p : Nat) (member : p ∈ marks) : held p := consistent.held_of_reach (frontier.reached p member)
  have reach (p : Nat) (member : p ∈ work) (value : p ≠ 0) : Reach types roots m p :=
    frontier.waiting p (List.mem_filter.2 ⟨member, by simpa using value⟩)
  induction rounds generalizing work marks seen with
  | zero =>
    have all (p : Nat) (member : p ∈ work) (value : p ≠ 0) : p ∈ marks :=
      all_marked consistent frontier (by omega) member value
    have settled : work.all (isSettled seen) = true :=
      List.all_eq_true.2 fun p member => (isSettled_iff knows).2 (or_iff_not_imp_left.2 (all p member))
    refine ⟨marks, ?_, ?_, fun p member => member, all⟩
    · rw [countFrom, if_pos settled]
    · apply frontier.drop (List.nil_subset _)
      intro p member
      obtain ⟨old, value⟩ := List.mem_filter.1 member
      exact .inl (all p old (by simpa using value))
  | succ rounds ih =>
    have later (p : Nat) (member : p ∈ work) (value : p ≠ 0) := mem_dropWhile_of_value knows member value
    have dropped : Frontier types roots m marks ((work.dropWhile (isSettled seen)).filter (· ≠ 0)) := by
      apply frontier.drop (List.Sublist.filter _ (List.dropWhile_sublist _)).subset
      intro p member
      obtain ⟨old, value⟩ := List.mem_filter.1 member
      exact (later p old (by simpa using value)).imp_right fun late => List.mem_filter.2 ⟨late, value⟩
    rw [countFrom]
    cases left : work.dropWhile (isSettled seen) with
    | nil =>
      rw [left] at dropped later
      refine ⟨marks, rfl, dropped, fun p member => member, fun p member value => ?_⟩
      exact (later p member value).resolve_right List.not_mem_nil
    | cons p rest =>
      rw [left] at dropped later
      obtain ⟨waiting, head⟩ := head_dropWhile left
      obtain ⟨value, fresh⟩ : p ≠ 0 ∧ p ∉ marks := by
        rw [← not_or, ← isSettled_iff knows, head]
        exact Bool.false_ne_true
      rw [List.filter_cons_of_pos (by simpa using value)] at dropped
      have known := consistent.held_of_reach (reach p waiting value)
      obtain ⟨slots, listed, words⟩ := consistent.tracedWords_eq known
      have visited := dropped.visit fresh listed
      rw [← List.filter_reverse, ← List.filter_append] at visited
      have holds' (q : Nat) (member : q ∈ p :: marks) : held q := by
        rcases List.mem_cons.1 member with rfl | old
        · exact known
        · exact holds q old
      have knows' (q : Nat) : (seen.insert p).contains q = true ↔ q ∈ p :: marks := by
        rw [contains_insert_iff, knows, List.mem_cons]
      obtain ⟨marks', ran, frontier', grown, worked⟩ := ih knows' visited (by rw [List.length_cons]; omega) holds'
        fun q member value => visited.waiting q (List.mem_filter.2 ⟨member, by simpa using value⟩)
      refine ⟨marks', ?_, frontier', fun q member => grown q (List.mem_cons_of_mem p member), ?_⟩
      · simp only [consistent.readObject_eq known, words, bind, Except.bind]
        have counted : Census.mk ((of m marks).objects + 1) ((of m marks).bytes + (m.header (blockOf p)).footprint) =
            of m (p :: marks) := by
          simp only [of, List.length_cons, List.map_cons, List.sum_cons, Nat.add_comm]
        rw [counted]
        exact ran
      · intro q member value'
        rcases later q member value' with old | late
        · exact grown q (List.mem_cons_of_mem p old)
        · rcases List.mem_cons.1 late with rfl | behind
          · exact grown q List.mem_cons_self
          · exact worked q (List.mem_append_right _ behind) value'

end Census

/-- In a consistent memory exactly the objects that can be reached are counted. -/
theorem Consistent.census_ok {types : TypeTable} {roots : List Slot} {held : Nat → Prop} {m : Memory}
    (consistent : Consistent types roots held m) : ∃ reached : List Nat, reached.Nodup ∧
      (∀ p, p ∈ reached ↔ Reach types roots m p) ∧ types.census roots m = .ok (Census.of m reached) := by
  have start : Frontier types roots m [] ((roots.map m.slot).reverse.filter (· ≠ 0)) := by
    refine .start fun p member => ?_
    obtain ⟨word, value⟩ := List.mem_filter.1 member
    obtain ⟨s, root, rfl⟩ := List.mem_map.1 (List.mem_reverse.1 word)
    exact ⟨s, root, rfl, by simpa using value⟩
  have knows (p : Nat) : (∅ : Std.TreeSet Nat).contains p = true ↔ p ∈ [] := by simp
  obtain ⟨marks, ran, frontier, -, started⟩ :=
    Census.countFrom_ok consistent m.capacity knows start (Nat.le_add_right _ _)
  refine ⟨marks, frontier.nodup, frontier.mem_iff_reach fun s root value => ?_, ?_⟩
  · exact started _ (List.mem_reverse.2 (List.mem_map_of_mem root)) value
  · exact bind_eq_ok.2 ⟨_, (Memory.readRoots_of_cells consistent.cells), ran⟩

end TracingHeap
