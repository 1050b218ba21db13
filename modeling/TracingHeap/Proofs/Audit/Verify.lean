import TracingHeap.Audit.Consistency
import TracingHeap.Proofs.Space.Tiled

/-! What the check of a whole heap finds, where the headers are in order. -/

set_option autoImplicit false

namespace TracingHeap

/-- The words that a collector follows in some objects. -/
def TypeTable.followedWords (types : TypeTable) (objects : List Nat) (m : Memory) : List Nat :=
  objects.flatMap fun p => (types.visited m p).map m.word

namespace ConsistencyReport

variable {types : TypeTable} {roots : List Slot} {held : Nat → Prop} {m : Memory} {known : Std.TreeSet Nat}

/-- The word is not null and leads to no object. -/
def isStray (known : Std.TreeSet Nat) (word : Nat) : Bool := word ≠ 0 && !known.contains word

/-- The first stray word is reported. If there is none, the references are counted. -/
theorem foldlM_addReference (words : List Nat) (r : ConsistencyReport) : words.foldlM (addReference known) r =
    match words.find? (isStray known) with
    | some word => .error (.corrupted word .danglingReference)
    | none => .ok { r with references := r.references + (words.filter (· ≠ 0)).length } := by
  induction words generalizing r with
  | nil => rfl
  | cons word rest ih =>
    rw [List.foldlM_cons, List.find?_cons]
    by_cases null : word = 0
    · have skipped : addReference known r word = .ok r := if_pos null
      have fine : isStray known word = false := by simp [isStray, null]
      rw [skipped, fine, List.filter_cons_of_neg (by simp [null])]
      exact ih r
    · by_cases leads : known.contains word = true
      · have counted : addReference known r word = .ok { r with references := r.references + 1 } := by
          rw [addReference, if_neg null, if_pos leads]
        have fine : isStray known word = false := by simp only [isStray, leads, Bool.not_true, Bool.and_false]
        rw [counted, fine, List.filter_cons_of_pos (by simpa using null), List.length_cons, ← Nat.add_assoc,
          Nat.add_right_comm]
        exact ih { r with references := r.references + 1 }
      · have lost : addReference known r word = .error (.corrupted word .danglingReference) := by
          rw [addReference, if_neg null, if_neg leads]
        have stray : isStray known word = true := by simp [isStray, null, eq_false_of_ne_true leads]
        rw [lost, stray]
        rfl

theorem addObject_eq (intact : Intact types held m) {p : Nat} (holds : held p)
    (listed : ∃ slots, types.tracedSlots m p = .ok slots) (r : ConsistencyReport) : addObject types known m r p =
      ((types.visited m p).map m.word).foldlM (addReference known)
        { r with objects := r.objects + 1, bytes := r.bytes + m.blockSize p } := by
  obtain ⟨slots, found⟩ := listed
  obtain ⟨rfl, words⟩ := intact.eq_visited holds found
  simp only [addObject, intact.readObject_eq holds, words, bind, Except.bind, ne_eq, not_true, if_false]
  rfl

theorem foldlM_addObject (known : Std.TreeSet Nat) (intact : Intact types held m) {objects : List Nat} (holds : ∀ p ∈ objects, held p)
    (listed : ∀ p ∈ objects, ∃ slots, types.tracedSlots m p = .ok slots) (r : ConsistencyReport) :
    objects.foldlM (addObject types known m) r =
      match (types.followedWords objects m).find? (isStray known) with
      | some word => .error (.corrupted word .danglingReference)
      | none => .ok {
          objects := r.objects + objects.length
          bytes := r.bytes + (objects.map m.blockSize).sum
          references := r.references + ((types.followedWords objects m).filter (· ≠ 0)).length } := by
  induction objects generalizing r with
  | nil => rfl
  | cons p rest ih =>
    have later := ih (fun q member => holds q (List.mem_cons_of_mem p member))
      fun q member => listed q (List.mem_cons_of_mem p member)
    have words : types.followedWords (p :: rest) m = (types.visited m p).map m.word ++ types.followedWords rest m := rfl
    rw [List.foldlM_cons, addObject_eq intact (holds p List.mem_cons_self) (listed p List.mem_cons_self),
      foldlM_addReference, words, List.find?_append, List.filter_append, List.length_append]
    cases first : ((types.visited m p).map m.word).find? (isStray known) with
    | some word => rfl
    | none =>
      simp only [bind, Except.bind, later, Option.none_or, List.length_cons, List.map_cons, List.sum_cons]
      cases (types.followedWords rest m).find? (isStray known) with
      | some word => rfl
      | none => simp only [Nat.add_assoc, Nat.add_comm 1]

end ConsistencyReport

variable {types : TypeTable} {roots : List Slot} {held : Nat → Prop} {m : Memory} {objects : List Nat}

-- The objects are listed by the books, so nothing else is asked of the list.
/-- A heap whose slots can be listed passes the check unless a word in one of them or in a root is neither null nor
an object. The first one that is found is reported. -/
theorem Intact.verify_eq (intact : Intact types held m) (members : ∀ p, p ∈ objects ↔ held p)
    (listed : ∀ p, held p → ∃ slots, types.tracedSlots m p = .ok slots)
    (cells : ∀ s ∈ roots, ∃ i, s = .cell i ∧ i < m.cells.size) :
    types.verify roots objects m =
      match (types.followedWords objects m ++ roots.map m.slot).find? (fun word => word ≠ 0 && word ∉ objects) with
      | some word => .error (.corrupted word .danglingReference)
      | none => .ok {
          objects := objects.length
          bytes := (objects.map m.blockSize).sum
          references := ((types.followedWords objects m ++ roots.map m.slot).filter (· ≠ 0)).length } := by
  have stray : ConsistencyReport.isStray (Std.TreeSet.ofList objects) = fun word => word ≠ 0 && word ∉ objects := by
    funext word
    rw [ConsistencyReport.isStray, Std.TreeSet.contains_ofList, List.contains_eq_mem]
    simp
  have root (r : ConsistencyReport) (s : Slot) (member : s ∈ roots) :
      (do ConsistencyReport.addReference (Std.TreeSet.ofList objects) r (← m.readSlot s)) =
        ConsistencyReport.addReference (Std.TreeSet.ofList objects) r (m.slot s) := by
    rw [Memory.readSlot_of_cell cells member]
    rfl
  have inside := ConsistencyReport.foldlM_addObject (Std.TreeSet.ofList objects) intact
    (fun p member => (members p).1 member) (fun p member => listed p ((members p).1 member)) {}
  have behind (r : ConsistencyReport) :
      roots.foldlM (fun r s => do ConsistencyReport.addReference (Std.TreeSet.ofList objects) r (← m.readSlot s)) r =
        (roots.map m.slot).foldlM (ConsistencyReport.addReference (Std.TreeSet.ofList objects)) r := by
    rw [List.foldlM_map]
    exact foldlM_congr root r
  unfold TypeTable.verify
  simp only [inside, behind, ConsistencyReport.foldlM_addReference, stray, List.find?_append, List.filter_append, List.length_append]
  cases (types.followedWords objects m).find? fun word => word ≠ 0 && word ∉ objects with
  | some word => rfl
  | none =>
    simp only [bind, Except.bind, Option.none_or]
    cases (roots.map m.slot).find? fun word => word ≠ 0 && word ∉ objects with
    | some word => rfl
    | none => simp

end TracingHeap
