import TracingHeap.Proofs.Graph
import TracingHeap.Proofs.MarkSweep.Blocks

/-! Marking finds exactly what can be reached.

A mark is one byte of a header. No other byte changes, so the marked memory has the same objects with the
same references as the memory before the collection. -/

set_option autoImplicit false

namespace TracingHeap

/-- The memory `m₀` with a mark on each object of a list. -/
structure Marked (m₀ : Memory) (marks : List Nat) (m : Memory) : Prop where
  shape : m₀.SameShape m
  cells : m.cells = m₀.cells
  bytes : ∀ a, m.byte a = if ∃ p ∈ marks, a = blockOf p + 5 then ObjectState.marked.code else m₀.byte a

namespace Marked

variable {types : TypeTable} {held : Nat → Prop} {m₀ m : Memory} {marks : List Nat} {p : Nat}

theorem nil (m₀ : Memory) : Marked m₀ [] m₀ := ⟨.refl m₀, rfl, fun a => by simp⟩

theorem regular (marked : Marked m₀ marks m) (intact : Intact types held m₀) : m.Regular :=
  intact.regular.of_sameShape marked.shape

/-- Inside an object only its own mark can differ. -/
theorem byte_eq (marked : Marked m₀ marks m) (intact : Intact types held m₀)
    (marksHeld : ∀ q ∈ marks, held q) (holds : held p) {i : Nat} (within : i < headerSize + m₀.payloadSize p)
    (other : i ≠ 5 ∨ p ∉ marks) : m.byte (blockOf p + i) = m₀.byte (blockOf p + i) := by
  rw [marked.bytes, if_neg]
  rintro ⟨q, member, same⟩
  -- The mark of another object lies in its own header, outside this one.
  by_cases self : q = p
  · subst self
    rcases other with place | unmarked
    · omega
    · exact unmarked member
  · have gap := intact.separate holds (marksHeld q member) (Ne.symm self) within
    unfold headerSize at gap
    omega

theorem header_of_notMem (marked : Marked m₀ marks m) (intact : Intact types held m₀)
    (marksHeld : ∀ q ∈ marks, held q) (holds : held p) (unmarked : p ∉ marks) :
    m.header (blockOf p) = m₀.header (blockOf p) := by
  have inside := intact.holds_header holds
  apply Memory.header_stay intact.regular marked.shape inside
  intro i lt
  exact marked.byte_eq intact marksHeld holds (by omega) (.inr unmarked)

theorem header_of_mem (marked : Marked m₀ marks m) (intact : Intact types held m₀)
    (marksHeld : ∀ q ∈ marks, held q) (member : p ∈ marks) :
    m.header (blockOf p) = { m₀.header (blockOf p) with state := ObjectState.marked.code } := by
  have holds := marksHeld p member
  have inside := intact.holds_header holds
  have inByte := Memory.holds_sub intact.regular inside 5 1 (by decide)
  have same := Memory.sameShape_setByte m₀ (blockOf p + 5) ObjectState.marked.code
  rw [← Memory.header_setState intact.regular inside]
  apply Memory.header_congr (intact.regular.of_sameShape same) (marked.regular intact)
    (same.holds _ _ ▸ inside) (marked.shape.holds _ _ ▸ inside)
  intro i lt
  rw [Memory.byte_setByte inByte]
  by_cases place : i = 5
  · subst place
    rw [marked.bytes, if_pos ⟨p, member, rfl⟩, if_pos rfl]
  · rw [if_neg (by omega)]
    exact marked.byte_eq intact marksHeld holds (by omega) (.inl place)

theorem check_of_mem (marked : Marked m₀ marks m) (intact : Intact types held m₀)
    (marksHeld : ∀ q ∈ marks, held q) (member : p ∈ marks) : (m.header (blockOf p)).check = .ok .marked := by
  have good := Header.check_eq_ok.1 (intact.unmarked p (marksHeld p member))
  rw [marked.header_of_mem intact marksHeld member]
  exact Header.check_eq_ok.2 ⟨good.1, rfl⟩

theorem header_front (marked : Marked m₀ marks m) (intact : Intact types held m₀)
    (marksHeld : ∀ q ∈ marks, held q) (holds : held p) :
    (m.header (blockOf p)).typeId = (m₀.header (blockOf p)).typeId ∧
      (m.header (blockOf p)).size = (m₀.header (blockOf p)).size := by
  by_cases member : p ∈ marks
  · rw [marked.header_of_mem intact marksHeld member]
    exact ⟨rfl, rfl⟩
  · rw [marked.header_of_notMem intact marksHeld holds member]
    exact ⟨rfl, rfl⟩

theorem framed (marked : Marked m₀ marks m) (intact : Intact types held m₀)
    (marksHeld : ∀ q ∈ marks, held q) (holds : held p) {d : Descriptor} (f : Framed types m₀ p d) :
    Framed types m p d := by
  obtain ⟨type, size⟩ := marked.header_front intact marksHeld holds
  exact f.congr f.low (marked.shape.holds _ _ ▸ f.inside) type size

theorem word_eq (marked : Marked m₀ marks m) (intact : Intact types held m₀) (marksHeld : ∀ q ∈ marks, held q)
    (holds : held p) {k : Nat} (first : 16 ≤ k) (last : k + wordSize ≤ headerSize + m₀.payloadSize p) :
    m.word (blockOf p + k) = m₀.word (blockOf p + k) := by
  have readable := Memory.holds_sub intact.regular (intact.inside holds) k wordSize last
  apply Memory.word_stay intact.regular marked.shape readable
  intro i lt
  rw [Nat.add_assoc]
  exact marked.byte_eq intact marksHeld holds (by omega) (.inl (by omega))

/-- The references in an object are listed as they were, marked or not. -/
theorem tracedWords_eq (marked : Marked m₀ marks m) (intact : Intact types held m₀) (marksHeld : ∀ q ∈ marks, held q)
    (member : p ∈ marks) : types.tracedWords m p = types.tracedWords m₀ p := by
  have holds := marksHeld p member
  obtain ⟨d, f⟩ := intact.framed p holds
  have f' := marked.framed intact marksHeld holds f
  have size : (m.header (blockOf p)).size = (m₀.header (blockOf p)).size :=
    (marked.header_front intact marksHeld holds).2
  have count (r : Region) (region : d.region = some r) :
      m.word (blockOf p + placeOf r.countOffset) = m₀.word (blockOf p + placeOf r.countOffset) := by
    obtain ⟨first, last, -⟩ := f.sound.count r region
    exact marked.word_eq intact marksHeld holds first (Nat.le_trans last (Nat.add_le_add_left f.fixed _))
  obtain ⟨excess, followed⟩ := Descriptor.followed_congr (m₀.header (blockOf p)).size
    (fun k => m₀.word (blockOf p + k)) (fun k => m.word (blockOf p + k)) count
  rw [f'.tracedWords_eq (marked.regular intact) (marked.check_of_mem intact marksHeld member) (by decide),
    f.tracedWords_eq intact.regular (intact.unmarked p holds) (by decide), f'.excess_eq, f.excess_eq, f'.visited_eq,
    f.visited_eq, size, excess, followed]
  have words : ((d.places (d.followed (fun k => m₀.word (blockOf p + k)) (m₀.header (blockOf p)).size)).map
      (blockOf p + ·)).map m.word = ((d.places (d.followed (fun k => m₀.word (blockOf p + k))
        (m₀.header (blockOf p)).size)).map (blockOf p + ·)).map m₀.word := by
    rw [List.map_map, List.map_map]
    refine List.map_congr_left fun k place => ?_
    obtain ⟨first, last, -⟩ := f.bounds (f.followed_le _) place
    exact marked.word_eq intact marksHeld holds first last
  rw [words]

/-- One more mark. -/
theorem setState (marked : Marked m₀ marks m) (intact : Intact types held m₀) (holds : held p) :
    Marked m₀ (p :: marks) (m.setByte (blockOf p + 5) ObjectState.marked.code) := by
  have inside := Memory.holds_sub intact.regular (intact.holds_header holds) 5 1 (by decide)
  refine ⟨marked.shape.trans (Memory.sameShape_setByte m _ _), ?_, fun a => ?_⟩
  · rw [Memory.setByte, Memory.cells_modifyArena, marked.cells]
  · rw [Memory.byte_setByte (marked.shape.holds _ _ ▸ inside), marked.bytes]
    by_cases here : a = blockOf p + 5
    · rw [if_pos here, if_pos ⟨p, List.mem_cons_self, here⟩]
    · simp [here]

end Marked

namespace MarkSweep

variable {types : TypeTable} {roots : List Slot} {c : MarkSweep} {m₀ m : Memory} {marks work : List Nat} {p : Nat}

-- The memory does not occur here: marks are written into headers, and neither they nor what stands between the objects
-- have a part in what is found next.
/-- What has been marked when the work is done, the last one first. -/
def traverse (owns : Nat → Bool) (references : Nat → Reading (List Nat)) :
    (rounds : Nat) → (marks work : List Nat) → Reading (List Nat)
  | 0, marks, _ => .ok marks
  | rounds + 1, marks, work =>
    match work.dropWhile (· ∈ marks) with
    | [] => .ok marks
    | p :: rest =>
      if owns p then do
        let words ← references p
        traverse owns references rounds (p :: marks) ((words.filter (· ≠ 0)).reverse ++ rest)
      else .error (.corrupted p .danglingReference)

/-- The references of an address without a record have no part in it. -/
theorem traverse_congr {owns : Nat → Bool} {references references' : Nat → Reading (List Nat)}
    (same : ∀ p, owns p = true → references' p = references p) (rounds : Nat) (marks work : List Nat) :
    traverse owns references' rounds marks work = traverse owns references rounds marks work := by
  induction rounds generalizing marks work with
  | zero => rfl
  | succ rounds ih =>
    rw [traverse, traverse]
    cases work.dropWhile (· ∈ marks) with
    | nil => rfl
    | cons p rest =>
      by_cases holds : owns p = true
      · simp only [holds, if_true, same p holds, ih]
      · simp only [holds, if_false, Bool.false_eq_true]

/-- An address without a record is not looked at. -/
theorem markObject_unowned (lost : ¬ c.owns p = true) :
    c.markObject types p m = .error (.corrupted p .danglingReference) m := by
  unfold markObject
  simp only [eq_false_of_ne_true lost, Bool.not_false, if_true]
  rfl

section

variable {h : Header} (holds : c.owns p = true)

include holds

/-- An object that is marked already has nothing new to say. -/
theorem markObject_marked (read : m.readObject p = .ok (h, .marked)) : c.markObject types p m = .ok [] m := by
  unfold markObject
  simp only [holds, Bool.not_true, Bool.false_eq_true, if_false]
  rw [run_bind (Access.look_ok read)]
  rfl

theorem markObject_forwarded (read : m.readObject p = .ok (h, .forwarded)) :
    c.markObject types p m = .error (.corrupted p (.badState h.state)) m := by
  unfold markObject
  simp only [holds, Bool.not_true, Bool.false_eq_true, if_false]
  rw [run_bind (Access.look_ok read)]
  rfl

/-- An object without a mark is given one, and then its references are listed. -/
theorem markObject_unmarked (read : m.readObject p = .ok (h, .unmarked)) (front : m.holds (blockOf p) wordSize = true) :
    c.markObject types p m = match types.tracedWords (m.setByte (blockOf p + 5) ObjectState.marked.code) p with
      | .ok words => .ok (words.filter (· ≠ 0)) (m.setByte (blockOf p + 5) ObjectState.marked.code)
      | .error x => .error x (m.setByte (blockOf p + 5) ObjectState.marked.code) := by
  have bit : Access.setState (blockOf p) .marked m = .ok () (m.setByte (blockOf p + 5) ObjectState.marked.code) :=
    Access.guarded_ok front
  unfold markObject
  simp only [holds, Bool.not_true, Bool.false_eq_true, if_false]
  rw [run_bind (Access.look_ok read)]
  show (Access.setState (blockOf p) .marked >>= fun _ => _) m = _
  rw [run_bind bit]
  cases listed : types.tracedWords (m.setByte (blockOf p + 5) ObjectState.marked.code) p with
  | ok found =>
    rw [run_bind (Access.look_ok listed)]
    rfl
  | error x => exact run_bind_error (Access.look_error listed)

end

section

variable (marked : Marked m₀ marks m) (intact : Intact types (c.owns · = true) m₀)
  (marksHeld : ∀ q ∈ marks, c.owns q = true)

include marked intact marksHeld

-- Of an address without a record nothing is read.
theorem isSettled_eq (p : Nat) : c.isSettled m p = decide (p ∈ marks) := by
  rw [Bool.eq_iff_iff, decide_eq_true_iff, isSettled, Bool.and_eq_true, Header.isIntact_iff]
  constructor
  · rintro ⟨holds, check⟩
    refine Decidable.byContradiction fun fresh => ?_
    rw [marked.header_of_notMem intact marksHeld holds fresh, intact.unmarked p holds] at check
    cases check
  · exact fun member => ⟨marksHeld p member, marked.check_of_mem intact marksHeld member⟩

/-- The object is marked before its references are listed. -/
theorem markObject_eq (holds : c.owns p = true) (fresh : p ∉ marks) : c.markObject types p m =
    match types.tracedWords m₀ p with
    | .ok words => .ok (words.filter (· ≠ 0)) (m.setByte (blockOf p + 5) ObjectState.marked.code)
    | .error x => .error x (m.setByte (blockOf p + 5) ObjectState.marked.code) := by
  have next := marked.setState intact holds
  have nextHeld : ∀ q ∈ p :: marks, c.owns q = true := by
    intro q member
    rcases List.mem_cons.1 member with rfl | old
    · exact holds
    · exact marksHeld q old
  obtain ⟨d, f⟩ := intact.framed p holds
  have regular := marked.regular intact
  have f' := marked.framed intact marksHeld holds f
  have check : (m.header (blockOf p)).check = .ok .unmarked := by
    rw [marked.header_of_notMem intact marksHeld holds fresh]; exact intact.unmarked p holds
  rw [markObject_unmarked holds (f'.readObject_eq regular check) (f'.holds_front regular),
    next.tracedWords_eq intact nextHeld List.mem_cons_self]

end

theorem mark_succ (c : MarkSweep) (rounds : Nat) (work : List Nat) (m : Memory) : c.mark types (rounds + 1) work m =
    match work.dropWhile (c.isSettled m) with
    | [] => .ok () m
    | p :: rest => (c.markObject types p >>= fun found => c.mark types rounds (found.reverse ++ rest)) m := by
  rw [mark, run_bind_get]
  cases work.dropWhile (c.isSettled m) <;> rfl

/-- Objects are counted by their records. -/
theorem length_le_records (nodup : marks.Nodup) (owned : ∀ p ∈ marks, c.owns p = true) :
    marks.length ≤ c.records.size := by
  have blocks := nodup_blocks nodup fun p known => low_of_owns (owned p known)
  have keys : marks.map blockOf ⊆ c.records.keys := by
    intro b member
    obtain ⟨p, known, rfl⟩ := List.mem_map.1 member
    have owns := owned p known
    simp only [MarkSweep.owns, Bool.and_eq_true] at owns
    exact Std.TreeMap.mem_keys.2 owns.2
  have bound := blocks.length_le_of_subset keys
  rwa [List.length_map, Std.TreeMap.length_keys] at bound

-- The rounds suffice because each marks a recorded block that had no mark, and no block can be marked twice: with one
-- round more than there are records the first case of the induction cannot arise.
theorem mark_spec (intact : Intact types (c.owns · = true) m₀) (rounds : Nat) (work : List Nat) {marks : List Nat} {m : Memory}
    (marked : Marked m₀ marks m) (nodup : marks.Nodup) (marksHeld : ∀ q ∈ marks, c.owns q = true)
    (enough : c.records.size + 1 ≤ rounds + marks.length) :
    match traverse c.owns (types.tracedWords m₀) rounds marks work with
    | .ok marks' => ∃ m', c.mark types rounds work m = .ok () m' ∧ Marked m₀ marks' m'
    | .error x => ∃ m' marks', c.mark types rounds work m = .error x m' ∧ Marked m₀ marks' m' ∧
        ∀ q ∈ marks', c.owns q = true := by
  induction rounds generalizing work marks m with
  | zero =>
    have few := length_le_records nodup marksHeld
    omega
  | succ rounds ih =>
    have settled : c.isSettled m = fun p => decide (p ∈ marks) := funext (isSettled_eq marked intact marksHeld)
    rw [mark_succ, traverse, settled]
    cases left : work.dropWhile (fun p => decide (p ∈ marks)) with
    | nil => exact ⟨m, rfl, marked⟩
    | cons p rest =>
      have fresh : p ∉ marks := of_decide_eq_false (head_dropWhile left).2
      by_cases holds : c.owns p = true
      · have step := markObject_eq marked intact marksHeld holds fresh
        have nextHeld : ∀ q ∈ p :: marks, c.owns q = true :=
          fun q member => (List.mem_cons.1 member).elim (fun same => same ▸ holds) (marksHeld q)
        simp only [holds, if_true]
        cases listed : types.tracedWords m₀ p with
        | error x =>
          simp only [listed] at step
          exact ⟨_, _, run_bind_error step, marked.setState intact holds, nextHeld⟩
        | ok words =>
          simp only [listed] at step
          have later := ih ((words.filter (· ≠ 0)).reverse ++ rest) (marked.setState intact holds)
            (List.nodup_cons.2 ⟨fresh, nodup⟩) nextHeld (by rw [List.length_cons]; omega)
          rw [run_bind step]
          exact later
      · simp only [holds, if_false, Bool.false_eq_true]
        exact ⟨m, marks, run_bind_error (markObject_unowned holds), marked, marksHeld⟩

/-! ### What is found -/

/-- What is marked in the end is closed under references. The traversal fails at a word that is met and leads nowhere,
or at an object whose references cannot be listed. -/
theorem traverse_spec (intact : Intact types (c.owns · = true) m₀) (rounds : Nat) {work marks : List Nat}
    (frontier : Frontier types roots m₀ marks work) (marksHeld : ∀ q ∈ marks, c.owns q = true)
    (met : ∀ p ∈ work, Met types roots (c.owns · = true) m₀ p)
    (enough : c.records.size + 1 ≤ rounds + marks.length) :
    match traverse c.owns (types.tracedWords m₀) rounds marks work with
    | .ok marks' => Frontier types roots m₀ marks' [] ∧ (∀ p ∈ marks', c.owns p = true) ∧ (∀ p ∈ marks, p ∈ marks') ∧
        ∀ p ∈ work, p ∈ marks'
    | .error x => (∃ p, x = .corrupted p .danglingReference ∧ Met types roots (c.owns · = true) m₀ p ∧
        ¬ c.owns p = true) ∨ ∃ p count capacity, x = .corrupted p (.regionOverflow count capacity) ∧
        Met types roots (c.owns · = true) m₀ p ∧ c.owns p = true ∧ types.tracedWords m₀ p = .error x := by
  induction rounds generalizing work marks with
  | zero =>
    have few := length_le_records frontier.nodup marksHeld
    omega
  | succ rounds ih =>
    have later (p : Nat) (member : p ∈ work) : p ∈ marks ∨ p ∈ work.dropWhile (· ∈ marks) :=
      (@mem_dropWhile (fun p => decide (p ∈ marks)) _ _ member).imp_left of_decide_eq_true
    have dropped : Frontier types roots m₀ marks (work.dropWhile (· ∈ marks)) :=
      frontier.drop (List.dropWhile_sublist _).subset later
    have left' (p : Nat) (member : p ∈ work.dropWhile (· ∈ marks)) := met p ((List.dropWhile_sublist _).subset member)
    rw [traverse]
    cases left : work.dropWhile (fun p => decide (p ∈ marks)) with
    | nil =>
      rw [left] at dropped later
      exact ⟨dropped, marksHeld, fun p member => member, fun p member => (later p member).resolve_right List.not_mem_nil⟩
    | cons p rest =>
      rw [left] at dropped later left'
      have fresh : p ∉ marks := of_decide_eq_false (head_dropWhile left).2
      have here := left' p List.mem_cons_self
      by_cases holds : c.owns p = true
      · simp only [holds, if_true]
        rcases intact.listing holds with ⟨slots, listed, words⟩ | ⟨count, capacity, -, failed⟩
        · have rest' := ih (dropped.visit fresh listed)
            (fun q member => (List.mem_cons.1 member).elim (fun same => same ▸ holds) (marksHeld q))
            (fun q member => ?_) (by rw [List.length_cons]; omega)
          · simp only [words, bind, Except.bind]
            cases ran : traverse c.owns (types.tracedWords m₀) rounds (p :: marks)
              (((slots.map m₀.word).filter (· ≠ 0)).reverse ++ rest) with
            | error x =>
              rw [ran] at rest'
              exact rest'
            | ok marks' =>
              rw [ran] at rest'
              obtain ⟨frontier', held', grown, worked⟩ := rest'
              refine ⟨frontier', held', fun q member => grown q (List.mem_cons_of_mem p member), fun q member => ?_⟩
              rcases later q member with old | late
              · exact grown q (List.mem_cons_of_mem p old)
              · rcases List.mem_cons.1 late with rfl | behind
                · exact grown q List.mem_cons_self
                · exact worked q (List.mem_append_right _ behind)
          · rcases List.mem_append.1 member with found | old
            · obtain ⟨word, value⟩ := List.mem_filter.1 (List.mem_reverse.1 found)
              obtain ⟨a, within, rfl⟩ := List.mem_map.1 word
              exact .step here holds listed within (by simpa using value)
            · exact left' q (List.mem_cons_of_mem p old)
        · simp only [failed]
          exact .inr ⟨p, count, capacity, rfl, here, holds, failed⟩
      · simp only [holds, if_false, Bool.false_eq_true]
        exact .inl ⟨p, rfl, here, holds⟩

end MarkSweep

end TracingHeap
