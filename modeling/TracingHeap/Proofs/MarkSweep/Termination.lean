import TracingHeap.Proofs.Heap.Charts
import TracingHeap.Proofs.Layout.HeaderUpdates
import TracingHeap.Proofs.Loops

/-! Marking comes to an end.

The work can become longer in every round, and references may lead in circles. But a round that finds new work has put a
mark on one more object, and marks stay. Nothing is asked of the words in the objects, nor of the work that the loop
begins with. -/

set_option autoImplicit false

namespace TracingHeap

namespace MarkSweep

variable {types : TypeTable} {c : MarkSweep} {m m' : Memory} {work rest : List Nat} {p q : Nat}

/-- One round: what has been found last is taken off the work, and what is found there is put on it. -/
def markRound (types : TypeTable) (c : MarkSweep) : Loop Memory (List Nat)
  | [] => return none
  | p :: rest => do
    let found ← c.markObject types p
    return some (found.reverse ++ rest)

/-- One object more is marked, and nothing else is written. -/
structure MarksOne (c : MarkSweep) (p : Nat) (m m' : Memory) : Prop where
  owns : c.owns p = true
  before : (m.header (blockOf p)).check = .ok .unmarked
  after : m'.header (blockOf p) = { m.header (blockOf p) with state := ObjectState.marked.code }
  written : m.Rewritten (· = blockOf p + 5) m'
  others : ∀ q, c.owns q = true → q ≠ p → m'.header (blockOf q) = m.header (blockOf q)

/-- The recorded objects without a mark. -/
def waiting (c : MarkSweep) (m : Memory) : Nat := c.objects.countP fun p => (m.header (blockOf p)).isIntact .unmarked

theorem mem_objects : p ∈ c.objects ↔ c.owns p = true := Engine.mem_list (e := .markSweep c)

theorem waiting_le (c : MarkSweep) (m : Memory) : c.waiting m ≤ c.records.size := by
  have all : c.waiting m ≤ c.objects.length := List.countP_le_length
  rwa [objects, List.length_map, Std.TreeMap.length_keys] at all

namespace MarksOne

variable (one : c.MarksOne p m m')

include one

theorem marked : (m'.header (blockOf p)).check = .ok .marked := by
  rw [one.after]
  exact Header.check_eq_ok.2 ⟨(Header.check_eq_ok.1 one.before).1, rfl⟩

/-- A mark that has been set stays. -/
theorem keeps (owns : c.owns q = true) (marked : (m.header (blockOf q)).check = .ok .marked) :
    (m'.header (blockOf q)).check = .ok .marked := by
  by_cases same : q = p
  · exact same ▸ one.marked
  · rw [one.others q owns same]
    exact marked

theorem waiting_lt : c.waiting m' < c.waiting m := by
  have member : p ∈ c.objects := mem_objects.2 one.owns
  obtain ⟨before, after, split⟩ := List.append_of_mem member
  have fewer (l : List Nat) (known : ∀ q ∈ l, q ∈ c.objects) :
      l.countP (fun q => (m'.header (blockOf q)).isIntact .unmarked) ≤
        l.countP fun q => (m.header (blockOf q)).isIntact .unmarked := by
    refine List.countP_mono_left fun q here intact => ?_
    by_cases same : q = p
    · subst same
      exact Header.isIntact_iff.2 one.before
    · rwa [one.others q (mem_objects.1 (known q here)) same] at intact
  have first := fewer before fun q here => split ▸ List.mem_append_left _ here
  have second := fewer after fun q here => split ▸ List.mem_append_right _ (List.mem_cons_of_mem p here)
  have counted : (m.header (blockOf p)).isIntact .unmarked = true := Header.isIntact_iff.2 one.before
  have passed : ¬ (m'.header (blockOf p)).isIntact .unmarked = true := by
    rw [Header.isIntact_iff, one.marked]
    simp
  simp only [waiting, split, List.countP_append, List.countP_cons, counted, passed, if_true, if_false, Bool.false_eq_true]
  omega

end MarksOne

/-! ### One round -/

section

variable (charted : (Engine.markSweep c).Charted types m)

include charted

theorem marksOne_setByte (owns : c.owns p = true) (unmarked : (m.header (blockOf p)).check = .ok .unmarked) :
    c.MarksOne p m (m.setByte (blockOf p + 5) ObjectState.marked.code) := by
  have written := Memory.Rewritten.setByte m (blockOf p + 5) ObjectState.marked.code
  refine ⟨owns, unmarked, ?_, written, fun q known other => ?_⟩
  · exact Memory.header_setState charted.regular (charted.holds_header owns) _
  · -- The mark lies in a header, and blocks do not overlap.
    have own := charted.large owns
    have theirs := charted.large (p := q) known
    have apart : blockOf p + m.blockSize p ≤ blockOf q ∨ blockOf q + m.blockSize q ≤ blockOf p :=
      (Nat.lt_or_gt_of_ne other).symm.imp (Engine.fits_apart charted.standing charted.fits owns known)
        (Engine.fits_apart charted.standing charted.fits known owns)
    refine Memory.header_stay charted.regular written.shape (charted.holds_header (p := q) known) fun i lt => written.byte _ ?_
    unfold headerSize at *
    omega

theorem MarksOne.charts (one : c.MarksOne p m m') : (Engine.markSweep c).Charted types m' := by
  refine charted.of_akin one.written.shape fun q owns => ?_
  by_cases same : q = p
  · subst same
    refine ⟨?_, ?_, _, one.marked⟩ <;> rw [one.after]
  · rw [one.others q owns same]
    exact ⟨rfl, rfl, (charted.legible q owns).readable⟩

end

/-- What comes of an object on the work: it is marked already, it is marked now, or there is something wrong with it. -/
inductive Marking (c : MarkSweep) (p : Nat) (m : Memory) : EStateM.Result Failure Memory (List Nat) → Prop where
  | settled : c.isSettled m p = true → Marking c p m (.ok [] m)
  | found {words : List Nat} {m' : Memory} : c.MarksOne p m m' → Marking c p m (.ok words m')
  | failed {e : HeapError} {m' : Memory} : m' = m ∨ c.MarksOne p m m' → Marking c p m (.error (.violation e) m')

theorem markRound_cons (types : TypeTable) (c : MarkSweep) (p : Nat) (rest : List Nat) (m : Memory) :
    c.markRound types (p :: rest) m = match c.markObject types p m with
      | .ok found m' => .ok (some (found.reverse ++ rest)) m'
      | .error x m' => .error x m' := by
  show (c.markObject types p >>= fun found => pure (some (found.reverse ++ rest))) m = _
  cases ran : c.markObject types p m with
  | ok found m' =>
    rw [run_bind ran]
    rfl
  | error x m' => exact run_bind_error ran

section

variable (charted : (Engine.markSweep c).Charted types m) (checked : types.Checked)

include charted checked

theorem markObject_marking (p : Nat) : c.Marking p m (c.markObject types p m) := by
  by_cases owns : c.owns p = true
  · obtain ⟨d, framed⟩ := charted.framed checked owns
    obtain ⟨state, check⟩ := (charted.legible p owns).readable
    have read := framed.readObject_eq charted.regular check
    cases state with
    | marked =>
      rw [markObject_marked owns read]
      refine .settled ?_
      rw [isSettled, owns, Header.isIntact_iff.2 check]
      rfl
    | forwarded =>
      rw [markObject_forwarded owns read]
      exact .failed (.inl rfl)
    | unmarked =>
      have one := marksOne_setByte charted owns check
      have charted' := one.charts charted
      obtain ⟨d', framed'⟩ := charted'.framed checked owns
      rw [markObject_unmarked owns read (framed.holds_front charted.regular),
        framed'.tracedWords_eq charted'.regular one.marked (by decide)]
      cases types.excess (m.setByte (blockOf p + 5) ObjectState.marked.code) p with
      | some pair => exact .failed (.inr one)
      | none => exact .found one
  · rw [markObject_unowned owns]
    exact .failed (.inl rfl)

/-- A round makes the work shorter and writes nothing, or it marks one object more. -/
theorem markRound_spec {work' : List Nat} (ran : c.markRound types work m = .ok (some work') m') :
    (∃ p, work = p :: work') ∧ m' = m ∨ ∃ p rest, work = p :: rest ∧ c.MarksOne p m m' := by
  cases work with
  | nil => cases ran
  | cons p rest =>
    rw [markRound_cons] at ran
    have marking := markObject_marking charted checked p
    cases came : c.markObject types p m with
    | error x m₁ => simp only [came] at ran; cases ran
    | ok found m₁ =>
      rw [came] at marking
      simp only [came] at ran
      cases ran
      cases marking with
      | settled _ => exact .inl ⟨⟨p, rfl⟩, rfl⟩
      | found one => exact .inr ⟨p, rest, rfl, one⟩

theorem markRound_charts {work' : List Nat} (ran : c.markRound types work m = .ok (some work') m') :
    (Engine.markSweep c).Charted types m' := by
  rcases markRound_spec charted checked ran with ⟨-, rfl⟩ | ⟨p, rest, -, one⟩
  · exact charted
  · exact one.charts charted

end

/-! ### The whole loop -/

/-- What is marked already is taken off the work, one by one. -/
theorem ends_of_dropWhile {r : EStateM.Result Failure Memory (List Nat)} (charted : (Engine.markSweep c).Charted types m)
    (checked : types.Checked) (ends : Loop.Ends (c.markRound types) (work.dropWhile (c.isSettled m)) m r) :
    Loop.Ends (c.markRound types) work m r := by
  induction work with
  | nil => exact ends
  | cons p rest ih =>
    by_cases settled : c.isSettled m p = true
    · rw [List.dropWhile_cons_of_pos settled] at ends
      refine .again ?_ (ih ends)
      obtain ⟨owns, check⟩ := Bool.and_eq_true_iff.1 settled
      obtain ⟨d, framed⟩ := charted.framed checked owns
      rw [markRound_cons, markObject_marked owns (framed.readObject_eq charted.regular (Header.isIntact_iff.1 check))]
      rfl
    · rwa [List.dropWhile_cons_of_neg settled] at ends

-- By induction on the rounds that are left, of which there are more than objects without a mark: a round that goes on has
-- marked one of them.
/-- The loop comes to an end, and to the one that counting its rounds comes to. -/
theorem mark_ends (charted : (Engine.markSweep c).Charted types m) (checked : types.Checked) (rounds : Nat)
    (work : List Nat) (enough : c.waiting m < rounds) :
    match c.mark types rounds work m with
    | .ok _ m' => Loop.Ends (c.markRound types) work m (.ok [] m')
    | .error x m' => Loop.Ends (c.markRound types) work m (.error x m') ∧ ∃ e, x = .violation e := by
  induction rounds generalizing work m with
  | zero => exact absurd enough (Nat.not_lt_zero _)
  | succ rounds ih =>
    have skip (r : EStateM.Result Failure Memory (List Nat))
        (ends : Loop.Ends (c.markRound types) (work.dropWhile (c.isSettled m)) m r) :
        Loop.Ends (c.markRound types) work m r := ends_of_dropWhile charted checked ends
    rw [mark_succ]
    cases left : work.dropWhile (c.isSettled m) with
    | nil =>
      rw [left] at skip
      exact skip _ (.done rfl)
    | cons p rest =>
      rw [left] at skip
      have fresh : ¬ c.isSettled m p = true := by rw [(head_dropWhile left).2]; exact Bool.false_ne_true
      have round := markRound_cons types c p rest m
      have marking := markObject_marking charted checked p
      cases came : c.markObject types p m with
      | error x m' =>
        rw [came] at round marking
        simp only [run_bind_error came]
        cases marking with
        | failed _ => exact ⟨skip _ (.failed round), _, rfl⟩
      | ok found m' =>
        rw [came] at round marking
        simp only [run_bind came]
        have one : c.MarksOne p m m' := by
          cases marking with
          | settled settled => exact absurd settled fresh
          | found one => exact one
        have later := ih (one.charts charted) (found.reverse ++ rest) (Nat.lt_of_lt_of_le one.waiting_lt (Nat.le_of_lt_succ enough))
        cases ran : c.mark types rounds (found.reverse ++ rest) m' with
        | ok u m'' =>
          rw [ran] at later
          exact skip _ (.again round later)
        | error x m'' =>
          rw [ran] at later
          exact ⟨skip _ (.again round later.1), later.2⟩

/-- Marking ends, whatever is on the work to begin with. -/
structure MarkingEnds (types : TypeTable) (c : MarkSweep) (work : List Nat) (m : Memory) : Prop where
  /-- Each round makes the work shorter and writes nothing, or it marks one object more. -/
  round : ∀ {work₁ work₂ m₁ m₂}, Loop.Leads (c.markRound types) work m work₁ m₁ →
    c.markRound types work₁ m₁ = .ok (some work₂) m₂ →
    (∃ p, work₁ = p :: work₂) ∧ m₂ = m₁ ∨ ∃ p rest, work₁ = p :: rest ∧ c.MarksOne p m₁ m₂
  /-- Marks stay. -/
  lasting : ∀ {work₁ work₂ m₁ m₂}, Loop.Leads (c.markRound types) work m work₁ m₁ →
    Loop.Leads (c.markRound types) work₁ m₁ work₂ m₂ → ∀ p, c.owns p = true →
    (m₁.header (blockOf p)).check = .ok .marked → (m₂.header (blockOf p)).check = .ok .marked
  ends : match c.mark types (c.records.size + 1) work m with
    | .ok _ m' => Loop.Ends (c.markRound types) work m (.ok [] m')
    | .error x m' => Loop.Ends (c.markRound types) work m (.error x m') ∧ ∃ e, x = .violation e

theorem markingEnds (charted : (Engine.markSweep c).Charted types m) (checked : types.Checked) (work : List Nat) :
    c.MarkingEnds types work m where
  round leads ran :=
    markRound_spec (leads.keeps (P := fun _ m => (Engine.markSweep c).Charted types m) charted
      fun charted ran => markRound_charts charted checked ran) checked ran
  lasting {work₁ work₂ m₁ m₂} first second p owns marked := by
    have charted₁ := first.keeps (P := fun _ m => (Engine.markSweep c).Charted types m) charted
      fun charted ran => markRound_charts charted checked ran
    refine (second.keeps (P := fun _ m => (Engine.markSweep c).Charted types m ∧
      (m.header (blockOf p)).check = .ok .marked) ⟨charted₁, marked⟩ fun ⟨charted, marked⟩ ran => ?_).2
    refine ⟨markRound_charts charted checked ran, ?_⟩
    rcases markRound_spec charted checked ran with ⟨-, rfl⟩ | ⟨q, rest, -, one⟩
    · exact marked
    · exact one.keeps owns marked
  ends := mark_ends charted checked _ work (Nat.lt_succ_of_le (c.waiting_le m))

end MarkSweep

end TracingHeap
