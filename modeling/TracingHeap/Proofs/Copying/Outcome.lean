import TracingHeap.Proofs.Copying.Evacuation

/-! What a moving collection comes to, said without running it.

Which objects are copied, in what order, and where the collection fails: all of it follows from the memory before the
collection. A word that is met is answered from the residents, from the old headers and from the list of what has
been copied so far. -/

set_option autoImplicit false

namespace TracingHeap

-- The payload of an empty object that was copied last begins where the used part of the reserve ends.
/-- The address is taken for the one of a copy: it is one, and not that of an empty object copied last. -/
def recognized (space : Space) (m₀ : Memory) (l : List Nat) (target : Nat) : Bool :=
  l.any fun q => copyOf space m₀ l q = target ∧ ¬ (l.getLast? = some q ∧ m₀.isEmpty q = true)

/-- What has been copied after one more word is met. -/
def meet (resident : Std.TreeSet Nat) (space : Space) (m₀ : Memory) (l : List Nat) (word : Nat) : Reading (List Nat) :=
  if word = 0 then .ok l
  else if resident.contains word = false then .error (.corrupted word .danglingReference)
  else
    match (headerLeft space m₀ l word).check with
    | .error defect => .error (.corrupted word defect)
    | .ok .unmarked => .ok (l ++ [word])
    | .ok .marked => .error (.corrupted word (.badState (headerLeft space m₀ l word).state))
    | .ok .forwarded =>
      if recognized space m₀ l (headerLeft space m₀ l word).forward then .ok l
      else .error (.corrupted word (.danglingForward (headerLeft space m₀ l word).forward))

/-- What has been copied after the words of a copy are met. A count that is too large is reported in the copy, and
before anything that is wrong with a word. -/
def visit (types : TypeTable) (resident : Std.TreeSet Nat) (space : Space) (m₀ : Memory) (l : List Nat) (p : Nat) :
    Reading (List Nat) :=
  match types.excess m₀ p with
  | some (count, capacity) => .error (.corrupted (copyOf space m₀ l p) (.regionOverflow count capacity))
  | none => ((types.visited m₀ p).map m₀.word).foldlM (meet resident space m₀) l

/-- Look through the copies, from one on. -/
def visitFrom (types : TypeTable) (resident : Std.TreeSet Nat) (space : Space) (m₀ : Memory) :
    (rounds next : Nat) → (l : List Nat) → Reading (List Nat)
  | 0, _, l => .ok l
  | rounds + 1, next, l =>
    match l[next]? with
    | none => .ok l
    | some p => do visitFrom types resident space m₀ rounds (next + 1) (← visit types resident space m₀ l p)

/-- The objects that a collection copies, in the order of copying, or why it fails. -/
def departures (types : TypeTable) (roots : List Slot) (resident : Std.TreeSet Nat) (space : Space) (m₀ : Memory) :
    Reading (List Nat) := do
  let started ← ((distinctSlots roots).map m₀.slot).foldlM (meet resident space m₀) []
  visitFrom types resident space m₀ space.size 0 started

section

variable {types : TypeTable} {resident : Std.TreeSet Nat} {space : Space} {m₀ : Memory} {l l' words : List Nat}
  {word p : Nat}

/-- A word that is met without failure is null, leads to a resident that has been copied or is copied now, or has been
forwarded to a copy before. -/
theorem meet_eq_ok (met : meet resident space m₀ l word = .ok l') : word = 0 ∧ l' = l ∨
    word ≠ 0 ∧ resident.contains word = true ∧
      ((headerLeft space m₀ l word).check = .ok .unmarked ∧ l' = l ++ [word] ∨
        (headerLeft space m₀ l word).check = .ok .forwarded ∧
          recognized space m₀ l (headerLeft space m₀ l word).forward = true ∧ l' = l) := by
  unfold meet at met
  by_cases null : word = 0
  · rw [if_pos null] at met
    cases met
    exact .inl ⟨null, rfl⟩
  · rw [if_neg null] at met
    refine .inr ⟨null, ?_⟩
    by_cases known : resident.contains word = true
    · rw [if_neg (by simp [known])] at met
      refine ⟨known, ?_⟩
      cases check : (headerLeft space m₀ l word).check with
      | error defect => simp only [check] at met; cases met
      | ok state =>
        cases state with
        | unmarked => simp only [check] at met; cases met; exact .inl ⟨rfl, rfl⟩
        | marked => simp only [check] at met; cases met
        | forwarded =>
          simp only [check] at met
          split at met
          · next copy => cases met; exact .inr ⟨rfl, copy, rfl⟩
          · cases met
    · rw [if_pos (eq_false_of_ne_true known)] at met
      cases met

theorem meet_extends (met : meet resident space m₀ l word = .ok l') : l <+: l' := by
  rcases meet_eq_ok met with ⟨-, rfl⟩ | ⟨-, -, ⟨-, rfl⟩ | ⟨-, -, rfl⟩⟩
  · exact List.prefix_refl _
  · exact List.prefix_append _ _
  · exact List.prefix_refl _

theorem foldlM_meet_extends (met : words.foldlM (meet resident space m₀) l = .ok l') : l <+: l' :=
  foldlM_keeps (fun _ _ _ before step => before.trans (meet_extends step)) (List.prefix_refl l) met

theorem visit_of_fits (fits : types.excess m₀ p = none) : visit types resident space m₀ l p =
    ((types.visited m₀ p).map m₀.word).foldlM (meet resident space m₀) l := by
  unfold visit
  rw [fits]

theorem visit_of_excess {count capacity : Nat} (excess : types.excess m₀ p = some (count, capacity)) :
    visit types resident space m₀ l p = .error (.corrupted (copyOf space m₀ l p) (.regionOverflow count capacity)) := by
  unfold visit
  rw [excess]

theorem visit_eq_ok (visited : visit types resident space m₀ l p = .ok l') : types.excess m₀ p = none ∧
    ((types.visited m₀ p).map m₀.word).foldlM (meet resident space m₀) l = .ok l' := by
  unfold visit at visited
  cases excess : types.excess m₀ p with
  | some pair => simp only [excess] at visited; cases visited
  | none => simp only [excess] at visited; exact ⟨rfl, visited⟩

theorem visit_extends (visited : visit types resident space m₀ l p = .ok l') : l <+: l' :=
  foldlM_meet_extends (visit_eq_ok visited).2

end

/-! ### Why a collection fails -/

/-- A resident object with an intact header, which the collection copies if it comes to it. -/
def Movable (resident : Std.TreeSet Nat) (m₀ : Memory) (p : Nat) : Prop := resident.contains p = true ∧ m₀.Unmarked p

section

variable {resident : Std.TreeSet Nat} {space : Space} {m₀ : Memory} {l : List Nat} {word : Nat}

/-- Such an object is copied when it is met first, and found again later. -/
theorem meet_of_movable (value : word ≠ 0) (movable : Movable resident m₀ word) : meet resident space m₀ l word =
    if word ∈ l then
      if recognized space m₀ l (copyOf space m₀ l word) then .ok l
      else .error (.corrupted word (.danglingForward (copyOf space m₀ l word)))
    else .ok (l ++ [word]) := by
  unfold meet
  rw [if_neg value, if_neg (by simp [movable.1])]
  by_cases member : word ∈ l
  · have check : (headerLeft space m₀ l word).check = .ok .forwarded := by
      rw [headerLeft_of_mem member]
      exact Header.check_eq_ok.2 ⟨(Header.check_eq_ok.1 movable.2).1, rfl⟩
    have target : (headerLeft space m₀ l word).forward = copyOf space m₀ l word := by rw [headerLeft_of_mem member]
    simp only [check, target, if_pos member]
  · rw [headerLeft_of_notMem member, if_neg member]
    simp only [show (m₀.header (blockOf word)).check = .ok .unmarked from movable.2]

/-- A copy that is not recognized is the last one, and that of an object without payload. -/
theorem last_of_not_recognized (member : word ∈ l) (unknown : ¬ recognized space m₀ l (copyOf space m₀ l word) = true) :
    l.getLast? = some word ∧ m₀.isEmpty word = true :=
  Decidable.byContradiction fun other =>
    unknown (List.any_eq_true.2 ⟨word, member, decide_eq_true ⟨rfl, other⟩⟩)

end

/-- What a collection stops at when the objects of `l` have been copied: a word, or the count of a region. -/
def Stops (resident : Std.TreeSet Nat) (space : Space) (m₀ : Memory) (l : List Nat) (x : Failure) : Prop :=
  (∃ word, meet resident space m₀ l word = .error x) ∨
    ∃ copy count capacity, x = .corrupted copy (.regionOverflow count capacity)

/-- The words that a collection comes to. -/
abbrev Encountered (types : TypeTable) (roots : List Slot) (resident : Std.TreeSet Nat) (m₀ : Memory) : Nat → Prop :=
  Met types roots (Movable resident m₀) m₀

-- The last cause is none of the objects' fault: a copy that has no payload and ends where the used part of the reserve
-- ends is not recognized.
/-- What a collection can object to. -/
inductive Objection (types : TypeTable) (roots : List Slot) (resident : Std.TreeSet Nat) (m₀ : Memory) : Failure → Prop
  | dangling {word : Nat} : Encountered types roots resident m₀ word → ¬ resident.contains word = true →
      Objection types roots resident m₀ (.corrupted word .danglingReference)
  | damaged {p : Nat} {defect : Corruption} : Encountered types roots resident m₀ p → resident.contains p = true →
      ¬ m₀.Unmarked p → Objection types roots resident m₀ (.corrupted p defect)
  | overflow {p copy count capacity : Nat} : Encountered types roots resident m₀ p → Movable resident m₀ p →
      types.excess m₀ p = some (count, capacity) →
      Objection types roots resident m₀ (.corrupted copy (.regionOverflow count capacity))
  | empty {p target : Nat} : Encountered types roots resident m₀ p → Movable resident m₀ p → m₀.isEmpty p = true →
      Objection types roots resident m₀ (.corrupted p (.danglingForward target))

theorem Objection.corrupted {types : TypeTable} {roots : List Slot} {resident : Std.TreeSet Nat} {m₀ : Memory}
    {x : Failure} (objection : Objection types roots resident m₀ x) : ∃ p defect, x = .corrupted p defect := by
  cases objection with
  | dangling => exact ⟨_, _, rfl⟩
  | damaged => exact ⟨_, _, rfl⟩
  | overflow => exact ⟨_, _, rfl⟩
  | empty => exact ⟨_, _, rfl⟩

section

variable {types : TypeTable} {roots : List Slot} {resident : Std.TreeSet Nat} {space : Space} {m₀ : Memory}
  {live : Nat → Prop} {l words : List Nat} {word p : Nat}

theorem Footing.tracedSlots_eq (footing : Footing types roots resident space m₀ live) (fit : live p ∧ m₀.Unmarked p) :
    types.tracedSlots m₀ p = match types.excess m₀ p with
      | some (count, capacity) => .error (.corrupted p (.regionOverflow count capacity))
      | none => .ok (types.visited m₀ p) := by
  obtain ⟨d, framed⟩ := footing.framed p fit
  exact framed.tracedSlots_eq footing.regular fit.2 (by decide)

/-- A resident that the collection comes to is one that it may come to. -/
theorem Footing.live_of_encountered (footing : Footing types roots resident space m₀ live)
    (encountered : Encountered types roots resident m₀ word) (there : resident.contains word = true) : live word := by
  induction encountered with
  | root root value => exact footing.started _ root value there
  | step _ movable listed within value ih =>
    have fit := And.intro (ih movable.1) movable.2
    rw [footing.tracedSlots_eq fit] at listed
    split at listed
    · cases listed
    · cases listed
      exact footing.led _ fit _ within value there

/-- A word is met: the list is extended by an object that may be copied, or there is an objection. -/
theorem meet_spec (space : Space) (moved : ∀ p ∈ l, Encountered types roots resident m₀ p ∧ Movable resident m₀ p)
    (encountered : word ≠ 0 → Encountered types roots resident m₀ word) :
    match meet resident space m₀ l word with
    | .ok l' => ∀ p ∈ l', Encountered types roots resident m₀ p ∧ Movable resident m₀ p
    | .error x => Objection types roots resident m₀ x := by
  by_cases null : word = 0
  · unfold meet
    rw [if_pos null]
    exact moved
  by_cases there : resident.contains word = true
  · by_cases intact : m₀.Unmarked word
    · rw [meet_of_movable null ⟨there, intact⟩]
      by_cases member : word ∈ l
      · rw [if_pos member]
        by_cases found : recognized space m₀ l (copyOf space m₀ l word) = true
        · rw [if_pos found]
          exact moved
        · rw [if_neg found]
          exact .empty (encountered null) ⟨there, intact⟩ (last_of_not_recognized member found).2
      · rw [if_neg member]
        intro p known
        rcases List.mem_append.1 known with old | new
        · exact moved p old
        · rw [List.mem_singleton.1 new]
          exact ⟨encountered null, there, intact⟩
    · -- What has been copied was intact, so this header is still the one before the collection.
      have left : headerLeft space m₀ l word = m₀.header (blockOf word) :=
        headerLeft_of_notMem fun member => intact (moved word member).2.2
      unfold meet
      rw [if_neg null, if_neg (by simp [there]), left]
      cases check : (m₀.header (blockOf word)).check with
      | error defect => exact .damaged (encountered null) there intact
      | ok state =>
        cases state with
        | unmarked => exact absurd check intact
        | marked => exact .damaged (encountered null) there intact
        | forwarded =>
          simp only []
          by_cases found : recognized space m₀ l (m₀.header (blockOf word)).forward = true
          · rw [if_pos found]
            exact moved
          · rw [if_neg found]
            exact .damaged (encountered null) there intact
  · unfold meet
    rw [if_neg null, if_pos (eq_false_of_ne_true there)]
    exact .dangling (encountered null) there

theorem foldlM_meet_spec (space : Space) (moved : ∀ p ∈ l, Encountered types roots resident m₀ p ∧ Movable resident m₀ p)
    (encountered : ∀ word ∈ words, word ≠ 0 → Encountered types roots resident m₀ word) :
    match words.foldlM (meet resident space m₀) l with
    | .ok l' => ∀ p ∈ l', Encountered types roots resident m₀ p ∧ Movable resident m₀ p
    | .error x => Objection types roots resident m₀ x := by
  induction words generalizing l with
  | nil => exact moved
  | cons word rest ih =>
    have first := meet_spec space moved (encountered word List.mem_cons_self)
    rw [List.foldlM_cons]
    cases met : meet resident space m₀ l word with
    | error x =>
      rw [met] at first
      exact first
    | ok l₁ =>
      rw [met] at first
      exact ih first fun other later => encountered other (List.mem_cons_of_mem word later)

theorem visitFrom_spec (footing : Footing types roots resident space m₀ live) (rounds next : Nat)
    (moved : ∀ p ∈ l, Encountered types roots resident m₀ p ∧ Movable resident m₀ p) :
    match visitFrom types resident space m₀ rounds next l with
    | .ok l' => ∀ p ∈ l', Encountered types roots resident m₀ p ∧ Movable resident m₀ p
    | .error x => Objection types roots resident m₀ x := by
  induction rounds generalizing next l with
  | zero => exact moved
  | succ rounds ih =>
    rw [visitFrom]
    cases at' : l[next]? with
    | none => exact moved
    | some p =>
      obtain ⟨encountered, movable⟩ := moved p (List.mem_of_getElem? at')
      cases excess : types.excess m₀ p with
      | some pair =>
        simp only [visit_of_excess excess]
        exact .overflow encountered movable excess
      | none =>
        have fit := And.intro (footing.live_of_encountered encountered movable.1) movable.2
        have listed := footing.tracedSlots_eq fit
        rw [excess] at listed
        have step := foldlM_meet_spec space moved fun word (known : word ∈ (types.visited m₀ p).map m₀.word) value => by
          obtain ⟨a, within, rfl⟩ := List.mem_map.1 known
          exact .step encountered movable listed within value
        simp only [visit_of_fits excess]
        cases met : ((types.visited m₀ p).map m₀.word).foldlM (meet resident space m₀) l with
        | error x =>
          rw [met] at step
          exact step
        | ok l₁ =>
          rw [met] at step
          exact ih (next + 1) step

/-- A collection that fails has come to something that it objects to. -/
theorem departures_spec (footing : Footing types roots resident space m₀ live) :
    match departures types roots resident space m₀ with
    | .ok l => ∀ p ∈ l, Encountered types roots resident m₀ p ∧ Movable resident m₀ p
    | .error x => Objection types roots resident m₀ x := by
  have started (word : Nat) (known : word ∈ (distinctSlots roots).map m₀.slot) (value : word ≠ 0) :
      Encountered types roots resident m₀ word := by
    obtain ⟨s, root, rfl⟩ := List.mem_map.1 known
    exact .root (mem_distinctSlots.1 root) value
  have first := foldlM_meet_spec space (fun p none => absurd none List.not_mem_nil) started
  unfold departures
  cases met : ((distinctSlots roots).map m₀.slot).foldlM (meet resident space m₀) [] with
  | error x =>
    rw [met] at first
    exact first
  | ok l =>
    rw [met] at first
    exact visitFrom_spec footing space.size 0 first

end

/-! ### What the outcome follows from -/

section

variable {types : TypeTable} {roots : List Slot} {resident : Std.TreeSet Nat} {space : Space} {m₀ m : Memory}
  {l l' words : List Nat} {word : Nat}

theorem resident_of_meet (moved : ∀ p ∈ l, resident.contains p = true) (met : meet resident space m₀ l word = .ok l') :
    ∀ p ∈ l', resident.contains p = true := by
  rcases meet_eq_ok met with ⟨-, rfl⟩ | ⟨-, there, ⟨-, rfl⟩ | ⟨-, -, rfl⟩⟩
  · exact moved
  · intro p member
    rcases List.mem_append.1 member with old | new
    · exact moved p old
    · exact List.mem_singleton.1 new ▸ there
  · exact moved

theorem resident_of_foldlM_meet (moved : ∀ p ∈ l, resident.contains p = true)
    (met : words.foldlM (meet resident space m₀) l = .ok l') : ∀ p ∈ l', resident.contains p = true :=
  foldlM_keeps (P := fun l => ∀ p ∈ l, resident.contains p = true) (fun _ _ _ before step => resident_of_meet before step)
    moved met

variable (alike : Alike types roots (resident.contains · = true) m₀ m)

include alike

theorem meet_congr (moved : ∀ p ∈ l, resident.contains p = true) (word : Nat) :
    meet resident space m l word = meet resident space m₀ l word := by
  have copies : copyOf space m l = copyOf space m₀ l :=
    copyOf_congr fun q member => congrArg footprint (alike.payloadSize_eq (moved q member))
  have found : recognized space m l = recognized space m₀ l := by
    funext target
    rw [recognized, recognized, copies, Bool.eq_iff_iff, List.any_eq_true, List.any_eq_true]
    refine exists_congr fun q => and_congr_right fun member => ?_
    have empty : m.isEmpty q = m₀.isEmpty q := by
      rw [Memory.isEmpty, alike.payloadSize_eq (moved q member), Memory.isEmpty]
    rw [empty]
  unfold meet
  by_cases there : resident.contains word = true
  · have header : headerLeft space m l word = headerLeft space m₀ l word := by
      unfold headerLeft
      rw [alike.header word there, copies]
    rw [found, header]
  · simp only [eq_false_of_ne_true there, if_true]

theorem foldlM_meet_congr (moved : ∀ p ∈ l, resident.contains p = true) :
    words.foldlM (meet resident space m) l = words.foldlM (meet resident space m₀) l := by
  induction words generalizing l with
  | nil => rw [List.foldlM_nil, List.foldlM_nil]
  | cons word rest ih =>
    rw [List.foldlM_cons, List.foldlM_cons, meet_congr alike moved]
    cases met : meet resident space m₀ l word with
    | error x => simp only [bind, Except.bind]
    | ok l₁ => exact ih (resident_of_meet moved met)

variable (intact : Intact types (resident.contains · = true) m₀)

include intact

theorem visitFrom_congr (moved : ∀ p ∈ l, resident.contains p = true) (rounds next : Nat) :
    visitFrom types resident space m rounds next l = visitFrom types resident space m₀ rounds next l := by
  induction rounds generalizing next l with
  | zero => rfl
  | succ rounds ih =>
    rw [visitFrom, visitFrom]
    cases at' : l[next]? with
    | none => rfl
    | some p =>
      obtain ⟨count, words⟩ := alike.visited_eq intact (moved p (List.mem_of_getElem? at'))
      have same : visit types resident space m l p = visit types resident space m₀ l p := by
        cases excess : types.excess m₀ p with
        | some pair =>
          rw [visit_of_excess excess, visit_of_excess (count.trans excess),
            copyOf_congr fun q member => congrArg footprint (alike.payloadSize_eq (moved q member))]
        | none =>
          rw [visit_of_fits excess, visit_of_fits (count.trans excess), words excess, foldlM_meet_congr alike moved]
      simp only [same]
      cases visited : visit types resident space m₀ l p with
      | error x => simp only [bind, Except.bind]
      | ok l₁ => exact ih (resident_of_foldlM_meet moved (visit_eq_ok visited).2) (next + 1)

/-- The outcome is the same for memories that are alike where the collector may look. -/
theorem departures_congr :
    departures types roots resident space m = departures types roots resident space m₀ := by
  have none (p : Nat) (member : p ∈ []) : resident.contains p = true := absurd member List.not_mem_nil
  have words : (distinctSlots roots).map m.slot = (distinctSlots roots).map m₀.slot :=
    List.map_congr_left fun s member => alike.roots s (mem_distinctSlots.1 member)
  unfold departures
  rw [words, foldlM_meet_congr alike none]
  cases met : ((distinctSlots roots).map m₀.slot).foldlM (meet resident space m₀) [] with
  | error x => simp only [bind, Except.bind]
  | ok l => exact visitFrom_congr alike intact (resident_of_foldlM_meet none met) space.size 0

end

/-! ### Where all that can be reached is in order -/

namespace Departure

variable {types : TypeTable} {roots : List Slot} {resident : Std.TreeSet Nat} {space : Space} {m₀ : Memory}
  {l words : List Nat} {word p : Nat} (departure : Departure types roots resident space m₀)

include departure

/-- The copy of an object that has been copied is recognized, unless it is the last one and empty. -/
theorem recognized_copy (reached : ∀ p ∈ l, Reach types roots m₀ p) (member : word ∈ l) :
    recognized space m₀ l (copyOf space m₀ l word) = true ↔ ¬ (l.getLast? = some word ∧ m₀.isEmpty word = true) := by
  rw [recognized, List.any_eq_true]
  constructor
  · rintro ⟨q, known, shown⟩
    obtain ⟨equal, other⟩ := of_decide_eq_true shown
    have fit (p : Nat) (known : p ∈ l) := And.intro (reached p known) (departure.consistent.unmarked p (reached p known))
    exact departure.footing.copyOf_injective fit known member equal ▸ other
  · exact fun other => ⟨word, member, decide_eq_true ⟨rfl, other⟩⟩

theorem meet_eq (reached : ∀ p ∈ l, Reach types roots m₀ p) (fine : word ≠ 0 → Reach types roots m₀ word) :
    match CopyOrder.follow m₀.isEmpty l word with
    | some l' => meet resident space m₀ l word = .ok l'
    | none => ∃ target, meet resident space m₀ l word = .error (.corrupted word (.danglingForward target)) := by
  unfold CopyOrder.follow
  by_cases null : word = 0
  · simp only [null, meet, if_true]
  · have movable : Movable resident m₀ word :=
      ⟨departure.footing.known word (fine null), departure.consistent.unmarked word (fine null)⟩
    rw [meet_of_movable null movable, if_neg null]
    by_cases member : word ∈ l
    · have copy := departure.recognized_copy reached member
      rw [if_pos member, if_pos member]
      by_cases stuck : l.getLast? = some word ∧ m₀.isEmpty word = true
      · rw [if_pos stuck, if_neg fun found => (copy.1 found) stuck]
        exact ⟨_, rfl⟩
      · rw [if_neg stuck, if_pos (copy.2 stuck)]
    · rw [if_neg member, if_neg member]

theorem foldlM_meet_eq (reached : ∀ p ∈ l, Reach types roots m₀ p)
    (fine : ∀ word ∈ words, word ≠ 0 → Reach types roots m₀ word) :
    match CopyOrder.followAll m₀.isEmpty l words with
    | some l' => words.foldlM (meet resident space m₀) l = .ok l' ∧ ∀ p ∈ l', Reach types roots m₀ p
    | none => ∃ q target, words.foldlM (meet resident space m₀) l = .error (.corrupted q (.danglingForward target)) := by
  induction words generalizing l with
  | nil => exact ⟨rfl, reached⟩
  | cons word rest ih =>
    have here := departure.meet_eq reached (fine word List.mem_cons_self)
    rw [CopyOrder.followAll, List.foldlM_cons]
    cases followed : CopyOrder.follow m₀.isEmpty l word with
    | none =>
      rw [followed] at here
      obtain ⟨target, failed⟩ := here
      exact ⟨word, target, by rw [failed]; rfl⟩
    | some l₁ =>
      rw [followed] at here
      rw [here]
      refine ih (fun p member => ?_) fun other later => fine other (List.mem_cons_of_mem word later)
      rcases CopyOrder.mem_of_follow followed member with old | ⟨rfl, value⟩
      · exact reached p old
      · exact fine p List.mem_cons_self value

theorem visitFrom_eq (reached : ∀ p ∈ l, Reach types roots m₀ p) (rounds next : Nat) :
    match CopyOrder.scan m₀.isEmpty (types.references m₀) rounds next l with
    | some l' => visitFrom types resident space m₀ rounds next l = .ok l'
    | none => ∃ q target, visitFrom types resident space m₀ rounds next l =
        .error (.corrupted q (.danglingForward target)) := by
  induction rounds generalizing next l with
  | zero => rfl
  | succ rounds ih =>
    rw [CopyOrder.scan, visitFrom]
    cases at' : l[next]? with
    | none => simp only []
    | some p =>
      have reach := reached p (List.mem_of_getElem? at')
      obtain ⟨slots, listed⟩ := departure.consistent.listed p reach
      obtain ⟨rfl, -⟩ := departure.consistent.toIntact.eq_visited reach listed
      have leads (word : Nat) (member : word ∈ (types.visited m₀ p).map m₀.word) (value : word ≠ 0) :
          Reach types roots m₀ word := by
        obtain ⟨a, within, rfl⟩ := List.mem_map.1 member
        exact .step reach listed within value
      have met := departure.foldlM_meet_eq reached leads
      have fits := departure.consistent.toIntact.excess_eq_none reach listed
      simp only [departure.consistent.references_eq reach listed, visit_of_fits fits]
      cases followed : CopyOrder.followAll m₀.isEmpty l ((types.visited m₀ p).map m₀.word) with
      | none =>
        rw [followed] at met
        obtain ⟨q, target, failed⟩ := met
        simp only [failed, bind, Except.bind]
        exact ⟨q, target, rfl⟩
      | some l₁ =>
        rw [followed] at met
        simp only [met.1, bind, Except.bind]
        exact ih met.2 (next + 1)

/-- Then the outcome is the order of copying, and an empty object is all that can go wrong. -/
theorem departures_eq : match copyOrder types roots m₀ space.size with
    | some l => departures types roots resident space m₀ = .ok l
    | none => ∃ q target, departures types roots resident space m₀ = .error (.corrupted q (.danglingForward target)) := by
  have started (word : Nat) (member : word ∈ (distinctSlots roots).map m₀.slot) (value : word ≠ 0) :
      Reach types roots m₀ word := by
    obtain ⟨s, root, rfl⟩ := List.mem_map.1 member
    exact .root (mem_distinctSlots.1 root) value
  have met := departure.foldlM_meet_eq (fun p (none : p ∈ []) => absurd none List.not_mem_nil) started
  unfold copyOrder departures
  cases followed : CopyOrder.followAll m₀.isEmpty [] ((distinctSlots roots).map m₀.slot) with
  | none =>
    rw [followed] at met
    obtain ⟨q, target, failed⟩ := met
    exact ⟨q, target, by rw [failed]; rfl⟩
  | some l =>
    rw [followed] at met
    rw [met.1]
    exact departure.visitFrom_eq met.2 space.size 0

end Departure

end TracingHeap
