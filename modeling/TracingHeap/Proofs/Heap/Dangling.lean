import TracingHeap.Proofs.Copying.Exactness
import TracingHeap.Proofs.Heap.Changes
import TracingHeap.Proofs.Heap.Outcome
import TracingHeap.Proofs.Heap.Scripts

/-! References that lead nowhere.

Any number may stand where a reference is expected. Neither a collection nor the check of a heap follows one that leads
to no held object, and both report it. -/

set_option autoImplicit false

namespace TracingHeap

namespace World

variable {w : World} {m' : Memory}

/-- The references in a heap, in the roots and in the traced slots of the held objects. -/
inductive Stored (w : World) : Nat → Prop
  | root {s : Slot} : s ∈ w.heap.roots.slots → w.memory.slot s ≠ 0 → Stored w (w.memory.slot s)
  | field {p a : Nat} {slots : List Nat} : w.Held p → w.heap.types.tracedSlots w.memory p = .ok slots → a ∈ slots →
      w.memory.word a ≠ 0 → Stored w (w.memory.word a)

-- Without empty objects there always is one.
/-- If the collection moves the objects, they have an order of copying. -/
def Ordered (w : World) : Prop :=
  ∀ c, w.heap.collector.engine = .copying c →
    ∃ l, copyOrder w.heap.types w.heap.roots.slots w.memory c.spaces.size = some l

/-- A memory in which the heap could be instead: it has the same in the roots, and in the headers and the traced words
of the held objects. -/
abbrev Alike (w : World) (m' : Memory) : Prop :=
  TracingHeap.Alike w.heap.types w.heap.roots.slots w.Held w.memory m'

theorem Alike.books (alike : w.Alike m') (books : w.Books) : Books { w with memory := m' } :=
  ⟨books.regular.of_sameShape alike.shape, books.types, books.ledger.of_sameShape alike.shape⟩

theorem Alike.headed (alike : w.Alike m') (headed : w.Headed) : Headed { w with memory := m' } := by
  constructor
  case unmarked =>
    intro p holds
    rw [alike.header p holds]
    exact headed.unmarked p holds
  case typed =>
    intro p holds
    show ∃ d, w.heap.types.get? (m'.header (blockOf p)).typeId = some d ∧ d.fixedSize ≤ m'.payloadSize p ∧
      m'.payloadSize p ≤ largestPayload
    rw [alike.header p holds, alike.payloadSize_eq holds]
    exact headed.typed p holds
  case fits => exact headed.fits.congr fun p => alike.payloadSize_eq
  case outside =>
    intro s root
    obtain ⟨i, cell, below⟩ := headed.outside s root
    exact ⟨i, cell, by rw [← alike.shape.cells] at below; exact below⟩

/-- What the collection comes to does not depend on what stands elsewhere. -/
theorem Alike.verdict_eq (alike : w.Alike m') (books : w.Books) (headed : w.Headed) :
    verdict { w with memory := m' } = w.verdict := by
  have intact := headed.intact books
  unfold verdict
  show Engine.verdict w.heap.types w.heap.roots.slots m' w.heap.collector.engine = _
  cases engine : w.heap.collector.engine with
  | markSweep c =>
    unfold Alike Held at alike
    rw [engine] at alike
    rw [Engine.verdict, Engine.verdict, MarkSweep.survivors_congr alike]
  | copying c =>
    have spec := departures_spec (Copying.footing_of_headed books headed engine)
    unfold Alike Held at alike
    rw [engine] at alike intact
    rw [Engine.verdict, Engine.verdict, departures_congr alike intact]
    cases found : departures w.heap.types w.heap.roots.slots c.resident c.spaces.reserve w.memory with
    | error x => simp only [Except.map]
    | ok l =>
      rw [found] at spec
      have same : l.map m'.blockSize = l.map w.memory.blockSize :=
        List.map_congr_left fun p member => congrArg footprint (alike.payloadSize_eq (spec p member).2.1)
      simp only [Except.map, same]
  | leaky c => rfl

/-- A collection has a report exactly if all words that it meets lead to held objects, and those that it moves have an
order. -/
theorem verdict_ok_iff (books : w.Books) (headed : w.Headed) (traces : w.heap.collector.engine.strategy ≠ .leaky)
    (counted : ∀ p, w.Held p → ∃ slots, w.heap.types.tracedSlots w.memory p = .ok slots) :
    (∃ report, w.verdict = .ok report) ↔ (∀ word, w.Met word → w.Held word) ∧ w.Ordered := by
  have spec := Engine.collect_headed books headed traces
  have agreed (c : Copying) (engine : w.heap.collector.engine = .copying c) (met : ∀ word, w.Met word → w.Held word) :=
    Copying.departures_eq books engine (headed.rooted engine met fun p known => counted p (met p known))
  constructor
  · rintro ⟨report, found⟩
    rw [found] at spec
    obtain ⟨e, m, -, renewed⟩ := spec
    refine ⟨renewed.met, fun c engine => ?_⟩
    have agreed := agreed c engine renewed.met
    cases order : copyOrder w.heap.types w.heap.roots.slots w.memory c.spaces.size with
    | some l => exact ⟨l, rfl⟩
    | none =>
      rw [order] at agreed
      obtain ⟨q, target, failed⟩ := agreed
      rw [World.verdict, engine, Engine.verdict, failed] at found
      cases found
  · rintro ⟨met, ordered⟩
    cases found : w.verdict with
    | ok report => exact ⟨report, rfl⟩
    | error x =>
      rw [found] at spec
      cases spec.1 with
      | dangling word lost => exact absurd (met _ word) lost
      | overflow word holds excess =>
        obtain ⟨slots, listed⟩ := counted _ holds
        rw [(headed.intact books).excess_eq_none holds listed] at excess
        cases excess
      | empty strategy =>
        cases engine : w.heap.collector.engine with
        | copying c =>
          obtain ⟨l, order⟩ := ordered c engine
          have agreed := agreed c engine met
          rw [order] at agreed
          rw [World.verdict, engine, Engine.verdict, agreed] at found
          cases found
        | markSweep c => rw [engine] at strategy; cases strategy
        | leaky c => rw [engine] at strategy; cases strategy

/-- The check of the heap looks at the same references. -/
theorem stored_iff (books : w.Books) (headed : w.Headed)
    (counted : ∀ p, w.Held p → ∃ slots, w.heap.types.tracedSlots w.memory p = .ok slots) {word : Nat} :
    w.Stored word ↔ word ≠ 0 ∧ word ∈ w.followedWords := by
  have intact := headed.intact books
  unfold followedWords TypeTable.followedWords
  rw [List.mem_append, List.mem_flatMap, List.mem_map]
  constructor
  · intro stored
    cases stored with
    | root root value => exact ⟨value, .inr ⟨_, root, rfl⟩⟩
    | field holds listed within value =>
      obtain ⟨rfl, -⟩ := intact.eq_visited holds listed
      exact ⟨value, .inl ⟨_, Engine.mem_list.2 holds, List.mem_map_of_mem within⟩⟩
  · rintro ⟨value, ⟨p, held, within⟩ | ⟨s, root, rfl⟩⟩
    · obtain ⟨a, place, rfl⟩ := List.mem_map.1 within
      have holds := Engine.mem_list.1 held
      obtain ⟨slots, listed⟩ := counted p holds
      obtain ⟨rfl, -⟩ := intact.eq_visited holds listed
      exact .field holds listed place value
    · exact .root root value

end World

namespace Heap

variable {w : World}

theorem answer_collect (books : w.Books) (healthy : w.heap.poisoned = none) (headed : w.Headed)
    (traces : w.heap.collector.engine.strategy ≠ .leaky) : answer (collect w) = w.verdict := by
  have spec := collect_headed books healthy headed traces
  cases found : w.verdict with
  | ok report =>
    rw [found] at spec
    obtain ⟨e, m, -, collected, -⟩ := spec
    rw [collected]
    rfl
  | error x =>
    rw [found] at spec
    obtain ⟨-, _, w', -, failed, -⟩ := spec
    rw [failed]
    rfl

/-- The check of a heap passes, or it reports a reference that leads to no held object. -/
theorem verify_finds_dangling (books : w.Books) (headed : w.Headed)
    (counted : ∀ p, w.Held p → ∃ slots, w.heap.types.tracedSlots w.memory p = .ok slots) :
    match verify w with
    | .ok _ w' => w' = w ∧ ∀ word, w.Stored word → w.Held word
    | .error x w' => w' = w ∧ ∃ word, w.Stored word ∧ ¬ w.Held word ∧ x = .corrupted word .danglingReference := by
  have stored (word : Nat) : w.Stored word ↔ word ≠ 0 ∧ word ∈ w.followedWords :=
    World.stored_iff books headed counted
  rw [verify_eq books headed counted]
  cases found : w.followedWords.find? (¬ w.IsReference ·) with
  | some word =>
    have stray := List.find?_some found
    rw [decide_eq_true_eq, World.IsReference, not_or] at stray
    exact ⟨rfl, word, (stored word).2 ⟨stray.1, List.mem_of_find?_eq_some found⟩, stray.2, rfl⟩
  | none =>
    refine ⟨rfl, fun word known => ?_⟩
    obtain ⟨value, member⟩ := (stored word).1 known
    have fine := List.find?_eq_none.1 found word member
    rw [decide_eq_true_eq, Decidable.not_not] at fine
    exact fine.resolve_left value

-- The order of copying is the exception that empty objects are. Where all words lead to held objects, it alone decides.
/-- In every state that a heap can reach in which the headers and the counts of the held objects are in order, whatever
words stand in the roots and in the objects: a collection succeeds if all words that it meets lead to held objects, and
otherwise it reports one that does not, without looking at what stands there. The check of the heap does the same with
all references in it. -/
theorem collect_finds_dangling (reached : Reached w) (healthy : w.heap.poisoned = none) (headed : w.Headed)
    (counted : ∀ p, w.Held p → ∃ slots, w.heap.types.tracedSlots w.memory p = .ok slots) :
    (w.heap.collector.engine.strategy ≠ .leaky →
      ((∃ report w', collect w = .ok report w') ↔ (∀ word, w.Met word → w.Held word) ∧ w.Ordered) ∧
      (∀ x w', collect w = .error x w' →
        (∃ word, w.Met word ∧ ¬ w.Held word ∧ x = .corrupted word .danglingReference) ∨
          ∃ p target, w.heap.collector.engine.strategy = .copying ∧ w.Met p ∧ w.Held p ∧ w.memory.isEmpty p = true ∧
            x = .corrupted p (.danglingForward target)) ∧
      ∀ m', w.Alike m' → answer (collect { w with memory := m' }) = answer (collect w)) ∧
    match verify w with
    | .ok _ w' => w' = w ∧ ∀ word, w.Stored word → w.Held word
    | .error x w' => w' = w ∧ ∃ word, w.Stored word ∧ ¬ w.Held word ∧ x = .corrupted word .danglingReference := by
  have books := reached.orderly healthy
  refine ⟨fun traces => ⟨?_, fun x w' failed => ?_, fun m' alike => ?_⟩, verify_finds_dangling books headed counted⟩
  · rw [← World.verdict_ok_iff books headed traces counted, ← answer_collect books healthy headed traces]
    constructor
    · rintro ⟨report, w', collected⟩
      exact ⟨report, by rw [collected]; rfl⟩
    · rintro ⟨report, answered⟩
      cases collected : collect w with
      | ok report' w' => exact ⟨report', w', rfl⟩
      | error x w' => rw [collected] at answered; cases answered
  · have spec := collect_headed books healthy headed traces
    rw [← answer_collect books healthy headed traces, failed] at spec
    cases spec.1 with
    | dangling word lost => exact .inl ⟨_, word, lost, rfl⟩
    | overflow word holds excess =>
      obtain ⟨slots, listed⟩ := counted _ holds
      rw [(headed.intact books).excess_eq_none holds listed] at excess
      cases excess
    | empty strategy word holds empty => exact .inr ⟨_, _, strategy, word, holds, empty, rfl⟩
  · rw [answer_collect (alike.books books) healthy (alike.headed headed) traces,
      answer_collect books healthy headed traces, alike.verdict_eq books headed]

/-- The element of an array is the address of the element itself, which lies inside the array. -/
theorem collect_finds_interior : ∃ w word, Reached w ∧ w.heap.poisoned = none ∧ w.Headed ∧
    w.heap.collector.engine.list = [Memory.origin + 24] ∧ word = Memory.origin + 32 ∧ w.memory.word word = word ∧
    (∃ other w', collect w = .error (.corrupted other .danglingReference) w' ∧ w.Met other ∧ ¬ w.Held other) ∧
    (∀ m', w.Alike m' → answer (collect { w with memory := m' }) = answer (collect w)) ∧
    ∃ other, verify w = .error (.corrupted other .danglingReference) w ∧ w.Stored other ∧ ¬ w.Held other := by
  have ran : ((World.play (fun w _ => w.heap.poisoned = none) { heapSize := 4096 } 1
      [.call (.register .references Descriptor.references_isWords), .call .pushRoot, .call (.addRoot ⟨0, 0⟩ (.cell 0)),
        .call (.allocateArray ⟨1⟩ 1), .setCell 0 (Memory.origin + 24),
        .writeWord (Memory.origin + 24) 8 (Memory.origin + 32)]).any fun w =>
      w.heap.poisoned = none ∧ w.Headed ∧ w.heap.collector.engine.strategy = .markSweep ∧
        w.heap.collector.engine.list = [Memory.origin + 24] ∧
        (∃ slots, w.heap.types.tracedSlots w.memory (Memory.origin + 24) = .ok slots ∧ Memory.origin + 32 ∈ slots) ∧
        w.memory.word (Memory.origin + 32) = Memory.origin + 32 ∧
        ∃ s ∈ w.heap.roots.slots, w.memory.slot s = Memory.origin + 24) = true := by
    decide +kernel
  obtain ⟨w, played, shown⟩ := (Option.any_eq_true _ _).1 ran
  obtain ⟨healthy, headed, strategy, list, ⟨slots, listed, within⟩, word, s, root, leads⟩ := of_decide_eq_true shown
  have reached := Reached.of_play played
  have held (p : Nat) : w.Held p ↔ p = Memory.origin + 24 := by
    rw [World.Held, ← Engine.mem_list, list, List.mem_singleton]
  have array : w.Held (Memory.origin + 24) := (held _).2 rfl
  have lost : ¬ w.Held (Memory.origin + 32) := fun holds => absurd ((held _).1 holds) (by decide)
  have first : w.Met (Memory.origin + 24) := leads ▸ .root root (leads ▸ by decide)
  have value : w.memory.word (Memory.origin + 32) ≠ 0 := by rw [word]; decide
  have second : w.Met (w.memory.word (Memory.origin + 32)) := .step first array listed within value
  have stored : w.Stored (w.memory.word (Memory.origin + 32)) := .field array listed within value
  rw [word] at second stored
  obtain ⟨collecting, checked⟩ := collect_finds_dangling reached healthy headed fun p holds =>
    ⟨slots, (held p).1 holds ▸ listed⟩
  obtain ⟨succeeds, fails, same⟩ := collecting (by rw [strategy]; decide)
  refine ⟨w, _, reached, healthy, headed, list, rfl, word, ?_, same, ?_⟩
  · cases collected : collect w with
    | ok report w' => exact absurd ((succeeds.1 ⟨report, w', collected⟩).1 _ second) lost
    | error x w' =>
      rcases fails x w' collected with ⟨other, met, stray, rfl⟩ | ⟨p, target, moves, -⟩
      · exact ⟨other, w', rfl, met, stray⟩
      · rw [strategy] at moves
        cases moves
  · cases verified : verify w with
    | ok found w' =>
      rw [verified] at checked
      exact absurd (checked.2 _ stored) lost
    | error x w' =>
      rw [verified] at checked
      obtain ⟨rfl, other, known, stray, rfl⟩ := checked
      exact ⟨other, rfl, known, stray⟩

/-- Every word that the collection meets leads to a held object, one of them twice to an object without payload. The
collection reports that one as dangling. -/
theorem collect_rejects_empty : ∃ w p, Reached w ∧ w.heap.poisoned = none ∧ w.Headed ∧
    w.heap.collector.engine.strategy = .copying ∧
    (∀ q, w.Held q → ∃ slots, w.heap.types.tracedSlots w.memory q = .ok slots) ∧ (∀ word, w.Met word → w.Held word) ∧
    ∃ target w', collect w = .error (.corrupted p (.danglingForward target)) w' := by
  have ran : ((World.play (fun w _ => w.heap.poisoned = none) { strategy := .copying, heapSize := 4096 } 3
      [.call (.register .empty Descriptor.empty_isWords), .call (.register .link Descriptor.link_isWords),
        .call .pushRoot, .call (.addRoot ⟨0, 0⟩ (.cell 0)), .call (.addRoot ⟨0, 0⟩ (.cell 1)),
        .call (.addRoot ⟨0, 0⟩ (.cell 2)), .call (.allocate ⟨1⟩ 0), .setCell 0 (Memory.origin + 24),
        .setCell 1 (Memory.origin + 24), .call (.allocate ⟨2⟩ 0), .setCell 2 (Memory.origin + 48),
        .call (.allocate ⟨2⟩ 0), .writeWord (Memory.origin + 80) 0 (Memory.origin + 84)]).any fun w =>
      w.onCopying fun c => w.heap.poisoned = none ∧ w.Headed ∧
        (∀ p ∈ w.heap.collector.engine.list, ∃ slots, w.heap.types.tracedSlots w.memory p = .ok slots) ∧
        Copying.RootedOn w.heap.types w.heap.roots.slots c w.memory [Memory.origin + 24, Memory.origin + 48] ∧
        w.heap.roots.slots.Nodup ∧
        (CopyOrder.followAll w.memory.isEmpty [] (w.heap.roots.slots.map w.memory.slot)).isNone) = true := by
    decide +kernel
  obtain ⟨w, played, shown⟩ := (Option.any_eq_true _ _).1 ran
  obtain ⟨c, engine, shown⟩ := World.onCopying_eq_true.1 shown
  obtain ⟨healthy, headed, listed, on, nodup, order⟩ := of_decide_eq_true shown
  have reached := Reached.of_play played
  have rooted := Copying.Rooted.of_list on
  have unanswered : copyOrder w.heap.types w.heap.roots.slots w.memory c.spaces.size = none := by
    rw [copyOrder, distinctSlots_of_nodup nodup, Option.isNone_iff_eq_none.1 order, Option.bind_none]
  obtain ⟨p, target, w', collected, -⟩ :=
    Copying.collect_stuck (reached.orderly healthy) engine rooted healthy unanswered
  refine ⟨w, p, reached, healthy, headed, by rw [engine]; rfl, fun q holds => listed q (Engine.mem_list.2 holds),
    fun word met => ?_, target, w', collected⟩
  show w.heap.collector.engine.Held word
  rw [engine]
  exact rooted.known met.reach

end Heap

end TracingHeap
