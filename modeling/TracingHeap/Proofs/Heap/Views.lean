import TracingHeap.Proofs.Heap.Tending

/-! The views of what a heap holds.

A heap is asked whether it holds an object, it counts its objects, and it walks over them. The first two look at the books
of the collector, and the walk looks at the headers in memory. They agree, but for an object without payload that was
allocated last in a heap that moves its objects. -/

set_option autoImplicit false

namespace TracingHeap

theorem Tiled.blockOf_eq {m : Memory} {stop block p : Nat} {objects : List Nat} (tiled : Tiled m stop block objects)
    (member : p ∈ objects) : blockOf p = placed m.blockSize block objects p := by
  induction objects generalizing block with
  | nil => cases member
  | cons q rest ih =>
    obtain ⟨rfl, later⟩ := Tiled.cons_iff.1 tiled
    rw [placed]
    split
    · next same => rw [← same, blockOf_payloadOf]
    · next other => exact ih later ((List.mem_cons.1 member).resolve_left (Ne.symm other))

namespace Engine

variable {e : Engine} {types : TypeTable} {m : Memory}

theorem sorted_list (e : Engine) : e.list.Pairwise (· < ·) := by
  cases e with
  | markSweep c =>
    refine List.pairwise_map.2 (Std.TreeMap.ordered_keys.imp fun less => ?_)
    exact Nat.add_lt_add_right (Nat.compare_eq_lt.1 less) _
  | copying c => exact Std.TreeSet.ordered_toList.imp fun less => Nat.compare_eq_lt.1 less
  | leaky c => exact Std.TreeSet.ordered_toList.imp fun less => Nat.compare_eq_lt.1 less

theorem length_list (e : Engine) : e.list.length = e.objectCount := by
  cases e with
  | markSweep c =>
    show (c.records.keys.map payloadOf).length = c.records.size
    rw [List.length_map, Std.TreeMap.length_keys]
  | copying c => exact Std.TreeSet.length_toList
  | leaky c => exact Std.TreeSet.length_toList

/-- The space that an engine fills from the bottom up. -/
def space? : Engine → Option Space
  | markSweep _ => none
  | copying c => some c.spaces.active
  | leaky c => some c.space

namespace Charted

variable (charted : e.Charted types m)

include charted

theorem tiled {s : Space} (space : e.space? = some s) : Tiled m s.top s.start e.list := by
  have fits := charted.fits
  cases e with
  | markSweep c => cases space
  | copying c => cases space; exact fits
  | leaky c => cases space; exact fits

theorem total {s : Space} (space : e.space? = some s) : (e.list.map m.blockSize).sum = e.liveBytes := by
  have whole := (charted.tiled space).total
  unfold Space.top at whole
  cases e with
  | markSweep c => cases space
  | copying c => cases space; exact Nat.add_left_cancel whole
  | leaky c => cases space; exact Nat.add_left_cancel whole

-- The payload address of an object without payload is the end of its block. At the end of the space it is out of range.
/-- An engine knows what it holds, unless it moves it and it is empty and comes last. -/
theorem owns_iff (word : Nat) : e.owns word = true ↔ word ∈ e.list ∧
    ¬ (e.strategy = .copying ∧ e.list.getLast? = some word ∧ m.isEmpty word = true) := by
  cases engine : e with
  | markSweep c =>
    rw [mem_list]
    exact ⟨fun owns => ⟨owns, fun moves => nomatch moves.1⟩, And.left⟩
  | leaky c =>
    rw [mem_list]
    exact ⟨fun owns => ⟨owns, fun moves => nomatch moves.1⟩, And.left⟩
  | copying c =>
    subst engine
    show (c.spaces.active.contains word && c.resident.contains word) = true ↔ _
    rw [Bool.and_eq_true, and_comm, mem_list]
    refine and_congr_right fun holds => ?_
    have member : word ∈ (copying c).list := mem_list.2 holds
    have tiled := charted.tiled rfl
    have bounds := tiled.bounds member
    have last : placed m.blockSize c.spaces.active.start (copying c).list word + m.blockSize word =
        c.spaces.active.start + ((copying c).list.map m.blockSize).sum ↔ (copying c).list.getLast? = some word :=
      placed_end charted.positive ((sorted_list (.copying c)).imp Nat.ne_of_lt) member
    rw [← tiled.blockOf_eq member, tiled.total] at last
    obtain ⟨d, -, -, small⟩ := (charted.legible word holds).typed
    have size : m.blockSize word = (headerSize + m.payloadSize word + 7) / wordSize * wordSize := footprint_eq small
    rw [← last, Space.contains_iff]
    simp only [strategy, true_and, Memory.isEmpty, payloadOf, blockOf, headerSize, wordSize, decide_eq_true_eq] at *
    omega

theorem held_of_owns {word : Nat} (owns : e.owns word = true) : e.Held word :=
  mem_list.1 ((charted.owns_iff word).1 owns).1

theorem readObject_eq {p : Nat} (holds : e.Held p) : ∃ state, m.readObject p = .ok (m.header (blockOf p), state) := by
  obtain ⟨state, check⟩ := (charted.legible p holds).readable
  have readable : m.holds (blockOf p) wordSize = true :=
    Memory.holds_of_range charted.regular (charted.holds_header holds) (Nat.le_refl _)
      (Nat.add_le_add_left (by decide) _)
  refine ⟨state, ?_⟩
  simp only [Memory.readObject, Memory.readHeader, readable, if_true, bind, Except.bind, check]

end Charted

end Engine

namespace World

/-- The views of a heap agree on a list of objects. -/
structure Agreeing (w : World) (l : List Nat) : Prop where
  visited : w.heap.collector.engine.objects w.memory = .ok l
  ascending : l.Pairwise (· < ·)
  counted : w.heap.objectCount = l.length
  contains : ∀ word, w.heap.contains word = true ↔
    word ∈ l ∧ ¬ (w.heap.strategy = .copying ∧ l.getLast? = some word ∧ w.memory.isEmpty word = true)
  contiguous : ∀ s, w.heap.collector.engine.space? = some s →
    Tiled w.memory s.top s.start l ∧ (l.map w.memory.blockSize).sum = w.heap.liveBytes
  /-- A recorded block exceeds its object by no more than two words. -/
  slack : ∀ c, w.heap.collector.engine = .markSweep c → ∀ p ∈ l, ∃ n extra, c.records[blockOf p]? = some n ∧
    n = w.memory.blockSize p + extra ∧ (extra = 0 ∨ extra = 8 ∨ extra = 16)
  answered : ∀ word, w.heap.contains word = true →
    Heap.typeOf word w = .ok (w.memory.header (blockOf word)).typeId w ∧
    Heap.payloadSize word w = .ok (w.memory.payloadSize word) w ∧ ∃ d, Heap.descriptor word w = .ok d w
  refused : ∀ word, w.heap.contains word = false →
    Heap.typeOf word w = .error (.corrupted word .danglingReference) w ∧
    Heap.payloadSize word w = .error (.corrupted word .danglingReference) w ∧
    Heap.descriptor word w = .error (.corrupted word .danglingReference) w

variable {w : World} {word : Nat}

theorem Tidy.header_eq (tidy : w.Tidy) (owns : w.heap.contains word = true) :
    w.heap.header w.memory word = .ok (w.memory.header (blockOf word)) := by
  obtain ⟨state, read⟩ := tidy.charted.readObject_eq (tidy.charted.held_of_owns owns)
  simp only [Heap.header, owns, read]
  rfl

theorem header_eq_error (unknown : w.heap.contains word = false) :
    w.heap.header w.memory word = .error (.corrupted word .danglingReference) := by
  simp only [Heap.header, unknown]
  rfl

end World

/-- Whatever a program does that leaves the headers of held objects alone, also if a call has failed and the heap is
poisoned: the walk over the heap finds the objects on the books of the collector. -/
theorem Tended.views_agree {w : World} (tended : Tended w) : ∃ l, w.Agreeing l := by
  have tidy := tended.tidy
  have charted := tidy.charted
  refine ⟨w.heap.collector.engine.list, ?_⟩
  constructor
  case visited => exact charted.objects_eq
  case ascending => exact w.heap.collector.engine.sorted_list
  case counted => exact w.heap.collector.engine.length_list.symm
  case contains => exact charted.owns_iff
  case contiguous => exact fun s space => ⟨charted.tiled space, charted.total space⟩
  case slack =>
    intro c engine p member
    have holds := Engine.mem_list.1 member
    have fits := charted.fits
    rw [engine] at holds fits
    obtain ⟨low, n, record⟩ := MarkSweep.owns_iff.1 holds
    obtain ⟨enough, close⟩ := fits _ n record
    -- Both are whole words, and what is left over is less than a block.
    have whole : wordSize ∣ n := ((tended.reached.complete c engine).1.record _ n record).size
    have aligned : wordSize ∣ (w.memory.header (blockOf p)).footprint := dvd_footprint _
    have smallest : smallestBlock = 24 := by decide
    refine ⟨n, n - w.memory.blockSize p, record, (Nat.add_sub_of_le enough).symm, ?_⟩
    simp only [Memory.blockSize, wordSize] at *
    omega
  case answered =>
    intro word owns
    obtain ⟨d, type, -⟩ := (charted.legible word (charted.held_of_owns owns)).typed
    have header := tidy.header_eq owns
    simp only [Heap.typeOf, Heap.payloadSize, Heap.descriptor, Heap.look, header, bind, Except.bind,
      TypeTable.get_eq_ok.2 type]
    exact ⟨rfl, rfl, d, rfl⟩
  case refused =>
    intro word unknown
    have header := World.header_eq_error unknown
    simp only [Heap.typeOf, Heap.payloadSize, Heap.descriptor, Heap.look, header, bind, Except.bind, and_self]

/-- Behind one object lies another, in a block that has one word more than it needs. A collection has marked the first one,
has met a word there that leads nowhere, and has poisoned the heap. -/
theorem Tended.views_agree_marked : ∃ w c, Tended w ∧ w.heap.poisoned.isSome ∧ w.heap.collector.engine = .markSweep c ∧
    (w.memory.header Memory.origin).check = .ok .marked ∧ c.records[Memory.origin + 32]? = some 4064 ∧
    w.memory.blockSize (Memory.origin + 56) = 4056 ∧ w.Agreeing [Memory.origin + 24, Memory.origin + 56] := by
  have ran : ((World.play Tends { heapSize := 4096 } 1
      [.call (.register .link Descriptor.link_isWords), .call .pushRoot, .call (.addRoot ⟨0, 0⟩ (.cell 0)),
        .call (.allocate ⟨1⟩ 0), .setCell 0 (Memory.origin + 24), .call (.allocate ⟨1⟩ 4024),
        .writeWord (Memory.origin + 24) 0 5]).any fun w =>
      w.onRefusal .collect fun _ w' => Tends w (.call .collect) ∧ w'.onMarkSweep fun c => w'.heap.poisoned.isSome ∧
        (w'.memory.header Memory.origin).isIntact .marked = true ∧ c.records[Memory.origin + 32]? = some 4064 ∧
        w'.memory.blockSize (Memory.origin + 56) = 4056 ∧
        w'.heap.collector.engine.objects w'.memory = .ok [Memory.origin + 24, Memory.origin + 56]) = true := by
    decide +kernel
  obtain ⟨w₀, played, shown⟩ := (Option.any_eq_true _ _).1 ran
  obtain ⟨e, w, failed, shown⟩ := World.onRefusal_eq_true.1 shown
  obtain ⟨tends, shown⟩ := of_decide_eq_true shown
  have tended := (of_play played).refused (fun _ _ s root => Memory.isCell_iff.1 (tends s root)) failed
  obtain ⟨c, engine, shown⟩ := World.onMarkSweep_eq_true.1 shown
  obtain ⟨poisoned, marked, record, size, objects⟩ := of_decide_eq_true shown
  obtain ⟨l, agreeing⟩ := views_agree tended
  cases agreeing.visited.symm.trans objects
  exact ⟨w, c, tended, poisoned, engine, Header.isIntact_iff.1 marked, record, size, agreeing⟩

/-- An object without payload is all that a heap holds that moves its objects. The walk finds it, and the heap denies that
it holds it. -/
theorem Tended.contains_misses_empty : ∃ w word, Tended w ∧ w.heap.poisoned = none ∧
    w.heap.collector.engine.objects w.memory = .ok [word] ∧ w.memory.Unmarked word ∧ w.heap.contains word = false ∧
    Heap.typeOf word w = .error (.corrupted word .danglingReference) w := by
  have ran : ((World.play Tends { strategy := .copying, heapSize := 4096 } 0
      [.call (.register .empty Descriptor.empty_isWords), .call (.allocate ⟨1⟩ 0)]).any fun w =>
      w.heap.poisoned = none ∧ w.heap.collector.engine.objects w.memory = .ok [Memory.origin + 24] ∧
        (w.memory.header Memory.origin).isIntact .unmarked = true ∧ w.heap.contains (Memory.origin + 24) = false) = true := by
    decide +kernel
  obtain ⟨w, played, shown⟩ := (Option.any_eq_true _ _).1 ran
  obtain ⟨healthy, objects, intact, unknown⟩ := of_decide_eq_true shown
  refine ⟨w, _, .of_play played, healthy, objects, Header.isIntact_iff.1 intact, unknown, ?_⟩
  simp only [Heap.typeOf, Heap.look, World.header_eq_error unknown, bind, Except.bind]

end TracingHeap
