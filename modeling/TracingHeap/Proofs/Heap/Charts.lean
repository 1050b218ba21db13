import TracingHeap.Proofs.Heap.Outcome
import TracingHeap.Proofs.Heap.Requests

/-! The headers of held objects.

A collection writes into headers, and one that fails leaves behind what it has written: marks, and the places of copies.
What a header says about the type and the size of its object is never changed. So whatever stands in the payloads, the
headers lead from block to block, also in a heap that is poisoned. -/

set_option autoImplicit false

namespace TracingHeap

/-- The header says the same about the object, and can be read, whatever state it gives. -/
structure Header.Akin (h h' : Header) : Prop where
  typeId : h'.typeId = h.typeId
  size : h'.size = h.size
  readable : ∃ state, h'.check = .ok state

section

variable {types types' : TypeTable} {e : Engine} {m m' : Memory} {p q : Nat}

theorem Memory.Legible.of_akin (legible : m.Legible types p)
    (grown : ∀ id d, types.get? id = some d → types'.get? id = some d)
    (akin : (m.header (blockOf p)).Akin (m'.header (blockOf q))) : m'.Legible types' q := by
  obtain ⟨d, type, fixed, small⟩ := legible.typed
  refine ⟨akin.readable, d, ?_, ?_⟩
  · rw [akin.typeId]
    exact grown _ _ type
  · unfold Memory.payloadSize
    rw [akin.size]
    exact ⟨fixed, small⟩

theorem Memory.Legible.akin (legible : m.Legible types p) (same : m'.header (blockOf q) = m.header (blockOf p)) :
    (m.header (blockOf p)).Akin (m'.header (blockOf q)) :=
  ⟨congrArg Header.typeId same, congrArg Header.size same, same ▸ legible.readable⟩

namespace Engine.Charted

variable (charted : e.Charted types m)

include charted

/-- New types, and headers that say the same. -/
theorem congr (grown : ∀ id d, types.get? id = some d → types'.get? id = some d) (regular : m'.Regular)
    (same : ∀ start ∈ e.arenas, ∀ n, m'.holds start n = m.holds start n)
    (akin : ∀ p, e.Held p → (m.header (blockOf p)).Akin (m'.header (blockOf p))) : e.Charted types' m' where
  regular := regular
  standing := charted.standing.congr same
  legible := fun p holds => (charted.legible p holds).of_akin grown (akin p holds)
  fits := charted.fits.congr fun p holds => (akin p holds).size

theorem of_akin (shape : m.SameShape m')
    (akin : ∀ p, e.Held p → (m.header (blockOf p)).Akin (m'.header (blockOf p))) : e.Charted types m' :=
  charted.congr (fun _ _ type => type) (charted.regular.of_sameShape shape) (fun _ _ _ => shape.holds _ _) akin

theorem grow (grown : ∀ id d, types.get? id = some d → types'.get? id = some d) : e.Charted types' m :=
  charted.congr grown charted.regular (fun _ _ _ => rfl) fun p holds => (charted.legible p holds).akin rfl

variable {e' : Engine} {id : TypeId} {d : Descriptor} {block size : Nat}

/-- One more object. -/
theorem fresh (granted : Granted e e' m (footprint size) block) (type : types.get? id = some d)
    (fixed : d.fixedSize ≤ size) (small : size ≤ largestPayload) : e'.Charted types (m.fresh block id size) := by
  have shape := Memory.sameShape_fresh m block id size
  have new : (m.fresh block id size).header (blockOf (payloadOf block)) = Header.fresh id size := by
    rw [blockOf_payloadOf]
    exact Memory.header_fresh charted.regular granted.room small
  refine ⟨charted.regular.of_sameShape shape, granted.ledger.standing.of_sameShape shape, fun p holds => ?_, ?_⟩
  · rcases (granted.held p).1 holds with rfl | old
    · refine ⟨⟨.unmarked, ?_⟩, d, ?_, ?_⟩
      · rw [new]
        rfl
      · rw [new]
        exact type
      · unfold Memory.payloadSize
        rw [new]
        exact ⟨fixed, small⟩
    · have legible := charted.legible p old
      exact legible.of_akin (fun _ _ type => type) (legible.akin (charted.header_fresh granted small old))
  · refine granted.fits _ (fun p holds => congrArg Header.footprint (charted.header_fresh granted small holds)) ?_
    unfold Memory.blockSize
    rw [new]
    rfl

/-- What is written to an object, past the first bytes of its header, touches those bytes of no header. -/
theorem outside_front (holds : e.Held p) (held : e.Held q) {k a n i : Nat} (above : blockOf p + k ≤ a)
    (within : a + n ≤ blockOf p + (headerSize + m.payloadSize p)) (front : i < k) :
    blockOf q + i < a ∨ a + n ≤ blockOf q + i := by
  rcases Nat.lt_or_ge p q with greater | le
  · have gap := fits_apart charted.standing charted.fits holds held greater
    have span := charted.spans holds
    omega
  · unfold blockOf at *
    omega

/-- A word behind the first half of its header may be written to an object. -/
theorem header_setWord (holds : e.Held p) {k : Nat} (above : 16 ≤ k)
    (within : k + wordSize ≤ headerSize + m.payloadSize p) (v : Nat) (held : e.Held q) :
    ∃ target, (m.setWord (blockOf p + k) v).header (blockOf q) = { m.header (blockOf q) with forward := target } := by
  have shape := Memory.sameShape_setWord m (blockOf p + k) v
  have inWord := Memory.holds_sub charted.regular (charted.holds_object holds) k wordSize within
  refine ⟨_, Memory.header_stay_front charted.regular shape (charted.holds_header held) fun i lt => ?_⟩
  refine Memory.byte_setWord_of_outside v inWord ?_
  exact charted.outside_front holds held (Nat.add_le_add_left above _) (by omega) lt

/-- Bytes may be written to the payload of an object, and no header changes. -/
theorem store_payload (holds : e.Held p) {a : Nat} {bytes : ByteArray} (above : p ≤ a)
    (within : a + bytes.size ≤ p + m.payloadSize p) : m.holds a bytes.size = true ∧
      ∀ q, e.Held q → (m.store a bytes).header (blockOf q) = m.header (blockOf q) := by
  have payload : blockOf p + headerSize = p := payloadOf_blockOf (charted.low holds)
  have inside : m.holds a bytes.size = true :=
    Memory.holds_of_range charted.regular (charted.holds_object holds) (by omega) (by omega)
  refine ⟨inside, fun q held => ?_⟩
  refine Memory.header_stay charted.regular (Memory.sameShape_store m a bytes) (charted.holds_header held) fun i lt => ?_
  have out := charted.outside_front holds held (Nat.le_trans (Nat.le_of_eq payload) above) (n := bytes.size) (by omega) lt
  rw [Memory.byte_store charted.regular inside, if_neg (by omega)]

end Engine.Charted

end

/-! ### Collections that fail -/

section

variable {types : TypeTable} {roots : List Slot} {m₀ m : Memory} {p : Nat}

theorem Marked.akin {held : Nat → Prop} {marks : List Nat} (marked : Marked m₀ marks m) (intact : Intact types held m₀)
    (marksHeld : ∀ q ∈ marks, held q) (holds : held p) : (m₀.header (blockOf p)).Akin (m.header (blockOf p)) := by
  obtain ⟨type, size⟩ := marked.header_front intact marksHeld holds
  refine ⟨type, size, ?_⟩
  by_cases member : p ∈ marks
  · exact ⟨_, marked.check_of_mem intact marksHeld member⟩
  · rw [marked.header_of_notMem intact marksHeld holds member]
    exact ⟨_, intact.unmarked p holds⟩

theorem Moving.akin {resident : Std.TreeSet Nat} {space : Space} {live : Nat → Prop} {l : List Nat} {done : List Origin}
    {e : Evacuation} (moving : Moving types roots space m₀ live l done e)
    (footing : Footing types roots resident space m₀ live) (holds : live p) (unmarked : m₀.Unmarked p) :
    (m₀.header (blockOf p)).Akin (e.memory.header (blockOf p)) := by
  rw [moving.header_eq footing holds]
  by_cases member : p ∈ l
  · rw [headerLeft_of_mem member]
    exact ⟨rfl, rfl, .forwarded, Header.check_eq_ok.2 ⟨(Header.check_eq_ok.1 unmarked).1, rfl⟩⟩
  · rw [headerLeft_of_notMem member]
    exact ⟨rfl, rfl, _, unmarked⟩

end

/-! ### Collections -/

namespace World

/-- Where a collection rewrites the roots, they are cells. -/
def RootsOutside (w : World) : Prop := w.heap.collector.engine.strategy = .copying →
  ∀ s ∈ w.heap.roots.slots, ∃ i, s = .cell i ∧ i < w.memory.cells.size

/-- The headers are in order: those of a poisoned heap can be read, and no other holds an object that is marked or has
moved. -/
structure Tidy (w : World) : Prop where
  charted : w.heap.collector.engine.Charted w.heap.types w.memory
  books : w.heap.poisoned = none → w.Books
  unmarked : w.heap.poisoned = none → ∀ p, w.heap.collector.engine.Held p → w.memory.Unmarked p

end World

variable {w : World}

theorem World.Tidy.labelled (tidy : w.Tidy) (healthy : w.heap.poisoned = none) : w.Labelled where
  unmarked := tidy.unmarked healthy
  typed := fun p holds => (tidy.charted.legible p holds).typed
  fits := tidy.charted.fits

theorem World.Tidy.headed (tidy : w.Tidy) (healthy : w.heap.poisoned = none)
    (outside : ∀ s ∈ w.heap.roots.slots, ∃ i, s = .cell i ∧ i < w.memory.cells.size) : w.Headed :=
  { tidy.labelled healthy with outside }

/-- A collection by marking, of whatever roots can be read. -/
theorem MarkSweep.collect_charts {types : TypeTable} {roots : List Slot} {c : MarkSweep} {m : Memory}
    (charted : (Engine.markSweep c).Charted types m) (checked : types.Checked)
    (unmarked : ∀ p, (Engine.markSweep c).Held p → m.Unmarked p) :
    match c.collect types roots m with
    | .ok (c', _) m' => (Engine.markSweep c').Charted types m' ∧ ∀ p, (Engine.markSweep c').Held p → m'.Unmarked p
    | .error _ m' => (Engine.markSweep c).Charted types m' := by
  have intact := charted.intact checked unmarked
  obtain ⟨ledger, inside⟩ := charted.standing
  cases read : roots.mapM m.readSlot with
  | error x =>
    have failed : c.collect types roots m = .error x m := run_bind_error (Access.look_error read)
    rw [failed]
    exact charted
  | ok words =>
    obtain rfl := Memory.roots_of_readRoots read
    cases found : c.survivors types roots m with
    | error x =>
      obtain ⟨m', marks, failed, marked, marksHeld⟩ := collect_error intact read found
      rw [failed]
      exact charted.of_akin marked.shape fun p holds => marked.akin intact marksHeld holds
    | ok marks =>
      obtain ⟨c', m', ran, collected, -⟩ := collect_ok intact ledger read inside found
      rw [ran]
      have header {b n : Nat} (record : c'.records[b]? = some n) : m'.header b = m.header b :=
        collected.header_eq ledger charted.regular inside record
      have kept (p : Nat) (holds : c'.owns p = true) :
          c.owns p = true ∧ m'.header (blockOf p) = m.header (blockOf p) := by
        obtain ⟨low, n, record⟩ := owns_iff.1 holds
        exact ⟨owns_iff.2 ⟨low, n, ((collected.records _ _).1 record).1⟩, header record⟩
      refine ⟨⟨charted.regular.of_sameShape collected.shape, ⟨collected.ledger, ?_⟩, fun p holds => ?_, ?_⟩, ?_⟩
      · rw [collected.start, collected.size, collected.shape.holds]
        exact inside
      · obtain ⟨old, same⟩ := kept p holds
        have legible := charted.legible p old
        exact legible.of_akin (fun _ _ type => type) (legible.akin same)
      · intro b n record
        rw [header record]
        exact charted.fits b n ((collected.records b n).1 record).1
      · intro p holds
        obtain ⟨old, same⟩ := kept p holds
        rw [Memory.Unmarked, same]
        exact unmarked p old

/-- After a collection the headers are in order, and after one that fails they can still be read. -/
theorem Engine.collect_charts (tidy : w.Tidy) (healthy : w.heap.poisoned = none) (outside : w.RootsOutside) :
    match Engine.collect w.heap.types w.heap.roots.slots (w.heap.collector.engine, w.memory) with
    | .ok _ (e, m) => e.Charted w.heap.types m ∧ ∀ p, e.Held p → m.Unmarked p
    | .error _ (e, m) => e.Charted w.heap.types m := by
  have charted := tidy.charted
  have books := tidy.books healthy
  have unmarked := tidy.unmarked healthy
  cases engine : w.heap.collector.engine with
  | markSweep c =>
    rw [engine] at unmarked
    rw [engine] at charted
    have spec := @MarkSweep.collect_charts _ w.heap.roots.slots c w.memory charted books.types unmarked
    cases ran : c.collect w.heap.types w.heap.roots.slots w.memory <;> rw [ran] at spec <;> simp only [collect, ran] <;>
      exact spec
  | copying c =>
    have headed := tidy.headed healthy (outside (by rw [engine]; rfl))
    have footing := Copying.footing_of_headed books headed engine
    have settles := Copying.collect_settles books engine footing (headed.sized engine).typed
    cases outcome : departures w.heap.types w.heap.roots.slots c.resident c.spaces.reserve w.memory with
    | ok l =>
      rw [outcome] at settles
      obtain ⟨e, done, c', m', ran, -, -, formed⟩ := settles
      rw [← engine, ran]
      exact ⟨formed.headed.charted (books.afterCollection ran), formed.unmarked⟩
    | error x =>
      have ledger := books.ledger
      rw [engine] at unmarked
      rw [engine] at charted ledger
      have spec := Copying.collect_outcome footing ledger.1 ledger.2.1
      rw [outcome] at spec
      obtain ⟨e, l, done, ran, moving⟩ := spec
      -- What the engine holds and where is as before; the copies are no objects.
      have same : (Engine.copying c).Charted w.heap.types e.memory :=
        charted.of_akin moving.shape fun p holds => moving.akin footing holds (unmarked p holds)
      simp only [collect, ran]
      exact ⟨same.regular, same.standing, same.legible, same.fits⟩
  | leaky c =>
    rw [engine] at unmarked
    rw [engine] at charted
    exact ⟨charted, unmarked⟩

end TracingHeap
