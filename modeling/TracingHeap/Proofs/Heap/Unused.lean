import TracingHeap.Proofs.Heap.Demand
import TracingHeap.Proofs.Heap.Tending

/-! Memory that nothing uses is zero.

A block is zeroed when it is given back, a space when it has been moved out of, and an arena is granted zeroed. So behind
the payloads and between the blocks there is nothing but zeros, as long as the program writes to payloads only. A header
that is looked for there has no magic byte. -/

set_option autoImplicit false

namespace TracingHeap

namespace Memory

theorem byte_of_index {m : Memory} {a : Nat} (index_eq : index a = m.arenas.size) : m.byte a = 0 := by
  unfold byte arena?
  rw [index_eq, Array.getElem?_eq_none (Nat.le_refl _)]
  split
  · next found => split at found <;> cases found
  · rfl

-- The new arena is a variable here: the kernel would try to compute the one that is granted.
theorem byte_push {m : Memory} {arena : Arena} {a : Nat} (blank : ∀ i, arena.byte i = 0) :
    ({ m with arenas := m.arenas.push arena } : Memory).byte a = m.byte a := by
  by_cases new : index a = m.arenas.size
  · rw [byte_of_index new]
    unfold byte arena?
    split
    · next found =>
      split at found
      · rw [new, Array.getElem?_push_size] at found
        exact Option.some.inj found ▸ blank _
      · cases found
    · rfl
  · unfold byte arena?
    simp only [Array.getElem?_push, new, if_false]

/-- All that is granted is zero, as what cannot be accessed is. -/
theorem byte_grant {m m' : Memory} {size start : Nat} (granted : m.grant size = some (start, m')) (a : Nat) :
    m'.byte a = m.byte a := by
  unfold grant at granted
  split at granted
  · cases granted
    exact byte_push (Arena.byte_fresh _)
  · cases granted

/-- Addresses that are close to each other lie in one arena, if they lie in any. -/
theorem holds_of_ends {m : Memory} (regular : m.Regular) {a n : Nat} (first : m.holds a 1 = true)
    (last : m.holds (a + n) 1 = true) (near : n ≤ largestArena) : m.holds a (n + 1) = true := by
  obtain ⟨arena, found, low, fits⟩ := exists_arena first
  obtain ⟨arena', found', low', fits'⟩ := exists_arena last
  have small := regular.extent_le _ _ found
  have same : index (a + n) = index a ∧ offset (a + n) = offset a + n := by
    simp only [index, offset, origin, stride, largestArena] at *
    omega
  rw [same.1, found] at found'
  cases found'
  simp only [holds, arena?, low, if_true, found, decide_eq_true_eq]
  omega

end Memory

namespace Engine

variable {e e' : Engine} {types : TypeTable} {m m' : Memory} {p q a : Nat}

/-- The address lies in an arena of the engine. -/
def InArena (e : Engine) (m : Memory) (a : Nat) : Prop :=
  ∃ start ∈ e.arenas, start ≤ a ∧ m.holds start (a + 1 - start) = true

/-- The address lies in an arena, and in no header and no payload of a held object. -/
def Unused (e : Engine) (m : Memory) (a : Nat) : Prop :=
  e.InArena m a ∧ ∀ p, e.Held p → a < blockOf p ∨ p + m.payloadSize p ≤ a

def Clean (e : Engine) (m : Memory) : Prop := ∀ a, e.Unused m a → m.byte a = 0

theorem inArena_of_range (regular : m.Regular) {start n : Nat} (arena : start ∈ e.arenas)
    (inside : m.holds start n = true) (low : start ≤ a) (high : a < start + n) : e.InArena m a :=
  ⟨start, arena, low, Memory.holds_of_range regular inside (Nat.le_refl _) (by omega)⟩

theorem InArena.holds_byte (regular : m.Regular) (there : e.InArena m a) : m.holds a 1 = true := by
  obtain ⟨start, -, low, inside⟩ := there
  exact Memory.holds_of_range regular inside low (by omega)

theorem InArena.congr (there : e'.InArena m' a) (arenas : ∀ start, start ∈ e'.arenas → start ∈ e.arenas)
    (same : ∀ start ∈ e.arenas, ∀ n, m'.holds start n = m.holds start n) : e.InArena m a := by
  obtain ⟨start, arena, low, inside⟩ := there
  exact ⟨start, arenas start arena, low, by rwa [← same start (arenas start arena)]⟩

theorem InArena.of_sameShape (there : e'.InArena m' a) (arenas : ∀ start, start ∈ e'.arenas → start ∈ e.arenas)
    (shape : m.SameShape m') : e.InArena m a := there.congr arenas fun _ _ _ => shape.holds _ _

namespace Charted

variable (charted : e.Charted types m)

include charted

/-- The arena of a block. -/
theorem exists_arena (holds : e.Held p) : ∃ start ∈ e.arenas, ∃ n, m.holds start n = true ∧ start ≤ blockOf p ∧
    blockOf p + m.blockSize p ≤ start + n := by
  have fits := charted.fits
  have standing := charted.standing
  cases e with
  | markSweep c =>
    obtain ⟨low, n, record⟩ := MarkSweep.owns_iff.1 holds
    obtain ⟨-, first, last⟩ := standing.1.record _ _ record
    exact ⟨c.start, List.mem_cons_self, c.size, standing.2, first,
      Nat.le_trans (Nat.add_le_add_left (fits _ _ record).1 _) last⟩
  | copying c =>
    obtain ⟨room, arena⟩ := standing
    obtain ⟨first, last⟩ := Tiled.bounds fits (Std.TreeSet.mem_toList.2 holds)
    unfold payloadOf Space.top blockOf at *
    exact ⟨c.spaces.active.start, List.mem_cons_self, c.spaces.active.size, arena, by omega, by omega⟩
  | leaky c =>
    obtain ⟨room, arena⟩ := standing
    obtain ⟨first, last⟩ := Tiled.bounds fits (Std.TreeSet.mem_toList.2 holds)
    unfold payloadOf Space.top blockOf at *
    exact ⟨c.space.start, List.mem_cons_self, c.space.size, arena, by omega, by omega⟩

theorem inArena (holds : e.Held p) (low : blockOf p ≤ a) (high : a < blockOf p + m.blockSize p) : e.InArena m a := by
  obtain ⟨start, arena, n, inside, first, last⟩ := charted.exists_arena holds
  exact inArena_of_range charted.regular arena inside (by omega) (by omega)

theorem payload_lt (holds : e.Held p) : p + m.payloadSize p ≤ blockOf p + m.blockSize p := by
  have spans := charted.spans holds
  have low := payloadOf_blockOf (charted.low holds)
  unfold payloadOf at low
  omega

/-- What is behind the payload of an object, up to the end of its block, is unused. -/
theorem unused_padding (holds : e.Held p) (low : p + m.payloadSize p ≤ a) (high : a < blockOf p + m.blockSize p) :
    e.Unused m a := by
  refine ⟨charted.inArena holds (by unfold blockOf; omega) high, fun q held => ?_⟩
  rcases Nat.lt_trichotomy p q with less | rfl | greater
  · exact .inl (Nat.lt_of_lt_of_le high (fits_apart charted.standing charted.fits holds held less))
  · exact .inr low
  · have gap := fits_apart charted.standing charted.fits held holds greater
    have inside := charted.payload_lt held
    unfold blockOf at *
    omega

end Charted

/-! ### What keeps it so -/

theorem clean_create {strategy : Strategy} {heapSize : Nat} (regular : m'.Regular)
    (created : Created m heapSize strategy e m') : e.Clean m' := by
  rintro a ⟨⟨start, arena, low, inside⟩, -⟩
  -- What is granted has a number that was not in use, and bytes with such a number are zero.
  have zero {m₀ m₁ : Memory} {size : Nat} (granted : m₀.grant size = some (start, m₁)) : m₀.byte a = 0 := by
    refine Memory.byte_of_index ?_
    rw [← (Memory.holds_grant granted).2.1]
    exact Memory.index_eq_of_range regular inside low (by omega)
  cases created with
  | markSweep granted =>
    obtain rfl := List.mem_singleton.1 arena
    rw [Memory.byte_grant granted, zero granted]
  | copying first second =>
    rw [Memory.byte_grant second]
    rcases List.mem_cons.1 arena with rfl | rest
    · rw [Memory.byte_grant first, zero first]
    · obtain rfl := List.mem_singleton.1 rest
      exact zero second
  | leaky granted =>
    obtain rfl := List.mem_singleton.1 arena
    rw [Memory.byte_grant granted, zero granted]

/-- What is unused now was unused before, if as many objects are held and they are as large. -/
theorem Unused.back (unused : e'.Unused m' a) (there : e.InArena m a)
    (kept : ∀ p, e.Held p → e'.Held p ∧ m'.payloadSize p = m.payloadSize p) : e.Unused m a := by
  refine ⟨there, fun p holds => ?_⟩
  obtain ⟨held, size⟩ := kept p holds
  rw [← size]
  exact unused.2 p held

theorem arenas_allocate {size block : Nat} (found : e.allocate size = some (block, e')) : e'.arenas = e.arenas := by
  cases allocated found with
  | markSweep took =>
    obtain ⟨pair, -, same⟩ := Option.map_eq_some_iff.1 took
    cases same
    rfl
  | copying room => rfl
  | leaky room => rfl

section

variable (charted : e.Charted types m) (clean : e.Clean m)

include charted clean

/-- A new block has been zeroed as far as its slack. -/
theorem clean_fresh {id : TypeId} {block size : Nat} (granted : Granted e e' m (footprint size) block)
    (small : size ≤ largestPayload) (arenas : e'.arenas = e.arenas) : e'.Clean (m.fresh block id size) := by
  intro a unused
  by_cases inside : block ≤ a ∧ a < block + footprint size
  · have behind := unused.2 _ ((granted.held _).2 (.inl rfl))
    have length : (m.fresh block id size).payloadSize (payloadOf block) = size := by
      unfold Memory.payloadSize
      rw [blockOf_payloadOf, Memory.header_fresh charted.regular granted.room small]
      rfl
    rw [length, blockOf_payloadOf] at behind
    obtain ⟨i, rfl⟩ := Nat.exists_eq_add_of_le inside.1
    exact Memory.byte_fresh_of_payload charted.regular granted.room small (by unfold payloadOf at behind; omega) (by omega)
  · rw [Memory.byte_fresh_of_outside charted.regular granted.room small (by omega)]
    have there := unused.1.of_sameShape (fun _ arena => arenas ▸ arena) (Memory.sameShape_fresh m block id size)
    exact clean a (unused.back there fun p holds => ⟨(granted.held p).2 (.inr holds),
      congrArg Header.size (charted.header_fresh granted small holds)⟩)

/-- Only bytes of an object have been written. -/
theorem clean_setWord {k : Nat} (holds : e.Held p) (above : 16 ≤ k)
    (within : k + wordSize ≤ headerSize + m.payloadSize p) (v : Nat) : e.Clean (m.setWord (blockOf p + k) v) := by
  have shape := Memory.sameShape_setWord m (blockOf p + k) v
  have low := payloadOf_blockOf (charted.low holds)
  intro a unused
  have before := unused.back (unused.1.of_sameShape (fun _ arena => arena) shape) fun q held => by
    obtain ⟨target, header⟩ := charted.header_setWord holds above within v held
    refine ⟨held, ?_⟩
    unfold Memory.payloadSize
    rw [header]
  have inside := Memory.holds_sub charted.regular (charted.holds_object holds) k wordSize within
  rw [← clean a before]
  refine Memory.byte_setWord_of_outside v inside ?_
  have out := before.2 p holds
  unfold payloadOf at low
  omega

end

end Engine

/-! ### Collections -/

open Engine

/-- The dead blocks are zeroed, and the others keep their objects. -/
theorem MarkSweep.clean_collect {types : TypeTable} {roots : List Slot} {c c' : MarkSweep} {m m' : Memory}
    (charted : (markSweep c).Charted types m) (collected : Collected types roots c m c' m')
    (clean : (markSweep c).Clean m) : (markSweep c').Clean m' := by
  obtain ⟨ledger, inside⟩ := charted.standing
  have arenas : (markSweep c').arenas = (markSweep c).arenas := congrArg (fun start => [start]) collected.start
  intro a unused
  by_cases dead : Dead types roots c m a
  · exact collected.zeroed a dead
  · rw [collected.kept a dead]
    refine clean a ⟨unused.1.of_sameShape (fun _ arena => arenas ▸ arena) collected.shape, fun p holds => ?_⟩
    have end' := charted.payload_lt holds
    obtain ⟨low, n, record⟩ := owns_iff.1 holds
    by_cases reach : Reach types roots m p
    · have record' := (collected.records _ _).2 ⟨record, by rwa [payloadOf_blockOf low]⟩
      have header := collected.header_eq ledger charted.regular inside record'
      have size : m'.payloadSize p = m.payloadSize p := congrArg Header.size header
      rw [← size]
      exact unused.2 p (owns_iff.2 ⟨low, n, record'⟩)
    · by_contra meet
      have span := (charted.fits _ _ record).1
      unfold Memory.blockSize at end'
      exact dead ⟨blockOf p, n, record, by rwa [payloadOf_blockOf low], by omega, by omega⟩

/-- The old space is zeroed, and behind a copy there is what was behind the object. -/
theorem Copying.clean_collect {types : TypeTable} {roots : List Slot} {c c' : Copying} {m m' : Memory} {l : List Nat}
    {done : List Origin} {e : Evacuation} (charted : (copying c).Charted types m)
    (unmarked : ∀ p, c.resident.contains p = true → m.Unmarked p)
    (footing : Footing types roots c.resident c.spaces.reserve m (c.resident.contains · = true))
    (arrived : Arrived types roots c.spaces.reserve m (c.resident.contains · = true) l done e)
    (settles : Settles c e c' m') (clean : (copying c).Clean m) : (copying c').Clean m' := by
  have shape := settles.shape
  have same := settles.same
  have used (p : Nat) (holds : c.resident.contains p = true) : c.spaces.active.start ≤ blockOf p ∧
      blockOf p + m.blockSize p ≤ c.spaces.active.top := by
    obtain ⟨low, high⟩ := Tiled.bounds charted.fits (Std.TreeSet.mem_toList.2 holds)
    exact ⟨Nat.le_sub_of_add_le low, high⟩
  intro a unused
  by_cases old : c.spaces.active.start ≤ a ∧ a < c.spaces.active.top
  · exact settles.zeroed a old.1 old.2
  · by_cases copied : c.spaces.reserve.start ≤ a ∧ a < e.reserve.top
    · obtain ⟨q, member, low, high⟩ := (arrived.tiled_copies footing shape same).exists_block copied.1 copied.2
      obtain ⟨p, known, rfl⟩ := List.mem_map.1 member
      rw [arrived.blockSize_eq footing shape same known] at high
      have holds := (arrived.reached p known).1
      have behind := unused.2 (copyOf c.spaces.reserve m l p) (by
        show c'.resident.contains _ = true
        rw [settles.resident]
        exact (arrived.copies _).2 ⟨p, known, rfl⟩)
      rw [arrived.payloadSize_eq footing shape same known] at behind
      have start := charted.low holds
      obtain ⟨i, rfl⟩ := Nat.exists_eq_add_of_le low
      have padding : headerSize + m.payloadSize p ≤ i := by
        rw [blockOf_copyOf] at behind
        unfold copyOf payloadOf at behind
        omega
      rw [arrived.byte_copy footing same known (by omega) fun b visited => ?_]
      · exact clean _ (charted.unused_padding holds (by unfold blockOf; omega) (by omega))
      · -- The words that are followed lie in front of the padding.
        obtain ⟨d, framed⟩ := footing.framed p (arrived.reached p known)
        obtain ⟨k, rfl, -, last, -⟩ := framed.mem_visited visited
        unfold Memory.payloadSize at padding
        omega
    · have start : e.reserve.start = c.spaces.reserve.start := by rw [arrived.reserve]
      have top : e.reserve.top = c.spaces.reserve.start + (l.map m.blockSize).sum := by rw [arrived.reserve]; rfl
      have there : (copying c).InArena m a := by
        refine unused.1.of_sameShape (fun _ arena => ?_) (arrived.shape.trans shape)
        rw [arenas, settles.spaces, start] at arena
        exact (List.Perm.swap _ _ _).subset arena
      have apart (p : Nat) (holds : c.resident.contains p = true) : a < blockOf p ∨ blockOf p + m.blockSize p ≤ a := by
        have bounds := used p holds
        omega
      rw [settles.elsewhere a (by omega), arrived.elsewhere a ?_ (by omega)]
      · exact clean a ⟨there, fun p holds => (apart p holds).imp_right (Nat.le_trans (charted.payload_lt holds))⟩
      · intro p holds
        rw [Memory.extent_of_unmarked (unmarked p holds)]
        exact apart p holds

/-- A collection that succeeds has found its survivors. -/
theorem MarkSweep.collected_of_ok {types : TypeTable} {roots : List Slot} {c c' : MarkSweep} {m m' : Memory}
    {report : CollectionReport} (intact : Intact types (c.owns · = true) m) (ledger : (markSweep c).Ledger m)
    (ran : c.collect types roots m = .ok (c', report) m') : Collected types roots c m c' m' := by
  cases read : roots.mapM m.readSlot with
  | error x => cases ran.symm.trans (run_bind_error (Access.look_error read))
  | ok words =>
    obtain rfl := Memory.roots_of_readRoots read
    cases found : c.survivors types roots m with
    | error x =>
      obtain ⟨m₁, marks, failed, -⟩ := collect_error intact read found
      cases ran.symm.trans failed
    | ok marks =>
      obtain ⟨c₁, m₁, ran₁, collected, -⟩ := collect_ok intact ledger.1 read ledger.2 found
      cases ran.symm.trans ran₁
      exact collected

variable {w w' : World}

theorem World.Tidy.clean_collect {report : CollectionReport} {e : Engine} {m : Memory} (tidy : w.Tidy)
    (healthy : w.heap.poisoned = none) (outside : w.RootsOutside) (clean : w.heap.collector.engine.Clean w.memory)
    (ran : Engine.collect w.heap.types w.heap.roots.slots (w.heap.collector.engine, w.memory) = .ok report (e, m)) :
    e.Clean m := by
  have charted := tidy.charted
  have books := tidy.books healthy
  have ledger := books.ledger
  have unmarked := tidy.unmarked healthy
  cases engine : w.heap.collector.engine with
  | markSweep c =>
    rw [engine] at charted clean ledger unmarked ran
    unfold Engine.collect at ran
    cases collected : c.collect w.heap.types w.heap.roots.slots w.memory with
    | error x m₁ => simp only [collected] at ran; cases ran
    | ok pair m₁ =>
      simp only [collected] at ran
      cases ran
      exact MarkSweep.clean_collect charted
        (MarkSweep.collected_of_ok (charted.intact books.types unmarked) ledger collected) clean
  | copying c =>
    have footing := Copying.footing_of_headed books (tidy.headed healthy (outside (by rw [engine]; rfl))) engine
    rw [engine] at charted clean ledger unmarked ran
    have spec := Copying.collect_outcome footing ledger.1 ledger.2.1
    unfold Engine.collect at ran
    cases outcome : departures w.heap.types w.heap.roots.slots c.resident c.spaces.reserve w.memory with
    | error x =>
      rw [outcome] at spec
      obtain ⟨e₁, l, done, failed, -⟩ := spec
      simp only [failed] at ran
      cases ran
    | ok l =>
      rw [outcome] at spec
      obtain ⟨e₁, done, c', m', collected, arrived, settles⟩ := spec
      simp only [collected] at ran
      cases ran
      exact Copying.clean_collect charted unmarked footing arrived settles clean
  | leaky c =>
    rw [engine] at clean ran
    cases ran
    exact clean

/-! ### What the calls leave -/

/-- Unless a violation has been seen, what is unused is zero. -/
def World.Blank (w : World) : Prop := w.heap.poisoned = none → w.heap.collector.engine.Clean w.memory

namespace Heap

open World

/-- A collection leaves what is unused at zero, and so do a new object and a word written to an object. -/
theorem upheld_clean : Upheld Engine.Clean where
  collected := fun tidy healthy outside clean ran => tidy.clean_collect healthy outside clean ran
  fresh := fun charted clean granted small allocated =>
    Engine.clean_fresh charted clean granted small (Engine.arenas_allocate allocated)
  setWord := fun charted clean held above within v => Engine.clean_setWord charted clean held above within v

theorem blank_create {config : Config} {m m' : Memory} {h : Heap} (created : create config m = .ok (h, m'))
    (regular : m'.Regular) : Blank ⟨h, m'⟩ := by
  obtain ⟨-, engine, started, rfl⟩ := create_eq_ok created
  exact fun _ => clean_create regular (Engine.created started)

end Heap

/-! ### Runs -/

/-- The states of a heap whose program writes to the payloads of held objects only. What it writes there and what it calls
is up to it. -/
inductive Confined : World → Prop where
  | create {config : Config} {m m' : Memory} {h : Heap} : Heap.create config m = .ok (h, m') → m'.Regular →
      Confined ⟨h, m'⟩
  | done {w w' : World} {op : Operation} : Confined w → (op.collects = true → w.RootsOutside) →
      op.run w = .ok () w' → Confined w'
  | refused {w w' : World} {op : Operation} {e : HeapError} : Confined w → (op.collects = true → w.RootsOutside) →
      op.run w = .error (.violation e) w' → Confined w'
  /-- Other arenas and cells may come and go. -/
  | program {w : World} {m' : Memory} : Confined w → m'.Regular →
      (∀ start ∈ w.heap.collector.engine.arenas, ∀ n, m'.holds start n = w.memory.holds start n) →
      (∀ a, w.heap.collector.engine.InArena w.memory a → (∀ p, w.Held p → a < p ∨ p + w.memory.payloadSize p ≤ a) →
        m'.byte a = w.memory.byte a) → Confined { w with memory := m' }

namespace Confined

variable {w : World}

/-- No header lies in a payload. -/
theorem header_stays {e : Engine} {types : TypeTable} {m m' : Memory} (charted : e.Charted types m) (regular : m'.Regular)
    (same : ∀ start ∈ e.arenas, ∀ n, m'.holds start n = m.holds start n)
    (bytes : ∀ a, e.InArena m a → (∀ p, e.Held p → a < p ∨ p + m.payloadSize p ≤ a) → m'.byte a = m.byte a)
    {p : Nat} (holds : e.Held p) : m'.header (blockOf p) = m.header (blockOf p) := by
  obtain ⟨start, arena, n, inside, first, last⟩ := charted.exists_arena holds
  have large := charted.large holds
  have inside' : m'.holds (blockOf p) headerSize = true := by
    rw [← same start arena] at inside
    exact Memory.holds_of_range regular inside first (by omega)
  refine Memory.header_congr charted.regular regular (charted.holds_header holds) inside' fun i lt => ?_
  refine bytes _ (charted.inArena holds (Nat.le_add_right _ _) (by omega)) fun q held => ?_
  have low := payloadOf_blockOf (charted.low held)
  exact charted.outside_front held holds (Nat.le_of_eq low) (by unfold payloadOf at low; omega) lt

theorem tended (confined : Confined w) : Tended w := by
  induction confined with
  | create created regular => exact .create created regular
  | done _ outside ran ih => exact .done ih outside ran
  | refused _ outside ran ih => exact .refused ih outside ran
  | program _ regular same bytes ih =>
    exact .program ih regular same fun p holds => header_stays ih.tidy.charted regular same bytes holds

theorem blank (confined : Confined w) : w.Blank := by
  induction confined with
  | create created regular => exact Heap.blank_create created regular
  | done before outside ran ih =>
    exact ((Heap.leaves_run Heap.upheld_clean ⟨before.tended.tidy, ih⟩ _ outside).of_ok ran).kept
  | refused before outside ran ih =>
    exact ((Heap.leaves_run Heap.upheld_clean ⟨before.tended.tidy, ih⟩ _ outside).of_refused ran).kept
  | program before regular same bytes ih =>
    intro healthy a unused
    have charted := before.tended.tidy.charted
    have old := unused.back (unused.1.congr (fun _ arena => arena) same) fun p holds =>
      ⟨holds, congrArg Header.size (header_stays charted regular same bytes holds)⟩
    refine (bytes a old.1 fun p holds => ?_).trans (ih healthy a old)
    exact (old.2 p holds).imp_left fun before => Nat.lt_of_lt_of_le before (Nat.sub_le ..)

theorem of_play {config : Config} {cells : Nat} {actions : List Action}
    (ran : World.play Tended.Tends config cells actions = some w) : Confined w := by
  obtain ⟨first, started, ran⟩ := Option.bind_eq_some_iff.1 ran
  obtain ⟨created, regular⟩ := World.start_eq_some started
  refine World.follow_induction (fun w a w' confined allowed outcome => ?_) (.create created regular) ran
  have tends := of_decide_eq_true allowed
  have regular := confined.tended.tidy.charted.regular
  cases a with
  | call op => exact .done confined (fun _ _ s root => Memory.isCell_iff.1 (tends s root)) outcome
  | write p a bytes =>
    obtain ⟨holds, above, within⟩ := tends
    have inside := (confined.tended.tidy.charted.store_payload holds above within).1
    have shape := Memory.sameShape_store w.memory a bytes
    cases outcome.symm.trans (Heap.access_ok (Access.guarded_ok inside))
    refine .program confined (regular.of_sameShape shape) (fun _ _ _ => shape.holds _ _) fun b _ out => ?_
    have away := out p holds
    rw [Memory.byte_store regular inside, if_neg (by omega)]
  | setCell i v =>
    by_cases inside : w.memory.holdsSlot (.cell i) = true
    · have shape := Memory.sameShape_setSlot w.memory (.cell i) v
      cases outcome.symm.trans (Heap.access_ok (Access.storeSlot_ok inside))
      exact .program confined (regular.of_sameShape shape) (fun _ _ _ => shape.holds _ _) fun _ _ _ => rfl
    · simp only [Action.run, Heap.access, Access.storeSlot, inside] at outcome
      cases outcome

end Confined

/-! ### Where nothing is used -/

namespace Engine

variable {e : Engine} {types : TypeTable} {m : Memory} {a : Nat}

/-- What an engine has left for new objects, and what is behind the payloads of those that it holds. -/
def Spare (e : Engine) (m : Memory) (a : Nat) : Prop :=
  match e with
  | markSweep c => Covers c.free.blocks a ∨
      ∃ b n : Nat, c.records[b]? = some n ∧ payloadOf b + m.payloadSize (payloadOf b) ≤ a ∧ a < b + n
  | copying c => (c.spaces.active.top ≤ a ∧ a < c.spaces.active.start + c.spaces.size) ∨
      (c.spaces.reserve.start ≤ a ∧ a < c.spaces.reserve.start + c.spaces.size) ∨
      ∃ p, c.resident.contains p = true ∧ p + m.payloadSize p ≤ a ∧ a < blockOf p + m.blockSize p
  | leaky c => (c.space.top ≤ a ∧ a < c.space.start + c.space.size) ∨
      ∃ p, c.held.contains p = true ∧ p + m.payloadSize p ≤ a ∧ a < blockOf p + m.blockSize p

theorem MarkSweep.unused {c : MarkSweep} (charted : (markSweep c).Charted types m) (inside : c.start ≤ a)
    (inside' : a < c.start + c.size)
    (apart : ∀ b n : Nat, c.records[b]? = some n → a < b ∨ payloadOf b + m.payloadSize (payloadOf b) ≤ a) :
    (markSweep c).Unused m a := by
  refine ⟨inArena_of_range charted.regular List.mem_cons_self charted.standing.2 inside inside', fun p holds => ?_⟩
  obtain ⟨low, n, record⟩ := MarkSweep.owns_iff.1 holds
  have out := apart _ _ record
  rwa [payloadOf_blockOf low] at out

/-- The objects of a space end where its free part begins. -/
theorem Charted.below_top (charted : e.Charted types m) {s : Space} {held : List Nat} (tiled : Tiled m s.top s.start held)
    (known : ∀ p, e.Held p → p ∈ held) {p : Nat} (holds : e.Held p) :
    s.start ≤ blockOf p ∧ p + m.payloadSize p ≤ s.top := by
  obtain ⟨low, high⟩ := tiled.bounds (known p holds)
  exact ⟨Nat.le_sub_of_add_le low, Nat.le_trans (charted.payload_lt holds) high⟩

theorem Spare.unused (spare : e.Spare m a) (charted : e.Charted types m) (ledger : e.Ledger m) : e.Unused m a := by
  cases e with
  | markSweep c =>
    obtain ⟨books, inside⟩ := ledger
    rcases spare with free | ⟨b, n, record, low, high⟩
    · obtain ⟨first, last⟩ := books.within a free
      refine MarkSweep.unused charted first last fun b n record => ?_
      have spans := charted.payload_lt (MarkSweep.owns_payloadOf record)
      have fits := (charted.fits b n record).1
      by_contra meet
      unfold Memory.blockSize at spans
      rw [blockOf_payloadOf] at spans
      exact books.cut b n a record (by omega) (by omega) free
    · obtain ⟨-, first, last⟩ := books.record b n record
      unfold payloadOf at low
      refine MarkSweep.unused charted (by omega) (by omega) fun b' n' record' => ?_
      have spans := charted.payload_lt (MarkSweep.owns_payloadOf record')
      have fits := (charted.fits b' n' record').1
      unfold Memory.blockSize at spans
      rw [blockOf_payloadOf] at spans
      rcases Nat.lt_trichotomy b b' with less | rfl | greater
      · have gap := books.apart _ _ _ _ record record' less
        exact .inl (by omega)
      · exact .inr low
      · have gap := books.apart _ _ _ _ record' record greater
        exact .inr (by omega)
  | copying c =>
    obtain ⟨books, active, reserve⟩ := ledger
    have used (p : Nat) (holds : (copying c).Held p) :=
      charted.below_top charted.fits (fun _ => Std.TreeSet.mem_toList.2) holds
    rcases spare with ⟨low, high⟩ | ⟨low, high⟩ | ⟨p, holds, low, high⟩
    · refine ⟨inArena_of_range charted.regular List.mem_cons_self active ?_ high, fun p holds => ?_⟩
      · exact Nat.le_trans (Nat.le_add_right _ _) low
      · exact .inr (Nat.le_trans (used p holds).2 low)
    · refine ⟨inArena_of_range charted.regular (List.mem_cons_of_mem _ List.mem_cons_self) reserve low high,
        fun p holds => ?_⟩
      -- The reserve is another arena than the one that the objects lie in.
      by_contra meet
      obtain ⟨first, last⟩ := used p holds
      have room := books.room
      rw [books.active] at room
      unfold Space.top at last
      have here := Memory.index_eq_of_range charted.regular active (b := a) (by omega) (by omega)
      exact books.apart (here.symm.trans (Memory.index_eq_of_range charted.regular reserve low (Nat.le_of_lt high)))
    · exact charted.unused_padding holds low high
  | leaky c =>
    rcases spare with ⟨low, high⟩ | ⟨p, holds, low, high⟩
    · refine ⟨inArena_of_range charted.regular List.mem_cons_self ledger.2 ?_ high, fun p holds => ?_⟩
      · exact Nat.le_trans (Nat.le_add_right _ _) low
      · exact .inr (Nat.le_trans (charted.below_top charted.fits (fun _ => Std.TreeSet.mem_toList.2) holds).2 low)
    · exact charted.unused_padding holds low high

/-- A header of zeros has no magic byte. -/
theorem Clean.readObject (clean : e.Clean m) (regular : m.Regular) {p : Nat}
    (unused : ∀ i, i < headerSize → e.Unused m (blockOf p + i)) :
    m.readObject p = .error (.corrupted p (.badMagic 0)) := by
  have first := (unused 0 (by decide)).1.holds_byte regular
  have last := (unused 23 (by decide)).1.holds_byte regular
  have inside : m.holds (blockOf p) headerSize = true := Memory.holds_of_ends regular first last (by decide)
  have front : m.holds (blockOf p) wordSize = true :=
    Memory.holds_of_range regular inside (Nat.le_refl _) (Nat.add_le_add_left (by decide) _)
  have magic : (m.header (blockOf p)).magic = 0 := by
    rw [Memory.header_eq regular inside]
    exact clean _ (unused 4 (by decide))
  have check : (m.header (blockOf p)).check = .error (.badMagic 0) := by
    rw [Header.check, magic, if_pos (by decide)]
  simp only [Memory.readObject, Memory.readHeader, front, if_true, bind, Except.bind, check]

end Engine

/-- Unless a violation has been seen, all bytes of the arenas are zero but those of headers and payloads. So are the bytes
that an engine has left for new objects and those behind the payloads, and no header is found in them. -/
theorem Confined.unused_is_zero {w : World} (confined : Confined w) (healthy : w.heap.poisoned = none) :
    (∀ a, w.heap.collector.engine.InArena w.memory a →
      (∀ p, w.Held p → a < blockOf p ∨ p + w.memory.payloadSize p ≤ a) → w.memory.byte a = 0) ∧
    (∀ a, w.heap.collector.engine.Spare w.memory a → w.memory.byte a = 0) ∧
    ∀ p, (∀ i, i < headerSize → w.heap.collector.engine.Unused w.memory (blockOf p + i)) →
      w.memory.readObject p = .error (.corrupted p (.badMagic 0)) := by
  have tidy := confined.tended.tidy
  have clean := confined.blank healthy
  refine ⟨fun a there apart => clean a ⟨there, apart⟩, fun a spare => ?_, fun p unused => ?_⟩
  · exact clean a (spare.unused tidy.charted (tidy.books healthy).ledger)
  · exact clean.readObject tidy.charted.regular unused

/-- Two objects have been written to, and one of them has been given back. Where it was there is no header any more. -/
theorem Confined.unused_is_zero_where_freed : ∃ w, Confined w ∧ w.heap.poisoned = none ∧
    w.memory.readWord (Memory.origin + 56) = .ok 7 ∧
    w.memory.readObject (Memory.origin + 24) = .error (.corrupted (Memory.origin + 24) (.badMagic 0)) := by
  have ran : ((World.play Tended.Tends { heapSize := 4096 } 1
      [.call (.register .references Descriptor.references_isWords), .call .pushRoot, .call (.addRoot ⟨0, 0⟩ (.cell 0)),
        .call (.allocateArray ⟨1⟩ 0), .call (.allocateArray ⟨1⟩ 7), .writeWord (Memory.origin + 24) 0 5,
        .setCell 0 (Memory.origin + 56), .call .collect]).any fun w => w.onMarkSweep fun c =>
      w.heap.poisoned = none ∧ w.memory.readWord (Memory.origin + 56) = .ok 7 ∧
        c.free.blocks.head? = some ⟨Memory.origin, 32⟩) = true := by
    decide +kernel
  obtain ⟨w, played, shown⟩ := (Option.any_eq_true _ _).1 ran
  obtain ⟨c, engine, shown⟩ := World.onMarkSweep_eq_true.1 shown
  obtain ⟨healthy, word, free⟩ := of_decide_eq_true shown
  have confined := Confined.of_play played
  have tidy := confined.tended.tidy
  refine ⟨w, confined, healthy, word, ?_⟩
  refine (confined.unused_is_zero healthy).2.2 (Memory.origin + 24) fun i lt => ?_
  refine Engine.Spare.unused ?_ tidy.charted (tidy.books healthy).ledger
  rw [show blockOf (Memory.origin + 24) = Memory.origin from blockOf_payloadOf Memory.origin, engine]
  refine .inl ⟨_, List.mem_of_head? free, Nat.le_add_right _ _, ?_⟩
  exact Nat.add_lt_add_left (Nat.lt_trans lt (by decide)) _

end TracingHeap
