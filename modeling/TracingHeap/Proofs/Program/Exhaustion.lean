import TracingHeap.Proofs.Copying.Room
import TracingHeap.Proofs.Program.Agreement
import TracingHeap.Proofs.Program.Reachable

/-! When a program runs out of memory on a heap that moves its objects.

The store of the program decides it: what it can reach, what it asks for and the capacity of the heap. The mode of
the heap and the moments of its collections have no part in it. -/

set_option autoImplicit false

namespace TracingHeap

open Heap

/-! ### Requests -/

namespace Heap

variable {w : World} {c : Copying} {config : Config} {type : TypeId} {d : Descriptor} {r : Region} {bytes : Nat}
  (sound : w.Sound) (built : w.Built config) (engine : w.heap.collector.engine = .copying c)
  (registered : w.heap.types.get? type = some d) (occupied : Occupied w.heap.types w.heap.roots.slots w.memory bytes)

include sound built engine registered occupied

/-- Where no object is empty, a request fails exactly if it is too large for any heap, or for this one. -/
theorem fails_allocate_iff (extra : Nat) : Fails (allocate type extra w) ↔
    largestPayload < d.fixedSize + extra ∨ config.capacity < bytes + footprint (d.fixedSize + extra) := by
  have capacity : c.spaces.size = config.capacity := by
    rw [← built.capacity, engine]
    rfl
  by_cases small : d.fixedSize + extra ≤ largestPayload
  · have full (p : Nat) (reach : Reach w.heap.types w.heap.roots.slots w.memory p) : w.memory.isEmpty p = false :=
      sound.filled (by rw [engine]; rfl) p (sound.consistent.held_of_reach reach)
    rcases Copying.allocate_outcome sound.books sound.healthy sound.formed engine registered small
      (Copying.not_obstructed sound.books sound.formed engine full) occupied with ⟨fits, p, w', served⟩ | ⟨beyond, w', refused⟩
    · rw [served]
      simp only [not_fails_ok, false_iff]
      omega
    · rw [refused]
      simp only [fails_error, true_iff]
      omega
  · rcases allocate_spec sound registered extra with refused | ⟨-, -, -, -, -, fits, -⟩
    · exact ⟨fun _ => .inl (Nat.lt_of_not_le small), fun _ => refused.fails⟩
    · exact absurd fits small

theorem fails_allocateArray_iff (region : d.region = some r) (count : Nat) : Fails (allocateArray type count w) ↔
    largestPayload < d.fixedSize + count * r.elementSize ∨
      config.capacity < bytes + footprint (d.fixedSize + count * r.elementSize) := by
  have object := fails_allocate_iff sound built engine registered occupied (Word.saturate (count * r.elementSize))
  have same : Fails (allocateArray type count w) ↔ Fails (allocate type (Word.saturate (count * r.elementSize)) w) := by
    rcases allocateArray_decided sound registered region count with ⟨fails, refused⟩ | ⟨served, w₁, f, p, w', -, -, -, ran⟩
    · exact iff_of_true refused.fails fails
    · exact iff_of_false (ran ▸ not_fails_ok _ _) served
  rw [same, object]
  by_cases small : count * r.elementSize < wordLimit
  · rw [Word.saturate_of_lt small]
  · -- The size does not fit a word. Neither does the one that is asked for instead fit a heap.
    have large : largestPayload < Word.saturate (count * r.elementSize) := by
      unfold Word.saturate wordLimit largestPayload at *
      omega
    have larger : largestPayload < count * r.elementSize := by
      unfold wordLimit largestPayload at *
      omega
    exact iff_of_true (.inl (by omega)) (.inl (by omega))

end Heap

/-! ### Commands -/

namespace World.Lasting

variable {P : World → Prop} (lasting : World.Lasting P)

include lasting

theorem loadSlot (s : Slot) : Always (Stays P) (Heap.access (Access.loadSlot s)) :=
  lasting.access (Access.always_look (fun m => .refl m) _)

theorem loadWord (a : Nat) : Always (Stays P) (Heap.access (Access.loadWord a)) :=
  lasting.access (Access.always_look (fun m => .refl m) _)

theorem storeWord (a v : Nat) : Always (Stays P) (Heap.access (Access.storeWord a v)) :=
  lasting.access (Access.always_guarded (fun m => .refl m) fun m => Memory.sameShape_setWord m a v)

theorem storeSlot (s : Slot) (v : Nat) : Always (Stays P) (Heap.access (Access.storeSlot s v)) := by
  refine lasting.access fun m => ?_
  unfold Access.storeSlot
  cases m.holdsSlot s
  · exact .refl m
  · exact Memory.sameShape_setSlot m s v

/-- What outlasts every call outlasts every command of a program. -/
theorem command (c : Command) : Always (Stays P) c.run := by
  cases c with
  | register d words =>
    refine bind (.attempt (lasting.register d)) fun outcome => ?_
    cases outcome <;> exact pure _
  | pushRoot => exact bind (lasting.of_untouched fun _ => .of_heap _ rfl rfl) fun _ => pure _
  | popRoot handle => exact bind (lasting.changeRoots _) fun _ => pure _
  | addRoot handle x => exact bind (lasting.changeRoots _) fun _ => pure _
  | addGlobal x => exact bind (lasting.changeRoots _) fun _ => pure _
  | allocate id extra x => exact bind (lasting.allocate id extra) fun _ => bind (lasting.storeSlot _ _) fun _ => pure _
  | allocateArray id count x =>
    exact bind (lasting.allocateArray id count) fun _ => bind (lasting.storeSlot _ _) fun _ => pure _
  | collect => exact bind (bind lasting.across.checkPoisoned fun _ => lasting.across.runCollection) fun _ => pure _
  | copy x y => exact bind (lasting.loadSlot _) fun _ => bind (lasting.storeSlot _ _) fun _ => pure _
  | clear x => exact bind (lasting.storeSlot _ _) fun _ => pure _
  | load x offset y =>
    exact bind (lasting.loadSlot _) fun _ => bind (lasting.loadWord _) fun _ => bind (lasting.storeSlot _ _) fun _ => pure _
  | store x offset y =>
    exact bind (lasting.loadSlot _) fun _ => bind (lasting.loadSlot _) fun _ => bind (lasting.storeWord _ _) fun _ => pure _
  | read x offset => exact bind (lasting.loadSlot _) fun _ => bind (lasting.loadWord _) fun _ => pure _
  | write x offset n => exact bind (lasting.loadSlot _) fun _ => bind (lasting.storeWord _ _) fun _ => pure _
  | isNull x => exact bind (lasting.loadSlot _) fun _ => pure _
  | same x y => exact bind (lasting.loadSlot _) fun _ => bind (lasting.loadSlot _) fun _ => pure _
  | typeOf x => exact bind (lasting.loadSlot _) fun _ => bind (lasting.across.look _) fun _ => pure _
  | payloadSize x => exact bind (lasting.loadSlot _) fun _ => bind (lasting.across.look _) fun _ => pure _

end World.Lasting

/-- A command asks for more than there is room for beside what can be reached. -/
def Store.Exceeds (s : Store) (capacity : Nat) (c : Command) : Prop := ∃ size bytes, s.demand c = some size ∧
  s.LiveBytes bytes ∧ (largestPayload < size ∨ capacity < bytes + footprint size)

/-- On a heap that moves its objects the store decides which commands fail. -/
theorem Store.Represents.fails_iff {s s' : Store} {w : World} {placed : Nat → Nat → Prop} {config : Config}
    (rep : s.Represents w placed) {command : Command} {seen : Observation}
    (stepped : s.step Rule.orderly command = some (seen, s')) (full : s'.Full) (built : w.Built config)
    (moves : config.strategy = .copying) : Fails (command.run w) ↔ s.Exceeds config.capacity command := by
  obtain ⟨c, engine⟩ : ∃ c, w.heap.collector.engine = .copying c := by
    have strategy := built.strategy.trans moves
    cases engine : w.heap.collector.engine with
    | copying c => exact ⟨c, rfl⟩
    | markSweep c => rw [engine] at strategy; cases strategy
    | leaky c => rw [engine] at strategy; cases strategy
  obtain ⟨found, -, occupied⟩ := rep.sound.consistent.occupied
  have live := rep.occupied_iff.1 occupied
  have exceeds {size : Nat} (demanded : s.demand command = some size) : s.Exceeds config.capacity command ↔
      largestPayload < size ∨ config.capacity < found.bytes + footprint size := by
    constructor
    · rintro ⟨size', bytes', demanded', live', beyond⟩
      cases demanded.symm.trans demanded'
      rwa [live.unique live']
    · exact fun beyond => ⟨size, _, demanded, live, beyond⟩
  cases demanded : s.demand command with
  | none =>
    refine iff_of_false (rep.follow_quiet stepped demanded).not_fails ?_
    rintro ⟨size, -, demanded', -⟩
    cases demanded.symm.trans demanded'
  | some size =>
    have decided {request : HeapM Nat} {ran : EStateM.Result Failure World Observation}
        (outcome : Fails (request w) ∧ Refused w ran ∨ ¬ Fails (request w) ∧ Follows w ran seen s') :
        Fails ran ↔ Fails (request w) := by
      rcases outcome with ⟨fails, refused⟩ | ⟨served, follows⟩
      · exact iff_of_true refused.fails fails
      · exact iff_of_false follows.not_fails served
    rw [exceeds demanded]
    cases command with
    | allocate id extra x =>
      obtain ⟨d, known, entered⟩ := Option.bind_eq_some_iff.1 stepped
      simp only [demand, known, Option.map_some, Option.some.injEq] at demanded
      subst demanded
      have registered : w.heap.types.get? id = some d := rep.types ▸ known
      refine (decided (rep.follow_request known (allocate_spec rep.sound registered extra) (fun _ => orderly_zero)
        entered fun _ => full)).trans ?_
      exact fails_allocate_iff rep.sound built engine registered occupied extra
    | allocateArray id count x =>
      obtain ⟨d, known, later⟩ := Option.bind_eq_some_iff.1 stepped
      obtain ⟨r, region, entered⟩ := Option.bind_eq_some_iff.1 later
      simp only [demand, known, region, Option.bind_some, Option.map_some, Option.some.injEq] at demanded
      subst demanded
      have registered : w.heap.types.get? id = some d := rep.types ▸ known
      refine (decided (rep.follow_request known (allocateArray_spec rep.sound registered region count)
        (fun sound => orderly_array sound region) entered fun _ => full)).trans ?_
      exact fails_allocateArray_iff rep.sound built engine registered occupied region count
    | _ => cases demanded

/-! ### Programs -/

/-- Two heaps of the same capacity that represent one store go on together, and stop at the same command. -/
theorem Program.stops_together {program : Program} {s s' : Store} {w w' : World} {placed placed' : Nat → Nat → Prop}
    {observed : List Observation} {config config' : Config} (rep : s.Represents w placed)
    (rep' : s.Represents w' placed') (modelled : program.model Rule.orderly s = some (observed, s')) (full : s'.Full)
    (built : w.Built config) (built' : w'.Built config') (moves : config.strategy = .copying)
    (moves' : config'.strategy = .copying) (same : config.capacity = config'.capacity) :
    (program.observe w).1 = (program.observe w').1 ∧
      ((program.observe w).2 = none ↔ (program.observe w').2 = none) := by
  induction program generalizing s w w' placed placed' observed with
  | done => exact ⟨rfl, Iff.rfl⟩
  | step c next ih =>
    obtain ⟨⟨seen, s₁⟩, stepped, later⟩ := Option.bind_eq_some_iff.1 modelled
    obtain ⟨⟨rest, s₂⟩, modelled', equal⟩ := Option.map_eq_some_iff.1 later
    cases equal
    have full₁ := (Program.grows_model modelled').full full
    have first := rep.fails_iff stepped full₁ built moves
    have second := rep'.fails_iff stepped full₁ built' moves'
    rw [← same] at second
    rcases rep.follow stepped fun _ => full₁ with refused | ⟨w₁, placed₁, ran, rep₁, -⟩
    · -- The store asks for too much, so the other heap refuses as well.
      obtain ⟨e, w₁, failed⟩ := refused.fails
      obtain ⟨e', w₁', failed'⟩ := second.2 (first.1 refused.fails)
      simp only [observe, failed, failed', reduceCtorEq, true_and]
    · rcases rep'.follow stepped fun _ => full₁ with refused' | ⟨w₁', placed₁', ran', rep₁', -⟩
      · exact absurd (first.2 (second.1 refused'.fails)) (ran ▸ not_fails_ok _ _)
      · have next' := ih seen rep₁ rep₁' modelled' (((World.Built.lasting config).command c).of_ok ran built)
          (((World.Built.lasting config').command c).of_ok ran' built')
        simp only [observe, ran, ran', Prod.map_fst, Prod.map_snd, id_eq]
        exact ⟨congrArg (seen :: ·) next'.1, next'.2⟩

namespace Copying

-- Of what can be reached only the total size matters, and that does not depend on the moment of the last collection.
-- The last part says so of whole programs: their stores have no collections at all.
/-- In every well-formed state that a heap can reach, a request fails if, and only if, it does not fit beside what can
be reached. It has run out of memory then. The exception is a collection that is obstructed, which takes an empty
object. So a program that creates none stops at the same command on all heaps of one size, in whatever mode. -/
theorem allocate_fails_iff_no_room {w : World} {c : Copying} {type : TypeId} {d : Descriptor} {extra : Nat}
    (reached : Reached w) (healthy : w.heap.poisoned = none) (engine : w.heap.collector.engine = .copying c)
    (formed : w.WellFormed) (registered : w.heap.types.get? type = some d)
    (small : d.fixedSize + extra ≤ largestPayload) :
    (∃ bytes, Occupied w.heap.types w.heap.roots.slots w.memory bytes ∧
      bytes ≤ Word.floor (w.heap.config.heapSize / 2) ∧
      ((∀ p, Reach w.heap.types w.heap.roots.slots w.memory p → w.memory.isEmpty p = false) →
        ¬ Obstructed w c (footprint (d.fixedSize + extra))) ∧
      (Obstructed w c (footprint (d.fixedSize + extra)) →
        ∃ p target w', Heap.allocate type extra w = .error (.corrupted p (.danglingForward target)) w') ∧
      (¬ Obstructed w c (footprint (d.fixedSize + extra)) →
        (Fails (Heap.allocate type extra w) ↔
          Word.floor (w.heap.config.heapSize / 2) < bytes + footprint (d.fixedSize + extra)) ∧
        ∀ e w', Heap.allocate type extra w = .error e w' → e = .violation (.outOfMemory .copying
          (footprint (d.fixedSize + extra)) (Word.floor (w.heap.config.heapSize / 2) - bytes)))) ∧
    ∀ {program : Program} {cells : Nat} {observed : List Observation} {s : Store} {config : Config} {w₁ w₂ : World},
      program.model Rule.orderly (Store.start cells) = some (observed, s) → s.Full →
      w₁.Starts w.heap.config cells → w₂.Starts config cells → config.strategy = .copying →
      config.heapSize = w.heap.config.heapSize →
      (program.observe w₁).1 = (program.observe w₂).1 ∧
        ((program.observe w₁).2 = none ↔ (program.observe w₂).2 = none) ∧
        ∀ e, (program.observe w₁).2 = some e →
          ∃ strategy requested available, e = .violation (.outOfMemory strategy requested available) := by
  have books := reached.orderly healthy
  have built := reached.built
  have moves : w.heap.config.strategy = .copying := by
    rw [← built.strategy, engine]
    rfl
  have capacity : w.heap.config.capacity = Word.floor (w.heap.config.heapSize / 2) := by rw [Config.capacity, moves]
  constructor
  · have size : c.spaces.size = Word.floor (w.heap.config.heapSize / 2) := by
      rw [← capacity, ← built.capacity, engine]
      rfl
    obtain ⟨found, -, occupied⟩ := (formed.consistent books).occupied
    obtain ⟨used, room, -⟩ := occupied_le books formed engine occupied
    rw [← size]
    refine ⟨found.bytes, occupied, Nat.le_trans used room, not_obstructed books formed engine,
      allocate_obstructed books healthy formed engine registered small, fun free => ?_⟩
    rcases allocate_outcome books healthy formed engine registered small free occupied with
      ⟨fits, p, w', served⟩ | ⟨beyond, w', refused⟩
    · rw [served]
      exact ⟨iff_of_false (not_fails_ok _ _) (Nat.not_lt.2 fits), fun e w' failed => nomatch failed⟩
    · rw [refused]
      exact ⟨iff_of_true (fails_error _ _) beyond, fun e w' failed => by cases failed; rfl⟩
  · intro program cells observed s config w₁ w₂ modelled full starts starts' moves' same
    have capacity' : w.heap.config.capacity = config.capacity := by
      rw [capacity, Config.capacity, moves', same]
    obtain ⟨shown, stops⟩ := Program.stops_together starts.represents starts'.represents modelled full starts.built
      starts'.built moves moves' capacity'
    exact ⟨shown, stops, fun e => (starts.represents.agrees modelled fun _ => full).eq_outOfMemory⟩

/-- Beside an object of 40 bytes and one that has been given up, a request that takes the rest of the space is served,
and one for a word more is not. A program that asks for too much stops at the same command on a heap that collects at
every request. -/
theorem allocate_fails_one_word_more : ∃ w c, Reached w ∧ w.heap.collector.engine = .copying c ∧
    c.spaces.active.cursor = 72 ∧ Occupied w.heap.types w.heap.roots.slots w.memory 40 ∧
    ¬ Fails (Heap.allocate ⟨1⟩ 1976 w) ∧ (∃ w', Heap.allocate ⟨1⟩ 1984 w =
      .error (.violation (.outOfMemory .copying 2016 2008)) w') ∧
    ∃ (program : Program) (w₁ w₂ : World), w₁.Starts { strategy := .copying, heapSize := 4096 } 2 ∧
      w₂.Starts { strategy := .copying, mode := .stress, heapSize := 4096 } 2 ∧
      (program.observe w₁).1.length = 5 ∧ (program.observe w₁).1 = (program.observe w₂).1 ∧
      (program.observe w₁).2 ≠ none ∧ (program.observe w₂).2 ≠ none := by
  have ran : ((World.play (fun w _ => w.heap.poisoned = none) { strategy := .copying, heapSize := 4096 } 1
      [.call (.register .references Descriptor.references_isWords), .call .pushRoot, .call (.addRoot ⟨0, 0⟩ (.cell 0)),
        .call (.allocateArray ⟨1⟩ 1), .setCell 0 (Memory.origin + 24), .call (.allocateArray ⟨1⟩ 0)]).any fun w =>
      w.onCopying fun c => w.heap.poisoned = none ∧ w.WellFormed ∧ w.heap.types.get? ⟨1⟩ = some .references ∧
        w.heap.config = { strategy := .copying, heapSize := 4096 } ∧ c.spaces.active.cursor = 72 ∧
        (w.heap.types.census w.heap.roots.slots w.memory).toOption = some ⟨1, 40⟩ ∧
        ∀ p ∈ c.resident.toList, w.memory.isEmpty p = false) = true := by
    decide +kernel
  have ended : ((World.start { strategy := .copying, heapSize := 4096 } 2).any fun w =>
      let run := (Program.ofList [.register .references Descriptor.references_isWords, .pushRoot, .addRoot ⟨0, 0⟩ 0,
        .allocateArray ⟨1⟩ 1 0, .allocateArray ⟨1⟩ 0 1, .allocate ⟨1⟩ largestPayload 1]).observe w
      run.1.length = 5 ∧ run.2 ≠ none) = true := by
    decide +kernel
  have started : (World.start { strategy := .copying, mode := .stress, heapSize := 4096 } 2).isSome = true := by
    decide +kernel
  have modelled : ((Program.ofList [.register .references Descriptor.references_isWords, .pushRoot, .addRoot ⟨0, 0⟩ 0,
      .allocateArray ⟨1⟩ 1 0, .allocateArray ⟨1⟩ 0 1, .allocate ⟨1⟩ largestPayload 1]).model Rule.orderly (Store.start 2)).any
        (fun r => r.2.objects.all fun obj => 0 < obj.size) = true := by decide +kernel
  obtain ⟨w, played, shown⟩ := (Option.any_eq_true _ _).1 ran
  obtain ⟨w₁, started₁, stopped⟩ := (Option.any_eq_true _ _).1 ended
  obtain ⟨w₂, started₂⟩ := Option.isSome_iff_exists.1 started
  obtain ⟨⟨observed, s⟩, modelled, full⟩ := (Option.any_eq_true _ _).1 modelled
  obtain ⟨length, stopped⟩ := of_decide_eq_true stopped
  obtain ⟨c, engine, shown⟩ := World.onCopying_eq_true.1 shown
  obtain ⟨healthy, formed, registered, config, cursor, counted, all⟩ := of_decide_eq_true shown
  have reached := Reached.of_play played
  have consistent := formed.consistent (reached.orderly healthy)
  have filled (p : Nat) (reach : Reach w.heap.types w.heap.roots.slots w.memory p) : w.memory.isEmpty p = false := by
    have holds : w.Held p := consistent.held_of_reach reach
    rw [World.Held, engine] at holds
    exact all p (Std.TreeSet.mem_toList.2 holds)
  obtain ⟨found, census, occupied⟩ := consistent.occupied
  rw [census] at counted
  obtain rfl : found = ⟨1, 40⟩ := Option.some.inj counted
  obtain ⟨⟨bytes, occupied₁, -, free₁, -, fits⟩, -⟩ := allocate_fails_iff_no_room reached healthy engine formed
    registered (by decide : Descriptor.references.fixedSize + 1976 ≤ largestPayload)
  obtain ⟨⟨bytes', occupied₂, -, free₂, -, beyond⟩, together⟩ := allocate_fails_iff_no_room reached healthy engine
    formed registered (by decide : Descriptor.references.fixedSize + 1984 ≤ largestPayload)
  obtain rfl := occupied.unique occupied₁
  obtain rfl := occupied.unique occupied₂
  rw [config] at fits beyond together
  obtain ⟨same, stops, -⟩ := together modelled
    (fun obj member => of_decide_eq_true (Array.all_eq_true'.1 full obj member)) (.of_start started₁)
    (.of_start started₂) rfl rfl
  refine ⟨w, c, reached, engine, cursor, occupied, fun fails => ?_, ?_, _, w₁, w₂, .of_start started₁,
    .of_start started₂, length, same, stopped, mt stops.2 stopped⟩
  · exact absurd ((fits (free₁ filled)).1.1 fails) (by decide)
  · obtain ⟨e, w', failed⟩ := (beyond (free₂ filled)).1.2 (by decide)
    rw [failed, (beyond (free₂ filled)).2 e w' failed]
    exact ⟨w', rfl⟩

/-- Two cells refer to an object without payload. The request waits for a collection, since it does not fit behind an
object that has been given up, and that takes the second reference for a dangling one. -/
theorem allocate_fails_on_empty : ∃ w c bytes, Reached w ∧ w.heap.poisoned = none ∧
    w.heap.collector.engine = .copying c ∧ w.WellFormed ∧ w.heap.types.get? ⟨2⟩ = some .references ∧
    Occupied w.heap.types w.heap.roots.slots w.memory bytes ∧
    bytes + footprint (Descriptor.references.fixedSize + 1952) ≤ Word.floor (w.heap.config.heapSize / 2) ∧
    Fails (Heap.allocate ⟨2⟩ 1952 w) := by
  have ran : ((World.play (fun w _ => w.heap.poisoned = none) { strategy := .copying, heapSize := 4096 } 3
      [.call (.register .empty Descriptor.empty_isWords), .call (.register .references Descriptor.references_isWords),
        .call .pushRoot, .call (.addRoot ⟨0, 0⟩ (.cell 0)), .call (.addRoot ⟨0, 0⟩ (.cell 1)),
        .call (.addRoot ⟨0, 0⟩ (.cell 2)), .call (.allocate ⟨1⟩ 0), .setCell 0 (Memory.origin + 24),
        .setCell 1 (Memory.origin + 24), .call (.allocateArray ⟨2⟩ 0), .setCell 2 (Memory.origin + 48),
        .call (.allocateArray ⟨2⟩ 0)]).any fun w =>
      w.onCopying fun c => w.heap.poisoned = none ∧ w.WellFormed ∧ w.heap.types.get? ⟨2⟩ = some .references ∧
        w.heap.config.heapSize = 4096 ∧ w.heap.roots.slots.Nodup ∧
        (w.heap.types.census w.heap.roots.slots w.memory).toOption = some ⟨2, 56⟩ ∧
        (CopyOrder.followAll w.memory.isEmpty [] (w.heap.roots.slots.map w.memory.slot)).isNone ∧
        w.heap.collector.shouldCollect (footprint (Descriptor.references.fixedSize + 1952)) = true) = true := by
    decide +kernel
  obtain ⟨w, played, shown⟩ := (Option.any_eq_true _ _).1 ran
  obtain ⟨c, engine, shown⟩ := World.onCopying_eq_true.1 shown
  obtain ⟨healthy, formed, registered, heapSize, nodup, counted, order, due⟩ := of_decide_eq_true shown
  have reached := Reached.of_play played
  have books := reached.orderly healthy
  obtain ⟨found, census, occupied⟩ := (formed.consistent books).occupied
  rw [census] at counted
  obtain rfl : found = ⟨2, 56⟩ := Option.some.inj counted
  have unanswered : copyOrder w.heap.types w.heap.roots.slots w.memory c.spaces.size = none := by
    rw [copyOrder, distinctSlots_of_nodup nodup, Option.isNone_iff_eq_none.1 order, Option.bind_none]
  obtain ⟨p, target, w', failed⟩ := allocate_obstructed books healthy formed engine registered
    (by decide : Descriptor.references.fixedSize + 1952 ≤ largestPayload) ⟨.inl due, unanswered⟩
  refine ⟨w, c, 56, reached, healthy, engine, formed, registered, occupied, ?_, failed ▸ fails_error _ _⟩
  rw [heapSize]
  decide

end Copying

end TracingHeap
