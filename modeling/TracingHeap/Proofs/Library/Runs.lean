import TracingHeap.Proofs.Copying.Damage
import TracingHeap.Proofs.Library.Creation
import TracingHeap.Proofs.Library.Push

/-! Lists in running programs.

A program makes a list, keeps it where a root leads to it, and adds references to it. In between it calls the heap, makes
and extends other lists, and writes to other objects. The list is compared with the sequence of what has been added to
it. -/

set_option autoImplicit false

namespace TracingHeap

namespace World

/-- What can be reached in one world is at its new places in the other. -/
structure Moves (w w' : World) (f : Nat → Nat) : Prop where
  slots : w'.heap.roots.slots = w.heap.roots.slots
  relocation : Relocation w.heap.types w.heap.roots.slots w.memory w'.memory f

variable {w w' : World} {f g : Nat → Nat}

theorem Carries.moves (carries : w.Carries w' f) : w.Moves w' f := ⟨carries.slots, carries.relocation⟩

/-- There is one way only to say where the objects have gone. -/
theorem Carries.same (carries : w.Carries w' f) (moves : w.Moves w' g) {p : Nat} (reach : w.Reaches p) : f p = g p :=
  carries.relocation.unique moves.relocation reach

theorem Carries.renamed (carries : w.Carries w' f) (moves : w.Moves w' g) : w.Carries w' g :=
  { carries with
    relocation := moves.relocation
    held := fun p reach => carries.same moves reach ▸ carries.held p reach }

/-- The list at an address has these items, as far as a program can see. None is seen where nothing is stored. -/
structure Shows (w : World) (p : Nat) (items : List Nat) : Prop where
  length : Library.listLength p w.memory = .ok items.length w.memory
  element : ∀ j, Library.listGet p j w.memory = .ok (items[j]?.filter (· ≠ 0)) w.memory
  reference : ∀ item ∈ items, w.IsReference item
  capacity : ∃ n, Library.listCapacity p w.memory = .ok n w.memory ∧ items.length ≤ n

end World

namespace Library

/-- The slab behind a list. -/
def slabOf (w : World) (p : Nat) : Nat := w.memory.word (blockOf p + slabPlace)

-- The items are named by their current addresses, so all of them are renamed where objects have moved. The list has to
-- be reached by then from some root; where nothing moves it need not be.
/-- A program has made a list, which is at an address now, and these references have been added to it. -/
inductive Listed (lib : Library) : World → Nat → List Nat → Prop where
  | made {w w' : World} {p capacity : Nat} : w.Usable → lib.Known w.heap.types →
      lib.allocList capacity w = .ok p w' → Listed lib w' p []
  | pushed {w w' : World} {p v : Nat} {items : List Nat} {list value : Slot} {f : Nat → Nat} : Listed lib w p items →
      w.Anchors list p → w.Anchors value v → lib.listPush list value w = .ok () w' →
      w.Moves (lib.requested list w) f → Listed lib w' (f p) ((items ++ [v]).map (relocated f))
  | denied {w w' : World} {p v : Nat} {items : List Nat} {list value : Slot} {f : Nat → Nat} {x : Failure} :
      Listed lib w p items → w.Anchors list p → w.Anchors value v → lib.listPush list value w = .error x w' →
      w.Moves (lib.requested list w) f → Listed lib w' (f p) (items.map (relocated f))
  /-- A reference is added to another list, or there is no room for that. -/
  | beside {w : World} {p p' v : Nat} {items items' : List Nat} {list value : Slot} {f : Nat → Nat} :
      Listed lib w p items → w.Reaches p → Listed lib w p' items' → slabOf w p ≠ slabOf w p' → w.Anchors list p' →
      w.Anchors value v → w.Moves (lib.requested list w) f →
      Listed lib (after (lib.listPush list value w)) (f p) (items.map (relocated f))
  /-- Another list is made, or there is no room for it. -/
  | created {w : World} {p : Nat} {items : List Nat} {f : Nat → Nat} {capacity : Nat} : Listed lib w p items →
      w.Reaches p → w.Moves (after (lib.allocList capacity w)) f →
      Listed lib (after (lib.allocList capacity w)) (f p) (items.map (relocated f))
  /-- The heap is called in a way that lets the collector run, whatever comes of it. -/
  | called {w : World} {p : Nat} {items : List Nat} {f : Nat → Nat} {op : Operation} : Listed lib w p items →
      w.Reaches p → op.collects = true → w.Allows (.call op) → w.Moves (after (op.run w)) f →
      Listed lib (after (op.run w)) (f p) (items.map (relocated f))
  /-- In any other action nothing is written to the list or its slab. -/
  | rested {w : World} {p : Nat} {items : List Nat} {a : Action} : Listed lib w p items → a.Rests → w.Allows a →
      ¬ a.Writes p → ¬ a.Writes (slabOf w p) → Listed lib (after (a.run w)) p items

variable {lib : Library} {w w' u : World} {p q capacity v : Nat} {items : List Nat} {f g : Nat → Nat} {list value : Slot}

theorem Holds.shows (holds : lib.Holds w p q capacity items) : w.Shows p items :=
  ⟨holds.listLength_eq, holds.listGet_eq, fun _ member => holds.isReference member,
    ⟨capacity, holds.listCapacity_eq, holds.room⟩⟩

/-- What has been added can be reached, so it is the same under all its new names. -/
theorem Pushed.renamed {ran : EStateM.Result Failure World Unit} (pushed : Pushed lib w u f p q items v ran)
    (same : ∀ x, w.Reaches x → f x = g x) (reach : w.Reaches p)
    (known : ∀ item ∈ items ++ [v], item ≠ 0 → w.Reaches item) : Pushed lib w u g p q items v ran := by
  cases pushed with
  | denied exhausted => exact .denied exhausted
  | done holds keeps heap cells fresh =>
    have renamed : (items ++ [v]).map (relocated f) = (items ++ [v]).map (relocated g) := by
      refine List.map_congr_left fun item member => ?_
      by_cases null : item = 0
      · rw [null, relocated_zero, relocated_zero]
      · rw [relocated_of_ne null, relocated_of_ne null, same item (known item member null)]
    rw [renamed] at holds
    rw [same p reach] at holds keeps
    exact .done holds keeps heap cells fun r reach => same r reach ▸ fresh r reach

/-- Adding to a list, for any account of where the objects have gone. -/
theorem listPush_moves (holds : lib.Holds w p q capacity items) (anchors : w.Anchors list p) (given : w.Anchors value v)
    (moves : w.Moves (lib.requested list w) f) : w.Carries (lib.requested list w) f ∧
      Pushed lib w (lib.requested list w) f p q items v (lib.listPush list value w) := by
  obtain ⟨g, carries, -, pushed⟩ := listPush_spec holds anchors given
  have reach := anchors.reaches holds.list.pos
  refine ⟨carries.renamed moves, pushed.renamed (fun x => carries.same moves) reach fun item member value => ?_⟩
  rcases List.mem_append.1 member with old | new
  · exact holds.reaches reach old value
  · rw [List.mem_singleton.1 new] at value ⊢
    exact given.reaches value

/-- Another list is not affected. -/
theorem Holds.beside {p' q' capacity' : Nat} {items' : List Nat} (holds : lib.Holds w p q capacity items)
    (reach : w.Reaches p) (other : lib.Holds w p' q' capacity' items') (reach' : w.Reaches p') (apart : q ≠ q')
    (carries : w.Carries u f) (pushed : Pushed lib w u f p' q' items' v (lib.listPush list value w)) :
    lib.Holds (after (lib.listPush list value w)) (f p) (f q) capacity (items.map (relocated f)) := by
  have carried := holds.carry carries reach
  have behind := holds.list.reaches reach holds.slab.pos
  have different : p ≠ p' := by
    rintro rfl
    exact apart (holds.list.pointer.symm.trans other.list.pointer)
  generalize lib.listPush list value w = ran at pushed
  cases pushed with
  | denied exhausted => exact carried
  | done holds' keeps heap cells fresh =>
    have injective := carries.relocation.injective
    refine carried.keep keeps ?_ ?_
    · rintro k (same | same)
      · exact different (injective p p' reach reach' same)
      · exact fresh p reach (holds.list.ne_slab other.slab) same
    · rintro k (same | same)
      · exact other.list.ne_slab holds.slab (injective q p' behind reach' same).symm
      · exact fresh q behind apart same

theorem Holds.slabOf_eq (holds : lib.Holds w p q capacity items) : slabOf w p = q := holds.list.pointer

-- By induction on the run. Where objects may have moved, both the list and the account of its items are renamed.
/-- The items of a list are what has been added to it. -/
theorem Listed.holds (listed : lib.Listed w p items) : ∃ capacity, lib.Holds w p (slabOf w p) capacity items := by
  suffices found : ∃ q capacity, lib.Holds w p q capacity items by
    obtain ⟨q, capacity, holds⟩ := found
    exact ⟨capacity, holds.slabOf_eq ▸ holds⟩
  induction listed with
  | @made w w' p capacity usable known ran =>
    obtain ⟨f, -, -, created⟩ := allocList_spec usable known capacity
    rw [ran] at created
    cases created with
    | done holds fresh => exact ⟨_, _, holds⟩
  | pushed _ anchors given ran moves ih =>
    obtain ⟨q, capacity, holds⟩ := ih
    have pushed := (listPush_moves holds anchors given moves).2
    rw [ran] at pushed
    cases pushed with
    | done holds' keeps heap cells fresh => exact ⟨_, _, holds'⟩
  | denied _ anchors given ran moves ih =>
    obtain ⟨q, capacity, holds⟩ := ih
    obtain ⟨carries, pushed⟩ := listPush_moves holds anchors given moves
    rw [ran] at pushed
    cases pushed with
    | denied exhausted => exact ⟨_, _, holds.carry carries (anchors.reaches holds.list.pos)⟩
  | beside _ reach _ apart anchors given moves ih ih' =>
    obtain ⟨q, capacity, holds⟩ := ih
    obtain ⟨q', capacity', other⟩ := ih'
    rw [holds.slabOf_eq, other.slabOf_eq] at apart
    obtain ⟨carries, pushed⟩ := listPush_moves other anchors given moves
    exact ⟨_, _, holds.beside reach other (anchors.reaches other.list.pos) apart carries pushed⟩
  | @created w p items f capacity _ reach moves ih =>
    obtain ⟨q, size, holds⟩ := ih
    obtain ⟨g, carries, -, -⟩ := allocList_spec holds.list.usable holds.list.known capacity
    exact ⟨_, _, holds.carry (carries.renamed moves) reach⟩
  | called _ reach collects allowed moves ih =>
    obtain ⟨q, capacity, holds⟩ := ih
    obtain ⟨g, carries⟩ := Operation.carries holds.list.usable collects allowed
    exact ⟨_, _, holds.carry (carries.renamed moves) reach⟩
  | rested _ rests allowed apart apart' ih =>
    obtain ⟨q, capacity, holds⟩ := ih
    rw [holds.slabOf_eq] at apart'
    exact ⟨q, capacity, holds.keep (Action.keeps holds.list.usable rests allowed) (fun _ => apart) fun _ => apart'⟩

/-! ### What a program can do -/

/-- To make a list either succeeds or fails for want of room, and leaves the roots alone. -/
def Opens (lib : Library) (w : World) (capacity : Nat) : Prop :=
  ∃ f, w.Moves (after (lib.allocList capacity w)) f ∧ (after (lib.allocList capacity w)).heap.roots = w.heap.roots.spent ∧
    ((∃ p w', lib.allocList capacity w = .ok p w' ∧ w'.Shows p []) ∨
      ∃ e w', lib.allocList capacity w = .error (.violation e) w' ∧ e.IsOutOfMemory)

/-- To add to a list either succeeds, or fails for want of room and leaves it as it was. -/
def Extends (lib : Library) (w : World) (p : Nat) (items : List Nat) (list value : Slot) (v : Nat) : Prop :=
  ∃ f, w.Moves (lib.requested list w) f ∧ (after (lib.listPush list value w)).heap.roots = w.heap.roots ∧
    (after (lib.listPush list value w)).Anchors list (f p) ∧
    ((∃ w', lib.listPush list value w = .ok () w' ∧ w'.Shows (f p) ((items ++ [v]).map (relocated f))) ∨
      ∃ e w', lib.listPush list value w = .error (.violation e) w' ∧ e.IsOutOfMemory ∧
        w'.Shows (f p) (items.map (relocated f)))

/-- The list at an address behaves as the sequence of its items. -/
structure Refines (lib : Library) (w : World) (p : Nat) (items : List Nat) : Prop where
  usable : w.Usable
  known : lib.Known w.heap.types
  shows : w.Shows p items
  push : ∀ list value v, w.Anchors list p → w.Anchors value v → lib.Extends w p items list value v
  create : w.Reaches p → ∀ capacity, ∃ f, w.Moves (after (lib.allocList capacity w)) f ∧
    (after (lib.allocList capacity w)).Shows (f p) (items.map (relocated f))
  call : w.Reaches p → ∀ op, op.collects = true → w.Allows (.call op) → ∃ f, w.Moves (after (op.run w)) f ∧
    (after (op.run w)).Shows (f p) (items.map (relocated f))

theorem opens (usable : w.Usable) (known : lib.Known w.heap.types) (capacity : Nat) : lib.Opens w capacity := by
  obtain ⟨f, carries, roots, created⟩ := allocList_spec usable known capacity
  refine ⟨f, carries.moves, roots, ?_⟩
  generalize lib.allocList capacity w = ran at created
  cases created with
  | done holds fresh => exact .inl ⟨_, _, rfl, holds.shows⟩
  | denied exhausted => exact .inr ⟨_, _, rfl, exhausted⟩

theorem Holds.extends (holds : lib.Holds w p q capacity items) (anchors : w.Anchors list p) (given : w.Anchors value v) :
    lib.Extends w p items list value v := by
  obtain ⟨f, carries, roots, pushed⟩ := listPush_spec holds anchors given
  have anchors' := anchors.carry carries
  rw [relocated_of_ne holds.list.pos] at anchors'
  refine ⟨f, carries.moves, ?_⟩
  have carried := holds.carry carries (anchors.reaches holds.list.pos)
  generalize lib.requested list w = u at *
  generalize lib.listPush list value w = ran at *
  cases pushed with
  | done holds' keeps heap cells fresh =>
    exact ⟨(congrArg Heap.roots heap).trans roots, anchors'.stay carries.usable (congrArg (·.roots.slots) heap) cells,
      .inl ⟨_, rfl, holds'.shows⟩⟩
  | denied exhausted => exact ⟨roots, anchors', .inr ⟨_, _, rfl, exhausted, carried.shows⟩⟩

theorem Listed.refines (listed : lib.Listed w p items) : lib.Refines w p items := by
  obtain ⟨n, holds⟩ := listed.holds
  have usable := holds.list.usable
  refine ⟨usable, holds.list.known, holds.shows, fun list value v => holds.extends, fun reach capacity => ?_,
    fun reach op collects allowed => ?_⟩
  · obtain ⟨f, carries, -, -⟩ := allocList_spec usable holds.list.known capacity
    exact ⟨f, carries.moves, (holds.carry carries reach).shows⟩
  · obtain ⟨f, carries⟩ := Operation.carries usable collects allowed
    exact ⟨f, carries.moves, (holds.carry carries reach).shows⟩

-- A heap that has run out of memory is usable too, so this is also about what comes after a request has been refused.
/-- Lists behave as sequences, with every collector and in every mode: a list has the length of the sequence of what has
been added to it, and shows each of these references at its current address. A request that fails for want of room leaves
the list and the roots as they were. Lists may be made in any state of a careful program. -/
theorem refines_sequence (lib : Library) :
    (∀ w, Behaved World.Allows w → w.Usable) ∧
      (∀ w, w.Usable → lib.Known w.heap.types → ∀ capacity, lib.Opens w capacity) ∧
      ∀ w p items, lib.Listed w p items → lib.Refines w p items :=
  ⟨fun _ behaved => behaved.sound.usable, fun _ usable known => opens usable known, fun _ _ _ listed => listed.refines⟩

/-! ### Two lists -/

theorem strType_isWords : strType.IsWords := ⟨by decide, by decide, fun r region => by cases region; decide⟩

theorem slabType_isWords : slabType.IsWords := ⟨by decide, by decide, fun r region => by cases region; decide⟩

theorem listType_isWords : listType.IsWords := ⟨by decide, by decide, fun r region => nomatch region⟩

/-- The library of a program that begins with its types. -/
def first : Library := ⟨⟨1⟩, ⟨2⟩, ⟨3⟩⟩

/-- The library types are registered, then a type without payload, and two cells become roots. -/
def preamble : List Action :=
  [.call (.register strType strType_isWords), .call (.register slabType slabType_isWords),
    .call (.register listType listType_isWords), .call (.register .empty Descriptor.empty_isWords), .call .pushRoot,
    .call (.addRoot ⟨0, 0⟩ (.cell 0)), .call (.addRoot ⟨0, 0⟩ (.cell 1))]

/-- A list that is added to itself, and outgrows its first slab with the next reference, which is null. There is a
collection before every request. -/
theorem refines_sequence_loop : ∃ w p, first.Listed w p [p, 0] ∧ w.heap.config.mode = .stress ∧
    w.Anchors (.cell 0) p ∧ slabOf w p = Memory.origin + 104 ∧ listLength p w.memory = .ok 2 w.memory ∧
    listGet p 0 w.memory = .ok (some p) w.memory ∧ listGet p 1 w.memory = .ok none w.memory ∧
    listGet p 2 w.memory = .ok none w.memory := by
  have ran : ((World.play World.Allows { heapSize := 4096, mode := .stress } 2 preamble).any fun w₀ =>
      first.Known w₀.heap.types && w₀.onSuccess (first.allocList 1) fun p w₁ =>
        w₁.Allows (.setCell 0 p) && w₁.onSuccess (Action.setCell 0 p).run fun _ w₂ =>
          w₂.Anchors (.cell 0) p && w₂.onSuccess (first.listPush (.cell 0) (.cell 0)) fun _ w₃ =>
            decide (w₃.Anchors (.cell 0) p ∧ w₃.Anchors (.cell 1) 0) &&
              w₃.onSuccess (first.listPush (.cell 0) (.cell 1)) fun _ w₄ =>
                w₄.Anchors (.cell 0) p ∧ w₄.heap.config.mode = .stress ∧ slabOf w₄ p = Memory.origin + 104) = true := by
    decide +kernel
  obtain ⟨w₀, played, shown⟩ := (Option.any_eq_true _ _).1 ran
  obtain ⟨known, shown⟩ := Bool.and_eq_true_iff.1 shown
  obtain ⟨p, w₁, made, shown⟩ := World.onSuccess_eq_true.1 shown
  obtain ⟨allowed, shown⟩ := Bool.and_eq_true_iff.1 shown
  obtain ⟨_, w₂, kept, shown⟩ := World.onSuccess_eq_true.1 shown
  obtain ⟨anchors₂, shown⟩ := Bool.and_eq_true_iff.1 shown
  obtain ⟨_, w₃, itself, shown⟩ := World.onSuccess_eq_true.1 shown
  obtain ⟨anchors₃, shown⟩ := Bool.and_eq_true_iff.1 shown
  obtain ⟨_, w₄, null, shown⟩ := World.onSuccess_eq_true.1 shown
  have anchors₂ := of_decide_eq_true anchors₂
  obtain ⟨anchors₃, given⟩ := of_decide_eq_true anchors₃
  obtain ⟨anchors₄, mode, slab⟩ := of_decide_eq_true shown
  have usable := (refines_sequence first).1 w₀ (.of_play played)
  have listed₁ : first.Listed w₁ p [] := .made usable (of_decide_eq_true known) made
  have listed₂ : first.Listed w₂ p [] := by
    have rested := Listed.rested (a := .setCell 0 p) listed₁ trivial (of_decide_eq_true allowed) id id
    rwa [kept] at rested
  obtain ⟨n, holds⟩ := listed₁.holds
  have value := holds.list.pos
  have listed₃ : first.Listed w₃ p [p] := by
    obtain ⟨f, moves, -, leads, -⟩ := ((refines_sequence first).2.2 w₂ p [] listed₂).push _ _ _ anchors₂ anchors₂
    have next := Listed.pushed listed₂ anchors₂ anchors₂ itself moves
    rw [itself] at leads
    have stays : f p = p := leads.leads.symm.trans anchors₃.leads
    simpa [relocated, value, stays] using next
  have listed₄ : first.Listed w₄ p [p, 0] := by
    obtain ⟨f, moves, -, leads, -⟩ := ((refines_sequence first).2.2 w₃ p [p] listed₃).push _ _ _ anchors₃ given
    have next := Listed.pushed listed₃ anchors₃ given null moves
    rw [null] at leads
    have stays : f p = p := leads.leads.symm.trans anchors₄.leads
    simpa [relocated, value, stays] using next
  have shows := ((refines_sequence first).2.2 w₄ p [p, 0] listed₄).shows
  refine ⟨w₄, p, listed₄, mode, anchors₄, slab, shows.length, ?_, shows.element 1, shows.element 2⟩
  simpa [value, Option.filter] using shows.element 0

/-- Put an object into a list twice, with nothing else to lead to it. -/
def addTwice (lib : Library) (type : TypeId) : HeapM Nat := do
  let list ← lib.allocList 4
  Heap.access (Access.storeSlot (.cell 0) list)
  let value ← Heap.allocate type 0
  Heap.access (Access.storeSlot (.cell 1) value)
  lib.listPush (.cell 0) (.cell 1)
  lib.listPush (.cell 0) (.cell 1)
  Heap.access (Access.storeSlot (.cell 1) 0)
  return value

/-- What a program reads from the list in the first cell. -/
def read (m : Memory) (index : Nat) : Except Failure (Option Nat) := answer (listGet (m.slot (.cell 0)) index m)

/-- A list has an object without payload twice, on a heap that moves its objects. After a collection, which fails, the
list shows the object in two places. -/
theorem listGet_differs_after_collect : ∃ w₀ w w' v, Behaved World.Allows w₀ ∧ first.Known w₀.heap.types ∧
    first.addTwice ⟨4⟩ w₀ = .ok v w ∧ w.heap.poisoned = none ∧ w.WellFormed ∧ .cell 0 ∈ w.heap.roots.slots ∧
    read w.memory 0 = .ok (some v) ∧ read w.memory 1 = .ok (some v) ∧
    Heap.collect w = .error (.corrupted v (.danglingForward (Memory.base 1 + 128))) w' ∧
    read w'.memory 0 = .ok (some (Memory.base 1 + 128)) ∧ read w'.memory 1 = .ok (some v) ∧
    v ≠ Memory.base 1 + 128 := by
  have ran : ((World.play World.Allows { strategy := .copying, heapSize := 4096 } 2 preamble).any fun w₀ =>
      first.Known w₀.heap.types && w₀.onSuccess (first.addTwice ⟨4⟩) fun v w => w.onCopying fun c =>
        let moved := Copying.evacuateSlots w.heap.types w.heap.roots.slots c.resident
          { memory := w.memory, reserve := c.spaces.reserve }
        w.heap.poisoned = none ∧ w.WellFormed ∧ w.heap.roots.slots.Nodup ∧ .cell 0 ∈ w.heap.roots.slots ∧
          read w.memory 0 = .ok (some v) ∧ read w.memory 1 = .ok (some v) ∧
          answer moved = .error (.corrupted v (.danglingForward (Memory.base 1 + 128))) ∧
          read (after moved).memory 0 = .ok (some (Memory.base 1 + 128)) ∧
          read (after moved).memory 1 = .ok (some v) ∧ v ≠ Memory.base 1 + 128) = true := by
    decide +kernel
  obtain ⟨w₀, played, shown⟩ := (Option.any_eq_true _ _).1 ran
  obtain ⟨known, shown⟩ := Bool.and_eq_true_iff.1 shown
  obtain ⟨v, w, added, shown⟩ := World.onSuccess_eq_true.1 shown
  obtain ⟨c, engine, shown⟩ := World.onCopying_eq_true.1 shown
  obtain ⟨healthy, formed, nodup, root, zero, one, stuck, moved, stayed, differs⟩ := of_decide_eq_true shown
  rw [← Copying.evacuateAll_of_nodup nodup] at stuck moved stayed
  cases evacuated : Copying.evacuateAll w.heap.types w.heap.roots.slots c.resident
      { memory := w.memory, reserve := c.spaces.reserve } with
  | ok a left =>
    rw [evacuated] at stuck
    cases stuck
  | error x left =>
    rw [evacuated] at stuck moved stayed
    cases stuck
    have failed : Engine.collect w.heap.types w.heap.roots.slots (w.heap.collector.engine, w.memory) =
        .error (.corrupted v (.danglingForward (Memory.base 1 + 128))) (.copying (c.afterFailure left), left.memory) := by
      simp only [engine, Engine.collect, Copying.collect, evacuated]
    exact ⟨w₀, w, _, v, .of_play played, of_decide_eq_true known, added, healthy, formed, root, zero, one,
      Heap.collect_error_eq healthy failed, moved, stayed, differs⟩

end Library

end TracingHeap
