import TracingHeap.Proofs.Library.Sequence

/-! How a list is made.

The list is kept in a root of its own while its slab is requested. The root is a variable outside the arenas, in a frame
that is popped again whatever comes of the request. -/

set_option autoImplicit false

namespace TracingHeap

/-! ### Frames of one action -/

namespace RootStack

variable (r : RootStack) (s : Slot)

/-- The root stack after a frame has been pushed and popped. -/
def spent : RootStack := { r with nextSequence := r.nextSequence + 1 }

@[simp] theorem slots_push : r.push.2.slots = r.slots := by
  simp [push, slots]

theorem pop_push : r.push.2.pop r.push.1 = .ok r.spent := by
  simp [push, pop, spent]

/-- The root stack after a frame with one slot has been pushed. -/
def pushWith : RootStack :=
  { r with frames := r.frames.push ⟨r.nextSequence, [s]⟩, nextSequence := r.nextSequence + 1 }

theorem mem_slots_pushWith {t : Slot} : t ∈ (r.pushWith s).slots ↔ t = s ∨ t ∈ r.slots := by
  simp only [pushWith, slots, Array.toList_push, List.flatMap_append, List.mem_append, List.flatMap_cons, List.flatMap_nil,
    List.reverse_singleton, List.append_nil, List.mem_singleton]
  tauto

theorem add_push : r.push.2.add r.push.1 s = .ok (r.pushWith s) := by
  have live : r.push.2.isLive r.push.1 = true := by simp [push, isLive]
  have frames : (r.frames.push ⟨r.nextSequence, []⟩).modify r.frames.size (fun frame => { frame with slots := s :: frame.slots }) =
      r.frames.push ⟨r.nextSequence, [s]⟩ := by
    refine Array.ext (by simp) fun i below _ => ?_
    rw [Array.size_modify, Array.size_push] at below
    rw [Array.getElem_modify, Array.getElem_push, Array.getElem_push]
    by_cases top : i < r.frames.size
    · rw [if_neg (Nat.ne_of_gt top), dif_pos top, dif_pos top]
    · rw [if_pos (by omega), dif_neg top, dif_neg top]
  rw [add, if_pos live]
  simp only [push, pushWith, frames]

theorem pop_pushWith : (r.pushWith s).pop r.push.1 = .ok r.spent := by
  simp [push, pop, pushWith, spent]

end RootStack

namespace World

/-- The same objects under other roots, and beside other cells. -/
def housed (w : World) (roots : RootStack) (cells : Array Nat) : World :=
  { heap := { w.heap with roots }, memory := { w.memory with cells } }

variable {w w' : World} {f : Nat → Nat} {roots : RootStack} {cells : Array Nat}

/-- The objects of a heap do not depend on what is kept outside the arenas. -/
theorem Usable.housed (usable : w.Usable) (fine : ∀ s ∈ roots.slots, ∃ i, s = .cell i ∧ i < cells.size ∧
    w.IsReference (cells[i]?.getD 0)) : (w.housed roots cells).Usable where
  sound := by
    have formed := usable.sound.formed
    have books := usable.sound.books
    refine ⟨rfl, ⟨⟨books.regular.extent_le, books.regular.below⟩, books.types, books.ledger.congr fun _ _ _ => rfl⟩, ?_,
      usable.sound.filled⟩
    refine ⟨formed.unmarked, formed.typed, ?_, formed.references, fun s root => ?_, fun s root => ?_⟩
    · exact formed.fits.congr fun _ _ => rfl
    · obtain ⟨i, rfl, below, -⟩ := fine s root
      exact ⟨i, rfl, below⟩
    · obtain ⟨i, rfl, -, reference⟩ := fine s root
      exact reference
  spent := usable.spent

/-- The cell that was there last is gone. None of the roots is in it. -/
theorem Usable.withoutCell (usable : w.Usable) {n : Nat} (size : w.memory.cells.size = n + 1)
    (fine : ∀ s ∈ roots.slots, s ∈ w.heap.roots.slots ∧ ∃ i, s = .cell i ∧ i < n) :
    (w.housed roots w.memory.cells.pop).Usable := by
  refine usable.housed fun s root => ?_
  obtain ⟨old, i, rfl, below⟩ := fine s root
  refine ⟨i, rfl, by rw [Array.size_pop, size]; exact below, ?_⟩
  rw [Array.getElem?_pop, size, Nat.add_sub_cancel, if_pos below]
  exact (usable.root old).2

/-- There is one more cell, and it is a root. -/
theorem Usable.withCell (usable : w.Usable) {word : Nat} (reference : w.IsReference word)
    (same : ∀ s, s ∈ roots.slots ↔ s = .cell w.memory.cells.size ∨ s ∈ w.heap.roots.slots) :
    (w.housed roots (w.memory.cells.push word)).Usable ∧
      (w.housed roots (w.memory.cells.push word)).Anchors (.cell w.memory.cells.size) word := by
  refine ⟨usable.housed fun s root => ?_, (same _).2 (.inl rfl), ?_⟩
  · rcases (same s).1 root with rfl | old
    · refine ⟨_, rfl, by simp, ?_⟩
      rwa [Array.getElem?_push_size, Option.getD_some]
    · obtain ⟨⟨i, rfl, below⟩, reference⟩ := usable.root old
      refine ⟨i, rfl, by rw [Array.size_push]; omega, ?_⟩
      rw [Array.getElem?_push_lt below]
      rwa [Memory.slot, Array.getElem?_eq_getElem below] at reference
  · show ((w.memory.cells.push word)[w.memory.cells.size]?).getD 0 = word
    rw [Array.getElem?_push_size, Option.getD_some]

/-- The world in which a frame on top of a root stack has one slot, which is a new cell. -/
def guarding (w : World) (r : RootStack) (word : Nat) : World :=
  w.housed (r.pushWith (.cell w.memory.cells.size)) (w.memory.cells.push word)

/-- An object may be written to that nothing leads to. -/
theorem Puts.carries {p k v : Nat} (puts : w.Puts w' p k v) (usable : (w.housed roots cells).Usable)
    (usable' : (w'.housed roots cells).Usable) (unreached : ¬ (w.housed roots cells).Reaches p) :
    (w.housed roots cells).Carries (w'.housed roots cells) id where
  usable := usable'
  types := fun id => by rw [housed, housed, puts.heap]
  slots := rfl
  relocation := .of_same usable.consistent ⟨puts.shape.extents, rfl⟩ rfl fun q reach =>
    puts.others q (usable.consistent.held_of_reach reach) fun same => unreached (same ▸ reach)
  held := fun q reach => puts.keeps.held q (usable.consistent.held_of_reach reach)

theorem Usable.keeps_housed (usable : w.Usable) (usable' : (w.housed roots cells).Usable) (written : Nat → Nat → Prop) :
    w.Keeps (w.housed roots cells) written := { Keeps.refl usable written with usable := usable' }

namespace Carries

variable {roots' : RootStack}

/-- It makes no difference how the slots came to be roots. -/
theorem rerooted (carries : (w.housed roots w.memory.cells).Carries w' f) (same : roots.slots = w.heap.roots.slots)
    (same' : roots'.slots = w.heap.roots.slots) : w.Carries (w'.housed roots' w'.memory.cells) f where
  usable := carries.usable.housed fun s root => by
    have member : s ∈ w'.heap.roots.slots := by
      rw [carries.slots, World.housed, same, ← same']
      exact root
    obtain ⟨⟨i, rfl, below⟩, reference⟩ := carries.usable.root member
    exact ⟨i, rfl, below, reference⟩
  types := carries.types
  slots := same'
  relocation := carries.relocation.congr_roots fun _ => by rw [World.housed, same]
  held := fun p reach => carries.held p (reach.congr_roots fun _ => by rw [World.housed, same])

variable {word : Nat} (carries : (w.housed roots (w.memory.cells.push word)).Carries w' f)
  (same : ∀ s, s ∈ roots.slots ↔ s = .cell w.memory.cells.size ∨ s ∈ w.heap.roots.slots)

include same in
theorem reaches_push (usable : w.Usable) {p : Nat} (reach : w.Reaches p) :
    (w.housed roots (w.memory.cells.push word)).Reaches p :=
  Relocation.reach_push (fun _ root => (usable.root root).1) (fun s root => (same s).2 (.inr root)) reach

include carries same

/-- A root that an action has had for itself is gone with it. -/
theorem withoutCell (usable : w.Usable) (same' : roots'.slots = w.heap.roots.slots) :
    w.Carries (w'.housed roots' w'.memory.cells.pop) f where
  usable := carries.usable.withoutCell (n := w.memory.cells.size)
    (by simpa [World.housed] using carries.relocation.shape.cells) fun s root => by
      have old : s ∈ w.heap.roots.slots := same' ▸ root
      exact ⟨carries.slots ▸ (same s).2 (.inr old), (usable.root old).1⟩
  types := carries.types
  slots := same'
  relocation := carries.relocation.withoutCell (fun s root => (usable.root root).1) same
  held := fun p reach => carries.held p (reaches_push same usable reach)

end Carries

end World

/-! ### Actions with a frame and a variable of their own -/

namespace Heap

variable {α : Type} {w u : World} {roots : RootStack} {a : α} {e : Failure}

section

variable {body : RootHandle → HeapM α} (popped : u.heap.roots.pop w.heap.roots.push.1 = .ok roots)

include popped

theorem attempt_popRoot : attempt (popRoot w.heap.roots.push.1) u = .ok (.ok ()) (u.housed roots u.memory.cells) :=
  attempt_ok (changeRoots_ok popped)

theorem inScope_ok (ran : body w.heap.roots.push.1 (w.housed w.heap.roots.push.2 w.memory.cells) = .ok a u) :
    inScope body w = .ok a (u.housed roots u.memory.cells) := by
  have pushed : pushRoot w = .ok w.heap.roots.push.1 (w.housed w.heap.roots.push.2 w.memory.cells) := rfl
  unfold inScope
  rw [run_bind pushed, run_bind (attempt_ok ran)]
  exact run_bind (attempt_popRoot popped)

theorem inScope_error (failed : body w.heap.roots.push.1 (w.housed w.heap.roots.push.2 w.memory.cells) = .error e u) :
    inScope body w = .error e (u.housed roots u.memory.cells) := by
  have pushed : pushRoot w = .ok w.heap.roots.push.1 (w.housed w.heap.roots.push.2 w.memory.cells) := rfl
  unfold inScope
  rw [run_bind pushed, run_bind (attempt_error failed)]
  exact run_bind (attempt_popRoot popped)

end

variable {body : Slot → HeapM α} {word : Nat}

theorem withVariable_ok
    (ran : body (.cell w.memory.cells.size) (w.housed w.heap.roots (w.memory.cells.push word)) = .ok a u) :
    withVariable word body w = .ok a (u.housed u.heap.roots u.memory.cells.pop) := by
  unfold withVariable
  rw [run_bind_get]
  exact run_bind (attempt_ok ran)

theorem withVariable_error
    (failed : body (.cell w.memory.cells.size) (w.housed w.heap.roots (w.memory.cells.push word)) = .error e u) :
    withVariable word body w = .error e (u.housed u.heap.roots u.memory.cells.pop) := by
  unfold withVariable
  rw [run_bind_get]
  exact run_bind (attempt_error failed)

end Heap

namespace Library

/-- The slab is put into the list, which is looked up again. -/
def attach (own : Slot) (slab : Nat) : Access Nat := do
  let list ← liveAt own
  Access.storeWord (slotAt list wordSize) slab
  return list

theorem allocList_eq (lib : Library) (capacity : Nat) : lib.allocList capacity = (Heap.inScope fun frame => do
    let list ← Heap.allocate lib.list 0
    Heap.withVariable list fun own => do
      Heap.addRoot frame own
      let slab ← lib.allocSlab capacity
      Heap.access (attach own slab)) := rfl

variable {lib : Library} {w w' : World} {p q capacity : Nat} {items : List Nat} {f : Nat → Nat} {own : Slot}

theorem attach_ok {old : Nat} (list : lib.ListAt w p old 0) (anchors : w.Anchors own p) (held : w.Held q) :
    ∃ m', attach own q w.memory = .ok p m' ∧ lib.ListAt { w with memory := m' } p q 0 ∧
      w.Puts { w with memory := m' } p slabPlace q := by
  obtain ⟨m', stored, list', puts⟩ := list.putSlab held
  refine ⟨m', ?_, list', puts⟩
  unfold attach
  rw [run_bind (liveAt_ok anchors list.usable list.pos), run_bind stored]
  rfl

/-- The slab is put into a list that nothing but the last cell leads to, and the cell is gone. -/
theorem attach_withoutCell {old n : Nat} {roots : RootStack} (list : lib.ListAt w p old 0) (anchors : w.Anchors own p)
    (slab : lib.SlabAt w q capacity) (size : w.memory.cells.size = n + 1)
    (fine : ∀ s ∈ roots.slots, s ∈ w.heap.roots.slots ∧ ∃ i, s = .cell i ∧ i < n)
    (unreached : ¬ (w.housed roots w.memory.cells.pop).Reaches p) : ∃ m, attach own q w.memory = .ok p m ∧
      (w.housed roots w.memory.cells.pop).Carries (World.housed { w with memory := m } roots m.cells.pop) id ∧
      lib.Holds (World.housed { w with memory := m } roots m.cells.pop) p q capacity [] := by
  obtain ⟨m, attached, list', puts⟩ := attach_ok list anchors slab.held
  have cells : m.cells = w.memory.cells := puts.cells
  have final : (World.housed { w with memory := m } roots m.cells.pop).Usable :=
    puts.keeps.usable.withoutCell (by rw [cells]; exact size) fine
  have carries : (w.housed roots w.memory.cells.pop).Carries (World.housed { w with memory := m } roots m.cells.pop) id := by
    have usable := list.usable.withoutCell size fine
    rw [← cells] at usable unreached ⊢
    exact puts.carries usable final unreached
  have keeps : World.Keeps w (World.housed { w with memory := m } roots m.cells.pop) fun r _ => r = p :=
    (puts.keeps.mono fun _ _ written => written.1).trans (puts.keeps.usable.keeps_housed final _)
  have list'' := list'.keep (puts.keeps.usable.keeps_housed final fun _ _ => False) id id
  exact ⟨m, attached, carries, list'', slab.keep keeps (list.ne_slab slab).symm, Nat.zero_le _, fun j item found => nomatch found⟩

/-- What comes of making a list. The list and its slab are none of the objects that could be reached. -/
inductive Created (lib : Library) (w : World) (f : Nat → Nat) (capacity : Nat) : EStateM.Result Failure World Nat → Prop where
  | done {w' : World} {p q : Nat} : lib.Holds w' p q capacity [] → (∀ r, w.Reaches r → f r ≠ p ∧ f r ≠ q) →
      Created lib w f capacity (.ok p w')
  | denied {w' : World} {e : HeapError} : e.IsOutOfMemory → Created lib w f capacity (.error (.violation e) w')

/-- A list that was just requested has neither length nor slab. -/
theorem ListAt.of_enters (known : lib.Known w.heap.types) (carries : w.Carries w' f)
    (enters : w.Enters w' f lib.list listType.fixedSize (fun _ => 0) p) : lib.ListAt w' p 0 0 where
  usable := carries.usable
  known := known.mono fun id d type => (carries.types id).trans type
  held := enters.held
  type := enters.type
  count := enters.word countPlace (by decide) (by decide) (by decide)
  pointer := enters.word slabPlace (by decide) (by decide) (by decide)

/-- The request for the slab, and what is done with it. -/
def equip (lib : Library) (frame : RootHandle) (capacity list : Nat) : HeapM Nat :=
  Heap.withVariable list fun own => do
    Heap.addRoot frame own
    let slab ← lib.allocSlab capacity
    Heap.access (attach own slab)

-- The list is reached through its own root only, so to write to it changes nothing for anyone else.
theorem equip_spec {r : RootStack} (list : lib.ListAt w p 0 0) (pushed : w.heap.roots = r.push.2)
    (unreached : ¬ (w.housed r.spent w.memory.cells).Reaches p) (capacity : Nat) :
    ∃ f u, (w.housed r.spent w.memory.cells).Carries (u.housed r.spent u.memory.cells) f ∧
      u.heap.roots.pop r.push.1 = .ok r.spent ∧
      ((∃ e, e.IsOutOfMemory ∧ lib.equip r.push.1 capacity p w = .error (.violation e) u) ∨
        ∃ p' q, lib.equip r.push.1 capacity p w = .ok p' u ∧ lib.Holds (u.housed r.spent u.memory.cells) p' q capacity [] ∧
          ∀ x, (w.housed r.spent w.memory.cells).Reaches x → f x ≠ p' ∧ f x ≠ q) := by
  have slots : w.heap.roots.slots = r.slots := by rw [pushed, RootStack.slots_push]
  have usable : (w.housed r.spent w.memory.cells).Usable := list.usable.housed fun s root => by
    obtain ⟨⟨i, rfl, below⟩, reference⟩ := list.usable.root (slots ▸ root)
    exact ⟨i, rfl, below, reference⟩
  have same (s : Slot) := r.mem_slots_pushWith (.cell w.memory.cells.size) (t := s)
  obtain ⟨usable₁, anchors₁⟩ : (w.guarding r p).Usable ∧ (w.guarding r p).Anchors (.cell w.memory.cells.size) p :=
    usable.withCell (.inr list.held) same
  have keeps : w.Keeps (w.guarding r p) fun _ _ => False := list.usable.keeps_housed usable₁ _
  have list₁ := list.keep keeps id id
  have added : Heap.addRoot r.push.1 (.cell w.memory.cells.size) (w.housed w.heap.roots (w.memory.cells.push p)) =
      .ok () (w.guarding r p) := by
    rw [pushed]
    exact Heap.changeRoots_ok (r.add_push _)
  have answers := allocSlab_answers usable₁ list₁.known capacity
  have equip_error {x : Failure} {u : World} (failed : lib.allocSlab capacity (w.guarding r p) = .error x u) :
      lib.equip r.push.1 capacity p w = .error x (u.housed u.heap.roots u.memory.cells.pop) :=
    Heap.withVariable_error (by rw [run_bind added, run_bind_error failed])
  have equip_ok {q p' : Nat} {u : World} {m : Memory} (ran : lib.allocSlab capacity (w.guarding r p) = .ok q u)
      (attached : attach (.cell w.memory.cells.size) q u.memory = .ok p' m) :
      lib.equip r.push.1 capacity p w = .ok p' (World.housed { u with memory := m } u.heap.roots m.cells.pop) :=
    Heap.withVariable_ok (by rw [run_bind added, run_bind ran]; exact Heap.access_ok attached)
  cases requested : lib.allocSlab capacity (w.guarding r p) with
  | error x u =>
    rw [requested] at answers
    cases answers with
    | @refused _ f _ carries roots exhausted =>
      have first : (w.housed r.spent w.memory.cells).Carries (u.housed r.spent u.memory.cells.pop) f :=
        World.Carries.withoutCell carries same usable rfl
      refine ⟨f, _, first, ?_, .inl ⟨_, exhausted, equip_error requested⟩⟩
      show u.heap.roots.pop _ = _
      rw [roots]
      exact r.pop_pushWith _
  | ok q u =>
    rw [requested] at answers
    cases answers with
    | @served _ f _ carries roots enters =>
      have first : (w.housed r.spent w.memory.cells).Carries (u.housed r.spent u.memory.cells.pop) f :=
        World.Carries.withoutCell carries same usable rfl
      have anchors := anchors₁.carry carries
      have own : (w.guarding r p).Reaches p := anchors₁.reaches list.pos
      rw [relocated_of_ne list.pos] at anchors
      have slab : lib.SlabAt u q capacity := .of_enters list₁.known carries enters
      have fresh (x : Nat) (reach : (w.housed r.spent w.memory.cells).Reaches x) : f x ≠ f p ∧ f x ≠ q := by
        have reach₁ : (w.guarding r p).Reaches x := World.Carries.reaches_push same usable reach
        refine ⟨fun equal => ?_, enters.fresh x reach₁⟩
        exact unreached (carries.relocation.injective x p reach₁ own equal ▸ reach)
      have cells : u.memory.cells.size = w.memory.cells.size + 1 := by
        simpa [World.guarding, World.housed] using carries.relocation.shape.cells
      have fine (s : Slot) (root : s ∈ r.spent.slots) : s ∈ u.heap.roots.slots ∧ ∃ i, s = .cell i ∧ i < w.memory.cells.size :=
        ⟨carries.slots ▸ (same s).2 (.inr root), (usable.root root).1⟩
      obtain ⟨m, attached, second, holds⟩ := attach_withoutCell (list₁.carry carries own) anchors slab cells fine fun reach => by
        obtain ⟨x, old, equal⟩ := (first.reaches_iff usable).1 reach
        exact (fresh x old).1 equal
      refine ⟨f, _, first.trans second usable, ?_, .inr ⟨f p, q, equip_ok requested attached, holds, fresh⟩⟩
      show u.heap.roots.pop _ = _
      rw [roots]
      exact r.pop_pushWith _

/-- A list is made, or there is no room for it or for its slab. Whichever it is, no root is left behind. -/
theorem allocList_spec (usable : w.Usable) (known : lib.Known w.heap.types) (capacity : Nat) :
    ∃ f, w.Carries (after (lib.allocList capacity w)) f ∧
      (after (lib.allocList capacity w)).heap.roots = w.heap.roots.spent ∧
      Created lib w f capacity (lib.allocList capacity w) := by
  have slots := w.heap.roots.slots_push
  have usable₀ : (w.housed w.heap.roots.push.2 w.memory.cells).Usable := usable.housed fun s root => by
    obtain ⟨⟨i, rfl, below⟩, reference⟩ := usable.root (slots ▸ root)
    exact ⟨i, rfl, below, reference⟩
  have known₀ : lib.Known (w.housed w.heap.roots.push.2 w.memory.cells).heap.types := known
  have answers : (w.housed w.heap.roots.push.2 w.memory.cells).Answers lib.list (listType.fixedSize + 0) (fun _ => 0)
      (Heap.allocate lib.list 0 _) := Heap.allocate_answers usable₀ known₀.list fun _ => by decide
  rw [allocList_eq]
  cases requested : Heap.allocate lib.list 0 (w.housed w.heap.roots.push.2 w.memory.cells) with
  | error x u =>
    rw [requested] at answers
    cases answers with
    | @refused _ f _ carries roots exhausted =>
      have popped : u.heap.roots.pop w.heap.roots.push.1 = .ok w.heap.roots.spent := by
        rw [roots]
        exact w.heap.roots.pop_push
      rw [Heap.inScope_error popped (run_bind_error requested)]
      exact ⟨f, carries.rerooted slots rfl, rfl, .denied exhausted⟩
  | ok p u =>
    rw [requested] at answers
    cases answers with
    | @served _ f _ carries roots enters =>
      have first : w.Carries (u.housed w.heap.roots.spent u.memory.cells) f := carries.rerooted slots rfl
      have list : lib.ListAt u p 0 0 := .of_enters known₀ carries enters
      have unreached : ¬ (u.housed w.heap.roots.spent u.memory.cells).Reaches p := fun reach => by
        obtain ⟨x, old, rfl⟩ := (first.reaches_iff usable).1 reach
        exact enters.fresh x (old.congr_roots fun _ => by rw [World.housed, slots]) rfl
      obtain ⟨g, u', second, popped, ⟨e, exhausted, ran⟩ | ⟨p', q, ran, holds, fresh⟩⟩ :=
        equip_spec list roots unreached capacity
      · rw [Heap.inScope_error popped ((run_bind requested).trans ran)]
        exact ⟨g ∘ f, first.trans second usable, rfl, .denied exhausted⟩
      · rw [Heap.inScope_ok popped ((run_bind requested).trans ran)]
        exact ⟨g ∘ f, first.trans second usable, rfl, .done holds fun r reach => fresh (f r) (first.reaches usable reach)⟩

end Library

end TracingHeap
