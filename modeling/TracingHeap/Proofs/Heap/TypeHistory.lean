import TracingHeap.Proofs.Heap.Tables

/-! The types of a heap over its life.

Object headers keep the numbers of types for as long as there are objects, so a number must never come to mean another
type. Whatever a program does, the table of its heap is that of the types that were accepted, and no type is accepted
after the first request that gets past the table. -/

set_option autoImplicit false

namespace TracingHeap

/-- What happens to a heap: a call, or its type table is closed as such. -/
inductive Event : Type 1 where
  | close
  | call {α : Type} (c : Call α)

namespace Heap

variable {w w' : World} {d : Descriptor} {id : TypeId}

theorem register_eq_ok (registered : register d w = .ok id w') : ∃ t, w.heap.types.register d = .ok (id, t) := by
  cases tried : w.heap.types.register d with
  | ok pair =>
    rw [register_ok tried] at registered
    cases registered
    exact ⟨_, rfl⟩
  | error e =>
    rw [register_error tried] at registered
    cases registered

theorem register_eq_error {x : Failure} (refused : register d w = .error x w') :
    w' = w ∧ ∃ e, x = .violation e ∧ w.heap.types.register d = .error e := by
  cases tried : w.heap.types.register d with
  | ok pair =>
    rw [register_ok tried] at refused
    cases refused
  | error e =>
    rw [register_error tried] at refused
    cases refused
    exact ⟨rfl, e, rfl, rfl⟩

theorem register_closed_iff : register d w = .error (.violation (.registrationClosed d.name)) w ↔ w.heap.types.closed = true := by
  rw [← TypeTable.register_closed_iff]
  constructor
  · intro refused
    obtain ⟨-, e, same, tried⟩ := register_eq_error refused
    cases same
    exact tried
  · exact register_error

end Heap

namespace Event

variable {w : World}

/-- What an event asks of the type table. -/
def typeRequests (w : World) : Event → List TypeRequest
  | close => [.close]
  | call c => c.typeRequests w

/-- The type that an event adds to the table. -/
def accepts (w : World) : Event → List Descriptor
  | call (.register d) => if Fails (Heap.register d w) then [] else [d]
  | _ => []

/-- The event closes the type table: also a request does that gets past the table, whatever comes of it. -/
def Closes (w : World) : Event → Prop
  | close => True
  | call (.allocate id _) => w.Considers id
  | call (.allocateArray id _) => w.Considers id ∧ ((w.heap.types.get? id).bind Descriptor.region).isSome
  | _ => False

theorem closes_iff (e : Event) : e.Closes w ↔ .close ∈ e.typeRequests w := by
  cases e with
  | close => simp [Closes, typeRequests]
  | call c => cases c <;> simp [Closes, typeRequests, Call.typeRequests]

instance (w : World) (e : Event) : Decidable (e.Closes w) := decidable_of_iff _ e.closes_iff.symm

theorem accepts_eq (e : Event) : e.accepts w = w.heap.types.accepted (e.typeRequests w) := by
  cases e with
  | close => rfl
  | call c =>
    cases c with
    | register d =>
      simp only [accepts, typeRequests, Call.typeRequests, TypeTable.accepted]
      cases tried : w.heap.types.register d with
      | ok pair => simp only [Heap.register_ok tried, not_fails_ok, if_false]
      | error e => simp only [Heap.register_error tried, fails_error, if_true]
    | allocate id extra =>
      simp only [accepts, typeRequests, Call.typeRequests]
      split <;> rfl
    | allocateArray id count =>
      simp only [accepts, typeRequests, Call.typeRequests]
      split <;> rfl
    | _ => rfl

end Event

namespace World

variable {w : World}

def happen (w : World) : Event → World
  | .close => w.closed
  | .call c => after (c.run w)

def happened (w : World) (events : List Event) : World := events.foldl happen w

/-- The types that are accepted, in this order. -/
def accepted : World → List Event → List Descriptor
  | _, [] => []
  | w, e :: rest => e.accepts w ++ (w.happen e).accepted rest

/-- One of the events closes the type table. -/
def Closing : World → List Event → Prop
  | _, [] => False
  | w, e :: rest => e.Closes w ∨ (w.happen e).Closing rest

instance decidableClosing : (w : World) → (events : List Event) → Decidable (w.Closing events)
  | _, [] => inferInstanceAs (Decidable False)
  | w, e :: rest =>
    have := decidableClosing (w.happen e) rest
    inferInstanceAs (Decidable (e.Closes w ∨ (w.happen e).Closing rest))

theorem types_happen (w : World) (e : Event) : (w.happen e).heap.types = w.heap.types.served (e.typeRequests w) := by
  cases e with
  | close => rfl
  | call c => exact (c.asks_run w).types

/-- What every request to the table keeps is kept over the life of the heap. -/
theorem types_induction {P : TypeTable → Prop} (step : ∀ t requests, P t → P (t.served requests)) (start : P w.heap.types)
    (events : List Event) : P (w.happened events).heap.types := by
  induction events generalizing w with
  | nil => exact start
  | cons e rest ih =>
    refine ih ?_
    rw [types_happen]
    exact step _ _ start

theorem toList_happened (w : World) (events : List Event) :
    (w.happened events).heap.types.descriptors.toList = w.heap.types.descriptors.toList ++ w.accepted events := by
  induction events generalizing w with
  | nil => exact (List.append_nil _).symm
  | cons e rest ih =>
    refine (ih (w.happen e)).trans ?_
    rw [types_happen, TypeTable.toList_served, ← e.accepts_eq, List.append_assoc]
    rfl

theorem closed_happened (w : World) (events : List Event) :
    (w.happened events).heap.types.closed = true ↔ w.heap.types.closed = true ∨ w.Closing events := by
  induction events generalizing w with
  | nil => simp [happened, Closing]
  | cons e rest ih =>
    refine (ih (w.happen e)).trans ?_
    rw [types_happen, TypeTable.closed_served, ← e.closes_iff, or_assoc]
    rfl

end World

/-- Over the life of a heap, its type table only grows. It lists the types that were accepted: they are numbered from one
in the order of acceptance, a number stands for its type for good, no other number is known, and a type is found under
its name, which no other has. A refused registration changes nothing. Registrations are refused because the table is
closed exactly if it has been closed, or a request for an object of a registered type has found the heap healthy,
whatever has come of it. -/
theorem World.types_only_grow {w : World} (fresh : w.heap.types = {}) (events : List Event)
    (few : (w.accepted events).length + 1 < UInt32.size) :
    let u := w.happened events
    u.heap.types.Lists (w.accepted events) ∧
    (∀ d id u', Heap.register d u = .ok id u' → id.raw.toNat = (w.accepted events).length + 1) ∧
    (∀ later id d, u.heap.types.get id = .ok d → (u.happened later).heap.types.get id = .ok d) ∧
    (∀ d e u', Heap.register d u = .error e u' → u' = u) ∧
    (∀ d, Heap.register d u = .error (.violation (.registrationClosed d.name)) u ↔ w.Closing events) := by
  intro u
  have types : u.heap.types.descriptors.toList = w.accepted events := by
    have grown := w.toList_happened events
    rwa [fresh] at grown
  have size : u.heap.types.size = (w.accepted events).length := by rw [← types, Array.length_toList]; rfl
  have indexed : u.heap.types.Indexed :=
    types_induction (fun _ requests indexed => indexed.served requests) (fresh ▸ .empty) events
  refine ⟨?_, ?_, ?_, fun d e u' refused => (Heap.register_eq_error refused).1, ?_⟩
  · rw [← types]
    exact indexed.lists (by omega)
  · intro d id u' registered
    obtain ⟨t, registered⟩ := Heap.register_eq_ok registered
    rw [← size]
    exact TypeTable.number_of_register (by omega) registered
  · intro later id d found
    have step (t : TypeTable) (requests : List TypeRequest) (found : t.get id = .ok d) := TypeTable.get_served found requests
    exact types_induction step found later
  · intro d
    rw [Heap.register_closed_iff, closed_happened, fresh]
    exact or_iff_right Bool.false_ne_true

/-- Two types are accepted. Two are refused, one for its name, and one after a request for more than the heap has room
for, which has closed the table all the same. -/
theorem World.types_only_grow_of_two : ∃ w : World, w.heap.types = {} ∧
    ∃ events, (w.accepted events).length + 1 < UInt32.size ∧ (w.happened events).heap.types.Lists [.link, .references] ∧
      (w.happened events).heap.types.lookup "References" = some ⟨2⟩ ∧
      (w.happened events).heap.types.get ⟨0⟩ = .error (.unregisteredType ⟨0⟩) ∧
      Heap.register .empty (w.happened events) = .error (.violation (.registrationClosed "Empty")) (w.happened events) := by
  let events : List Event := [.call (.register .link), .call (.register { Descriptor.references with name := "Link" }),
    .call (.register .references), .call (.allocate ⟨1⟩ 5000), .call (.register .empty)]
  have ran : ((World.start { heapSize := 4096 } 0).any fun w =>
      w.heap.types = {} ∧ w.accepted events = [.link, .references] ∧ w.Closing events) = true := by
    decide +kernel
  obtain ⟨w, -, shown⟩ := (Option.any_eq_true _ _).1 ran
  obtain ⟨fresh, accepted, closing⟩ := of_decide_eq_true shown
  have few : (w.accepted events).length + 1 < UInt32.size := by
    rw [accepted]
    decide
  obtain ⟨lists, -, -, -, closed⟩ := types_only_grow fresh events few
  rw [accepted] at lists
  refine ⟨w, fresh, events, few, lists, ?_, lists.unknown _ (.inl rfl), (closed .empty).2 closing⟩
  exact (lists.lookup _ _).2 ⟨.references, (lists.get _ _).2 ⟨1, rfl, rfl⟩, rfl⟩

end TracingHeap
