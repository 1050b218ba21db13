import TracingHeap.Layout.Trace
import TracingHeap.Proofs.Layout.Outline
import TracingHeap.RootStack

/-! Programs that do not look at addresses, and a store of objects without any.

The objects of the store are numbered. They never move and are never reclaimed, so this is what a program is
meant to see. A reference that is not kept in a root slot or in a traced word is out of date after a request or
a collection, and a program that uses one has no run. -/

set_option autoImplicit false

namespace TracingHeap

/-- What a word holds. -/
inductive Value where
  | number (n : Nat)
  | object (o : Nat)
  /-- A reference that may be out of date. -/
  | stale
  deriving DecidableEq, Repr

namespace Value

abbrev null : Value := number 0

def IsReference : Value → Prop
  | number n => n = 0
  | object _ => True
  | stale => False

def AtMost (bound : Nat) : Value → Prop
  | number n => n ≤ bound
  | _ => False

/-- The number in a word. -/
def count : Value → Nat
  | number n => n
  | _ => 0

/-- What is left of a word that no collector looks at. -/
def forget : Value → Value
  | object _ => stale
  | v => v

@[simp] theorem count_forget (v : Value) : v.forget.count = v.count := by cases v <;> rfl

theorem AtMost.eq_number {bound : Nat} {v : Value} (small : v.AtMost bound) : v = number v.count ∧ v.count ≤ bound := by
  cases v with
  | number n => exact ⟨rfl, small⟩
  | object o => exact small.elim
  | stale => exact small.elim

instance (v : Value) : Decidable v.IsReference :=
  match v with
  | number _ => inferInstanceAs (Decidable (_ = _))
  | object _ => isTrue trivial
  | stale => isFalse id

instance (bound : Nat) (v : Value) : Decidable (v.AtMost bound) :=
  match v with
  | number _ => inferInstanceAs (Decidable (_ ≤ _))
  | object _ | stale => isFalse id

end Value

/-- An object with its words, which are given by their places in its block. -/
structure Object where
  type : TypeId
  size : Nat
  word : Nat → Value

namespace Object

def number (obj : Object) (k : Nat) : Nat := (obj.word k).count

/-- The places of the words that are traced. -/
def places (obj : Object) (d : Descriptor) : List Nat := d.places (d.elements obj.number)

-- What a collector finds in the object. Words behind the count may hold anything.
/-- The traced words are references, and the count is within the capacity. -/
def Orderly (d : Descriptor) (obj : Object) : Prop :=
  (∀ r, d.region = some r → (obj.word (placeOf r.countOffset)).AtMost (d.capacity r obj.size)) ∧
    ∀ k ∈ obj.places d, (obj.word k).IsReference

def put (obj : Object) (k : Nat) (v : Value) : Object := { obj with word := patch k v obj.word }

/-- There is a word at the offset. -/
def Has (obj : Object) (offset : Nat) : Prop := wordSize ∣ offset ∧ offset + wordSize ≤ obj.size

def forget (types : TypeTable) (obj : Object) : Object :=
  { obj with
    word := fun k =>
      match types.get? obj.type with
      | some d => if k ∈ obj.places d then obj.word k else (obj.word k).forget
      | none => (obj.word k).forget }

instance (obj : Object) (offset : Nat) : Decidable (obj.Has offset) := inferInstanceAs (Decidable (_ ∧ _))

end Object

structure Store where
  types : TypeTable := {}
  roots : RootStack := {}
  cells : Array Value
  objects : Array Object := #[]

inductive Command where
  | register (d : Descriptor) (words : d.IsWords)
  | pushRoot
  | popRoot (handle : RootHandle)
  | addRoot (handle : RootHandle) (x : Nat)
  | addGlobal (x : Nat)
  /-- A new object for a cell. -/
  | allocate (id : TypeId) (extra x : Nat)
  | allocateArray (id : TypeId) (count x : Nat)
  | collect
  /-- Copy a reference to another cell. -/
  | copy (x y : Nat)
  | clear (x : Nat)
  /-- Load a reference from an object to a cell. -/
  | load (x offset y : Nat)
  /-- Store the reference of a cell in an object. -/
  | store (x offset y : Nat)
  | read (x offset : Nat)
  | write (x offset n : Nat)
  | isNull (x : Nat)
  | same (x y : Nat)
  | typeOf (x : Nat)
  | payloadSize (x : Nat)

inductive Observation where
  | done
  | registered (id : Option TypeId)
  | handle (handle : RootHandle)
  | number (n : Nat)
  | answer (b : Bool)
  | type (id : TypeId)
  deriving DecidableEq, Repr

/-- What a program does next depends on what it has observed. -/
inductive Program where
  | done
  | step (c : Command) (next : Observation → Program)

/-- Commands one after the other. -/
def Program.ofList : List Command → Program
  | [] => done
  | c :: rest => step c fun _ => ofList rest

/-- Whether a program may write a value to a place of an object. -/
abbrev Rule := Descriptor → Object → Nat → Value → Bool

/-- What is traced in the object afterwards are references, and the count is within the capacity. -/
def Rule.orderly : Rule := fun d obj k v =>
  d.region.all (fun r => decide (((obj.put k v).word (placeOf r.countOffset)).AtMost (d.capacity r obj.size))) &&
    ((obj.put k v).places d).all fun k' => decide ((obj.put k v).word k').IsReference

/-- A word that is traced is not overwritten by anything but a reference. -/
def Rule.typed : Rule := fun d obj k v => decide (k ∈ obj.places d → v.IsReference)

theorem Rule.orderly_iff {d : Descriptor} {obj : Object} {k : Nat} {v : Value} :
    orderly d obj k v = true ↔ (obj.put k v).Orderly d := by
  simp only [orderly, Bool.and_eq_true, Option.all_eq_true, List.all_eq_true, decide_eq_true_eq, Object.Orderly]
  rfl

namespace Store

variable (s : Store)

/-- The reference in a cell. -/
def reference (x : Nat) : Option Value := s.cells[x]?.filter fun v => decide v.IsReference

/-- The object that a cell refers to. -/
def held (x : Nat) : Option (Nat × Object) :=
  match s.cells[x]? with
  | some (.object o) => s.objects[o]?.map fun obj => (o, obj)
  | _ => none

def setCell (x : Nat) (v : Value) : Option (Observation × Store) :=
  if x < s.cells.size then some (.done, { s with cells := s.cells.setIfInBounds x v }) else none

/-- The value at an offset of the object in a cell. -/
def valueAt (x offset : Nat) : Option Value :=
  (s.held x).bind fun (_, obj) => if obj.Has offset then some (obj.word (headerSize + offset)) else none

def write (rule : Rule) (x offset : Nat) (v : Value) : Option (Observation × Store) :=
  (s.held x).bind fun (o, obj) => (s.types.get? obj.type).bind fun d =>
    if obj.Has offset ∧ rule d obj (headerSize + offset) v = true then
      some (.done, { s with objects := s.objects.setIfInBounds o (obj.put (headerSize + offset) v) })
    else none

-- A request may lead to a collection and may not, so a program can rely on nothing that a collection might change.
/-- Only what the collectors look at is still known. -/
def forget : Store :=
  { s with
    cells := s.cells.mapIdx fun x v => if Slot.cell x ∈ s.roots.slots then v else v.forget
    objects := s.objects.map (Object.forget s.types) }

/-- No more types can be registered. -/
def close : Store := { s with types := s.types.close }

/-- One more object, and the cell that is to refer to it. -/
def enter (id : TypeId) (size : Nat) (words : Nat → Nat) (x : Nat) : Option (Observation × Store) :=
  { s with objects := s.objects.push ⟨id, size, fun k => .number (words k)⟩ }.setCell x (.object s.objects.size)

-- There is no step where a program would use a word for what it is not: compute with a reference, follow a number,
-- or rely on a reference that may be out of date.
/-- What a command observes, and the store after it. -/
def step (rule : Rule) : Command → Option (Observation × Store)
  | .register d _ =>
    match s.types.register d with
    | .ok (id, types) => some (.registered (some id), { s with types })
    | .error _ => some (.registered none, s)
  | .pushRoot => some (.handle s.roots.push.1, { s with roots := s.roots.push.2 })
  | .popRoot handle =>
    match s.roots.pop handle with
    | .ok roots => some (.done, { s with roots })
    | .error _ => none
  | .addRoot handle x => (s.reference x).bind fun _ =>
    match s.roots.add handle (.cell x) with
    | .ok roots => some (.done, { s with roots })
    | .error _ => none
  | .addGlobal x => (s.reference x).map fun _ => (.done, { s with roots := s.roots.addGlobal (.cell x) })
  | .allocate id extra x => (s.types.get? id).bind fun d =>
    s.close.forget.enter id (d.fixedSize + extra) (fun _ => 0) x
  | .allocateArray id count x => (s.types.get? id).bind fun d => d.region.bind fun r =>
    s.close.forget.enter id (d.fixedSize + count * r.elementSize) (patch (placeOf r.countOffset) count fun _ => 0) x
  | .collect => some (.done, s.forget)
  | .copy x y => (s.reference x).bind fun v => s.setCell y v
  | .clear x => s.setCell x .null
  | .load x offset y => (s.valueAt x offset).bind fun v => if v.IsReference then s.setCell y v else none
  | .store x offset y => (s.reference y).bind fun v => s.write rule x offset v
  | .write x offset n => if n < wordLimit then s.write rule x offset (.number n) else none
  | .read x offset => (s.valueAt x offset).bind fun v =>
    match v with
    | .number n => some (.number n, s)
    | _ => none
  | .isNull x => (s.reference x).map fun v => (.answer (v = .null), s)
  | .same x y => (s.reference x).bind fun v => (s.reference y).map fun u => (.answer (v = u), s)
  | .typeOf x => (s.held x).map fun (_, obj) => (.type obj.type, s)
  | .payloadSize x => (s.held x).map fun (_, obj) => (.number obj.size, s)

/-- All cells are null, and there are no objects. -/
def start (cells : Nat) : Store := { cells := Array.replicate cells .null }

end Store

/-- What a program observes on the store. -/
def Program.model (rule : Rule) : Program → Store → Option (List Observation × Store)
  | done, s => some ([], s)
  | step c next, s => (s.step rule c).bind fun (seen, s) =>
    (model rule (next seen) s).map fun (rest, s) => (seen :: rest, s)

end TracingHeap
