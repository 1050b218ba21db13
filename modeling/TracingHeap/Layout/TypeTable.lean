import TracingHeap.Layout.Descriptor

/-! The table of registered types.

Types are numbered from one in the order of registration. The table only grows, and once it is
closed it does not change. -/

set_option autoImplicit false

namespace TracingHeap

structure TypeTable where
  descriptors : Array Descriptor := #[]
  /-- The numbers of the types by their names. -/
  names : List (String × TypeId) := []
  closed : Bool := false
  deriving DecidableEq, Repr

namespace TypeTable

def get? (t : TypeTable) (id : TypeId) : Option Descriptor :=
  if id.raw = 0 then none else t.descriptors[id.raw.toNat - 1]?

/-- The type of a number, or the report that there is none. -/
def get (t : TypeTable) (id : TypeId) : Except HeapError Descriptor :=
  match t.get? id with
  | some d => .ok d
  | none => .error (.unregisteredType id)

def lookup (t : TypeTable) (name : String) : Option TypeId := t.names.lookup name

def size (t : TypeTable) : Nat := t.descriptors.size

/-- Refuse all further registrations. -/
def close (t : TypeTable) : TypeTable := { t with closed := true }

/-- Add a type. A closed table, a defect of the layout and a name in use are reported in this
order. -/
def register (t : TypeTable) (d : Descriptor) : Except HeapError (TypeId × TypeTable) :=
  if t.closed then .error (.registrationClosed d.name)
  else
    match d.check with
    | .error defect => .error (.invalidDescriptor d.name defect)
    | .ok () =>
      if (t.lookup d.name).isSome then .error (.invalidDescriptor d.name .nameTaken)
      else
        let id : TypeId := ⟨UInt32.ofNat (t.size + 1)⟩
        .ok (id, { t with descriptors := t.descriptors.push d, names := (d.name, id) :: t.names })

theorem get_eq_ok {t : TypeTable} {id : TypeId} {d : Descriptor} : t.get id = .ok d ↔ t.get? id = some d := by
  unfold get
  cases t.get? id <;> simp

theorem get_eq_error {t : TypeTable} {id : TypeId} (unknown : t.get? id = none) : t.get id = .error (.unregisteredType id) := by
  rw [get, unknown]

/-- What a registration takes, and what it makes of the table. -/
theorem register_eq_ok {t t' : TypeTable} {d : Descriptor} {id : TypeId} : t.register d = .ok (id, t') ↔
    t.closed = false ∧ d.check = .ok () ∧ t.lookup d.name = none ∧ id = ⟨UInt32.ofNat (t.size + 1)⟩ ∧
      t' = { t with descriptors := t.descriptors.push d, names := (d.name, id) :: t.names } := by
  unfold register
  cases t.closed with
  | true => simp
  | false =>
    cases d.check with
    | error defect => simp
    | ok _ =>
      cases t.lookup d.name with
      | some other => simp
      | none =>
        simp only [Bool.false_eq_true, if_false, Option.isSome_none, Except.ok.injEq, Prod.mk.injEq, true_and]
        constructor
        · rintro ⟨rfl, rfl⟩
          exact ⟨rfl, rfl⟩
        · rintro ⟨rfl, rfl⟩
          exact ⟨rfl, rfl⟩

@[simp] theorem get?_close (t : TypeTable) (id : TypeId) : t.close.get? id = t.get? id := rfl

end TypeTable

end TracingHeap
