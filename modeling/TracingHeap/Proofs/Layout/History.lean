import TracingHeap.Proofs.Layout.Registration

/-! What a type table has been asked, and what it answers.

A type is found under its number and under its name. The table keeps the two apart, and after any requests they agree:
the numbers are those of the types that were accepted, from one in the order of acceptance. -/

set_option autoImplicit false

namespace TracingHeap

/-- What can be asked of a type table. -/
inductive TypeRequest where
  | register (d : Descriptor)
  | close
  deriving DecidableEq, Repr

namespace TypeTable

variable {t t' : TypeTable} {id : TypeId} {d : Descriptor} {e : HeapError}

/-- A request that is refused leaves the table as it is. -/
def serve (t : TypeTable) : TypeRequest → TypeTable
  | .register d => match t.register d with
    | .ok (_, t') => t'
    | .error _ => t
  | .close => t.close

def served (t : TypeTable) (requests : List TypeRequest) : TypeTable := requests.foldl serve t

/-- The types that are accepted, in this order. -/
def accepted (t : TypeTable) : List TypeRequest → List Descriptor
  | [] => []
  | .register d :: rest => match t.register d with
    | .ok (_, t') => d :: t'.accepted rest
    | .error _ => t.accepted rest
  | .close :: rest => t.close.accepted rest

theorem serve_of_ok (registered : t.register d = .ok (id, t')) : t.serve (.register d) = t' := by rw [serve, registered]

theorem serve_of_error (refused : t.register d = .error e) : t.serve (.register d) = t := by rw [serve, refused]

theorem toList_served (t : TypeTable) (requests : List TypeRequest) :
    (t.served requests).descriptors.toList = t.descriptors.toList ++ t.accepted requests := by
  induction requests generalizing t with
  | nil => exact (List.append_nil _).symm
  | cons request rest ih =>
    cases request with
    | close => exact ih t.close
    | register d =>
      cases registered : t.register d with
      | error e =>
        simp only [accepted, registered]
        show ((t.serve (.register d)).served rest).descriptors.toList = _
        rw [serve_of_error registered, ih t]
      | ok pair =>
        obtain ⟨id, t'⟩ := pair
        obtain ⟨-, -, -, -, pushed⟩ := register_eq_ok.1 registered
        have more : t'.descriptors.toList = t.descriptors.toList ++ [d] := by rw [pushed, Array.toList_push]
        simp only [accepted, registered]
        show ((t.serve (.register d)).served rest).descriptors.toList = _
        rw [serve_of_ok registered, ih t', more, List.append_assoc, List.singleton_append]

theorem Indexed.served (indexed : t.Indexed) (requests : List TypeRequest) : (t.served requests).Indexed := by
  induction requests generalizing t with
  | nil => exact indexed
  | cons request rest ih =>
    refine ih (t := t.serve request) ?_
    cases request with
    | close => exact ⟨indexed.nodup, indexed.lookup⟩
    | register d =>
      cases registered : t.register d with
      | ok pair => exact (serve_of_ok registered).symm ▸ indexed.register registered
      | error e => exact (serve_of_error registered).symm ▸ indexed

/-- The table is closed once it has been closed. -/
theorem closed_served (t : TypeTable) (requests : List TypeRequest) :
    (t.served requests).closed = true ↔ t.closed = true ∨ .close ∈ requests := by
  induction requests generalizing t with
  | nil => simp [served]
  | cons request rest ih =>
    refine (ih (t.serve request)).trans ?_
    cases request with
    | close => simp [serve, close]
    | register d =>
      have same : (t.serve (.register d)).closed = t.closed := by
        cases registered : t.register d with
        | ok pair =>
          obtain ⟨-, -, -, -, pushed⟩ := register_eq_ok.1 registered
          rw [serve_of_ok registered, pushed]
        | error e => rw [serve_of_error registered]
      simp [same]

/-- These are the types of the table: each is found under its place in the list, counted from one, and under its name,
which is its own. -/
structure Lists (t : TypeTable) (types : List Descriptor) : Prop where
  get : ∀ id d, t.get id = .ok d ↔ ∃ i, id.raw.toNat = i + 1 ∧ types[i]? = some d
  unknown : ∀ id, id.raw.toNat = 0 ∨ types.length < id.raw.toNat → t.get id = .error (.unregisteredType id)
  lookup : ∀ name id, t.lookup name = some id ↔ ∃ d, t.get id = .ok d ∧ d.name = name
  nodup : (types.map Descriptor.name).Nodup

theorem get?_eq_some : t.get? id = some d ↔ ∃ i, id.raw.toNat = i + 1 ∧ t.descriptors[i]? = some d := by
  unfold get?
  have zero : id.raw = 0 ↔ id.raw.toNat = 0 := UInt32.toNat_inj.symm
  by_cases null : id.raw = 0
  · simp [if_pos null, zero.1 null]
  · rw [if_neg null]
    have positive : id.raw.toNat ≠ 0 := mt zero.2 null
    constructor
    · exact fun found => ⟨_, by omega, found⟩
    · rintro ⟨i, number, found⟩
      rwa [number]

/-- A table whose indexes agree lists its types, unless it has more of them than there are numbers. -/
theorem Indexed.lists (indexed : t.Indexed) (few : t.size < UInt32.size) : t.Lists t.descriptors.toList := by
  have found (id : TypeId) (d : Descriptor) :
      t.get id = .ok d ↔ ∃ i, id.raw.toNat = i + 1 ∧ t.descriptors[i]? = some d :=
    get_eq_ok.trans get?_eq_some
  constructor
  case get =>
    intro id d
    simp only [found, Array.getElem?_toList]
  case unknown =>
    intro id outside
    refine get_eq_error (Option.eq_none_iff_forall_ne_some.2 fun d known => ?_)
    obtain ⟨i, number, known⟩ := get?_eq_some.1 known
    have := (Array.getElem?_eq_some_iff.1 known).1
    rw [Array.length_toList] at outside
    omega
  case lookup =>
    intro name id
    rw [indexed.lookup]
    constructor
    · rintro ⟨i, d, known, called, rfl⟩
      have below := (Array.getElem?_eq_some_iff.1 known).1
      refine ⟨d, (found _ d).2 ⟨i, ?_, known⟩, called⟩
      exact UInt32.toNat_ofNat_of_lt' (Nat.lt_of_le_of_lt below few)
    · rintro ⟨d, known, called⟩
      obtain ⟨i, number, known⟩ := (found id d).1 known
      refine ⟨i, d, known, called, ?_⟩
      rw [← number, UInt32.ofNat_toNat]
  case nodup => exact indexed.nodup

/-- What has been found is found again, whatever is asked in between. -/
theorem get_served (found : t.get id = .ok d) (requests : List TypeRequest) : (t.served requests).get id = .ok d := by
  obtain ⟨i, number, known⟩ := get?_eq_some.1 (get_eq_ok.1 found)
  refine get_eq_ok.2 (get?_eq_some.2 ⟨i, number, ?_⟩)
  rw [← Array.getElem?_toList] at known ⊢
  rw [toList_served, List.getElem?_append_left (List.getElem?_eq_some_iff.1 known).1, known]

/-- The number of the next type. -/
theorem number_of_register (few : t.size + 1 < UInt32.size) (registered : t.register d = .ok (id, t')) :
    id.raw.toNat = t.size + 1 := by
  obtain ⟨-, -, -, rfl, -⟩ := register_eq_ok.1 registered
  exact UInt32.toNat_ofNat_of_lt' few

/-- That the table is closed is what is reported if it is closed, and only then. -/
theorem register_closed_iff : t.register d = .error (.registrationClosed d.name) ↔ t.closed = true := by
  unfold register
  cases t.closed with
  | true => simp
  | false =>
    cases d.check with
    | error defect => simp
    | ok _ => cases t.lookup d.name <;> simp

end TypeTable

end TracingHeap
