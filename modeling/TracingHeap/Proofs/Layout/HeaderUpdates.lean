import TracingHeap.Proofs.Layout.Tracing

/-! Headers as their bytes.

A header is stored once, as a whole. Later its state is set and a target is left in it, each time in place: of the 24 bytes,
only the state byte and the eight of the target are written. Collections do this in any order, so what is read from
a header is stated after any sequence of updates. -/

set_option autoImplicit false

namespace TracingHeap

/-- The memories have the same bytes but for those at the given addresses. -/
structure Memory.Rewritten (written : Nat → Prop) (m m' : Memory) : Prop where
  shape : m.SameShape m'
  cells : m'.cells = m.cells
  byte : ∀ a, ¬ written a → m'.byte a = m.byte a

namespace Memory.Rewritten

variable {written written' : Nat → Prop} {m m' m'' : Memory}

theorem refl (m : Memory) : Rewritten written m m := ⟨.refl m, rfl, fun _ _ => rfl⟩

theorem trans (first : Rewritten written m m') (second : Rewritten written m' m'') : Rewritten written m m'' :=
  ⟨first.shape.trans second.shape, second.cells.trans first.cells,
    fun a out => (second.byte a out).trans (first.byte a out)⟩

theorem imp (rewritten : Rewritten written m m') (wider : ∀ a, written a → written' a) : Rewritten written' m m' :=
  ⟨rewritten.shape, rewritten.cells, fun a out => rewritten.byte a fun inside => out (wider a inside)⟩

theorem setByte (m : Memory) (a : Nat) (v : UInt8) : Rewritten (· = a) m (m.setByte a v) :=
  ⟨sameShape_setByte m a v, cells_modifyArena .., fun _ other => byte_setByte_of_ne m v other⟩

theorem setWord {a : Nat} (inside : m.holds a wordSize = true) (v : Nat) :
    Rewritten (fun b => a ≤ b ∧ b < a + wordSize) m (m.setWord a v) :=
  ⟨sameShape_setWord m a v, cells_modifyArena .., fun _ out => byte_setWord_of_outside v inside (by omega)⟩

theorem setHeader {block : Nat} (inside : m.holds block headerSize = true) (h : Header) :
    Rewritten (fun a => block ≤ a ∧ a < block + headerSize) m (m.setHeader block h) :=
  ⟨sameShape_setHeader m block h, cells_modifyArena .., fun _ out => byte_setHeader_of_outside h inside (by omega)⟩

end Memory.Rewritten

/-- A change of a header in place. -/
inductive HeaderUpdate where
  | setState (s : ObjectState)
  | forwardTo (target : Nat)

namespace HeaderUpdate

def run (block : Nat) : HeaderUpdate → Access Unit
  | setState s => Access.setState block s
  | forwardTo target => Access.forwardTo block target

def runAll (block : Nat) : List HeaderUpdate → Access Unit
  | [] => return
  | u :: rest => do
    u.run block
    runAll block rest

/-- Targets are words. -/
def Fits : HeaderUpdate → Prop
  | setState _ => True
  | forwardTo target => target < wordLimit

/-- The places in the header that are written. -/
def Writes : HeaderUpdate → Nat → Prop
  | setState _, i => i = 5
  | forwardTo _, i => i = 5 ∨ 16 ≤ i ∧ i < headerSize

/-- The header after the update, as a record. -/
def apply (h : Header) : HeaderUpdate → Header
  | setState s => { h with state := s.code }
  | forwardTo target => { h with state := ObjectState.forwarded.code, forward := target }

variable {m : Memory} {block : Nat}

theorem setState_ok (regular : m.Regular) (inside : m.holds block headerSize = true) (s : ObjectState) :
    Access.setState block s m = .ok () (m.setByte (block + 5) s.code) :=
  Access.guarded_ok (Memory.holds_of_range regular inside (Nat.le_refl block) (by unfold wordSize headerSize; omega))

theorem forwardTo_ok (inside : m.holds block headerSize = true) (target : Nat) : Access.forwardTo block target m =
    .ok () ((m.setByte (block + 5) ObjectState.forwarded.code).setWord (block + 16) target) :=
  Access.guarded_ok inside

theorem run_ok (regular : m.Regular) (inside : m.holds block headerSize = true) (u : HeaderUpdate) (fits : u.Fits) :
    ∃ m', u.run block m = .ok () m' ∧ m.Rewritten (fun a => ∃ i, u.Writes i ∧ a = block + i) m' ∧
      m'.header block = u.apply (m.header block) := by
  cases u with
  | setState s =>
    have set := Memory.Rewritten.setByte m (block + 5) s.code
    exact ⟨_, setState_ok regular inside s, set.imp fun a here => ⟨5, rfl, here⟩, Memory.header_setState regular inside s.code⟩
  | forwardTo target =>
    have set := Memory.Rewritten.setByte m (block + 5) ObjectState.forwarded.code
    have regular' := regular.of_sameShape set.shape
    have inside' : (m.setByte (block + 5) ObjectState.forwarded.code).holds block headerSize = true := by
      rw [set.shape.holds]; exact inside
    have field := Memory.Rewritten.setWord (Memory.holds_sub regular' inside' 16 wordSize (by decide)) target
    refine ⟨_, forwardTo_ok inside target, ?_, ?_⟩
    · refine (set.imp fun a here => ⟨5, .inl rfl, here⟩).trans (field.imp fun a here => ⟨a - block, .inr ?_, ?_⟩)
      all_goals simp only [wordSize, headerSize] at *; omega
    · rw [Memory.header_setForward regular' inside', Memory.header_setState regular inside, Nat.mod_eq_of_lt fits]
      rfl

/-- A sequence of updates writes what its members write, and the header follows them one by one. -/
theorem runAll_ok (regular : m.Regular) (inside : m.holds block headerSize = true) (us : List HeaderUpdate)
    (fits : ∀ u ∈ us, u.Fits) : ∃ m', runAll block us m = .ok () m' ∧
      m.Rewritten (fun a => ∃ u ∈ us, ∃ i, u.Writes i ∧ a = block + i) m' ∧
      m'.header block = us.foldl apply (m.header block) := by
  induction us generalizing m with
  | nil => exact ⟨m, rfl, .refl m, rfl⟩
  | cons u rest ih =>
    obtain ⟨m₁, ran, first, header⟩ := u.run_ok regular inside (fits u List.mem_cons_self)
    obtain ⟨m₂, later, second, header'⟩ := ih (regular.of_sameShape first.shape) (by rw [first.shape.holds]; exact inside)
      fun v member => fits v (List.mem_cons_of_mem u member)
    refine ⟨m₂, (run_bind ran).trans later, ?_, by rw [header', header]; rfl⟩
    refine (first.imp fun a ⟨i, writes, here⟩ => ⟨u, List.mem_cons_self, i, writes, here⟩).trans (second.imp ?_)
    exact fun a ⟨v, member, written⟩ => ⟨v, List.mem_cons_of_mem u member, written⟩

theorem writes_place {u : HeaderUpdate} {i : Nat} (writes : u.Writes i) : i = 5 ∨ 16 ≤ i ∧ i < headerSize := by
  cases u with
  | setState s => exact .inl writes
  | forwardTo target => exact writes

/-- No update changes the type, the size, the magic byte or the two bytes that are not in use. -/
theorem foldl_apply_eq (us : List HeaderUpdate) (h : Header) : us.foldl apply h =
    { h with state := (us.foldl apply h).state, forward := (us.foldl apply h).forward } := by
  induction us generalizing h with
  | nil => rfl
  | cons u rest ih =>
    rw [List.foldl_cons, ih]
    cases u <;> rfl

theorem foldl_setState (states : List ObjectState) (h : Header) : (states.map setState).foldl apply h =
    { h with state := (states.getLast?.map ObjectState.code).getD h.state } := by
  induction states generalizing h with
  | nil => rfl
  | cons s rest ih =>
    rw [List.map_cons, List.foldl_cons, ih]
    cases rest with
    | nil => rfl
    | cons t rest => simp only [apply, List.getLast?_cons, Option.map_some, Option.getD_some]

end HeaderUpdate

theorem ObjectState.code_injective {s t : ObjectState} (same : s.code = t.code) : s = t := by
  have read := ofCode?_code s
  rw [same, ofCode?_code] at read
  exact (Option.some.inj read).symm

namespace Memory

variable {m : Memory} {block : Nat}

/-! ### Reading -/

/-- What is reported for an object is decided by two bytes of its header, and the magic byte comes first. -/
theorem readObject_eq_check (regular : m.Regular) (inside : m.holds block headerSize = true) :
    m.readObject (payloadOf block) = match (Header.read m.byte block).check with
      | .ok s => .ok (m.header block, s)
      | .error corruption => .error (.corrupted (payloadOf block) corruption) := by
  have front := holds_of_range regular inside (Nat.le_refl block) (k := wordSize) (by unfold wordSize headerSize; omega)
  rw [readObject, blockOf_payloadOf, readHeader, if_pos front, ← header_eq regular inside]
  rfl

theorem readObject_eq_ok_iff (regular : m.Regular) (inside : m.holds block headerSize = true) (s : ObjectState) :
    m.readObject (payloadOf block) = .ok (m.header block, s) ↔
      m.byte (block + 4) = headerMagic ∧ m.byte (block + 5) = s.code := by
  have check : (Header.read m.byte block).check = .ok s ↔ m.byte (block + 4) = headerMagic ∧ m.byte (block + 5) = s.code :=
    Header.check_eq_ok
  rw [← check, readObject_eq_check regular inside]
  cases (Header.read m.byte block).check <;> simp

theorem readObject_badMagic (regular : m.Regular) (inside : m.holds block headerSize = true)
    (other : m.byte (block + 4) ≠ headerMagic) :
    m.readObject (payloadOf block) = .error (.corrupted (payloadOf block) (.badMagic (m.byte (block + 4)))) := by
  have check : (Header.read m.byte block).check = .error (.badMagic (m.byte (block + 4))) := if_pos other
  rw [readObject_eq_check regular inside, check]

theorem readObject_badState (regular : m.Regular) (inside : m.holds block headerSize = true)
    (magic : m.byte (block + 4) = headerMagic) (other : ∀ s : ObjectState, m.byte (block + 5) ≠ s.code) :
    m.readObject (payloadOf block) = .error (.corrupted (payloadOf block) (.badState (m.byte (block + 5)))) := by
  have code : ObjectState.ofCode? (m.byte (block + 5)) = none :=
    Option.eq_none_iff_forall_ne_some.2 fun s known => other s (ObjectState.ofCode?_eq_some.1 known)
  have check : (Header.read m.byte block).check = .error (.badState (m.byte (block + 5))) := by
    simp only [Header.check, Header.read, magic, ne_eq, not_true, if_false, code]
  rw [readObject_eq_check regular inside, check]

/-! ### Storing and updating -/

/-- The 24 bytes at a place, whatever they are, take a header and give it back, and updates in place change its state and its
target alone. -/
structure KeepsHeader (m : Memory) (block : Nat) : Prop where
  /-- Each part of a header is the little-endian number of its bytes. -/
  spelled : m.readHeader block = .ok (Header.read m.byte block)
  valid : ∀ s, m.readObject (payloadOf block) = .ok (m.header block, s) ↔
    m.byte (block + 4) = headerMagic ∧ m.byte (block + 5) = s.code
  badMagic : m.byte (block + 4) ≠ headerMagic →
    m.readObject (payloadOf block) = .error (.corrupted (payloadOf block) (.badMagic (m.byte (block + 4))))
  badState : m.byte (block + 4) = headerMagic → (∀ s : ObjectState, m.byte (block + 5) ≠ s.code) →
    m.readObject (payloadOf block) = .error (.corrupted (payloadOf block) (.badState (m.byte (block + 5))))
  stored : ∀ (id : TypeId) (size : Nat), size < wordLimit → ∃ m',
    Access.storeHeader block (.fresh id size) m = .ok () m' ∧
    m.Rewritten (fun a => block ≤ a ∧ a < block + headerSize) m' ∧
    m'.readObject (payloadOf block) = .ok (m'.header block, .unmarked) ∧
    (m'.header block).typeId = id ∧ (m'.header block).size = size ∧ (m'.header block).forwardingAddress = none
  stateSet : ∀ s, ∃ m', Access.setState block s m = .ok () m' ∧ m.Rewritten (· = block + 5) m' ∧
    m'.byte (block + 5) = s.code
  /-- The target is read back until another state is set, and then its bytes are still there. -/
  forwarded : ∀ target, target < wordLimit → ∃ m', Access.forwardTo block target m = .ok () m' ∧
    m.Rewritten (fun a => a = block + 5 ∨ block + 16 ≤ a ∧ a < block + headerSize) m' ∧
    (m'.header block).forwardingAddress = some target ∧
    ∀ (states : List ObjectState) (last : ObjectState), ∃ m'',
      HeaderUpdate.runAll block ((states ++ [last]).map .setState) m' = .ok () m'' ∧ m'.Rewritten (· = block + 5) m'' ∧
      (m''.header block).forward = target ∧
      (m''.header block).forwardingAddress = if last = .forwarded then some target else none
  updated : ∀ us : List HeaderUpdate, (∀ u ∈ us, u.Fits) → ∃ m', HeaderUpdate.runAll block us m = .ok () m' ∧
    m.Rewritten (fun a => a = block + 5 ∨ block + 16 ≤ a ∧ a < block + headerSize) m' ∧
    (m'.header block).typeId = (m.header block).typeId ∧ (m'.header block).size = (m.header block).size ∧
    (m'.header block).magic = (m.header block).magic ∧ (m'.header block).reserved = (m.header block).reserved

theorem storeHeader_fresh (regular : m.Regular) (inside : m.holds block headerSize = true) (id : TypeId) {size : Nat}
    (fits : size < wordLimit) : ∃ m', Access.storeHeader block (.fresh id size) m = .ok () m' ∧
      m.Rewritten (fun a => block ≤ a ∧ a < block + headerSize) m' ∧ m'.header block = .fresh id size ∧
      m'.readObject (payloadOf block) = .ok (m'.header block, .unmarked) := by
  have written := Rewritten.setHeader inside (.fresh id size)
  have regular' := regular.of_sameShape written.shape
  have inside' : (m.setHeader block (.fresh id size)).holds block headerSize = true := by
    rw [written.shape.holds]; exact inside
  have header := header_setHeader inside (.fresh id size) fits (by decide : 0 < wordLimit)
  refine ⟨_, Access.guarded_ok inside, written, header, ?_⟩
  have check : (Header.read (m.setHeader block (.fresh id size)).byte block).check = .ok .unmarked := by
    rw [← header_eq regular' inside', header]
    exact Header.check_eq_ok.2 ⟨rfl, rfl⟩
  rw [readObject_eq_check regular' inside', check]

/-- The states that are set after a target do not reach it. Only the last of them says whether it counts. -/
theorem forwardTo_states (regular : m.Regular) (inside : m.holds block headerSize = true) {target : Nat}
    (header : (m.header block).forward = target) (states : List ObjectState) (last : ObjectState) : ∃ m',
      HeaderUpdate.runAll block ((states ++ [last]).map .setState) m = .ok () m' ∧ m.Rewritten (· = block + 5) m' ∧
      (m'.header block).forward = target ∧
      (m'.header block).forwardingAddress = if last = .forwarded then some target else none := by
  have fits : ∀ u ∈ (states ++ [last]).map HeaderUpdate.setState, u.Fits := by
    intro u member
    obtain ⟨s, -, rfl⟩ := List.mem_map.1 member
    exact trivial
  obtain ⟨m', ran, written, header'⟩ := HeaderUpdate.runAll_ok regular inside _ fits
  rw [HeaderUpdate.foldl_setState] at header'
  simp only [List.getLast?_concat, Option.map_some, Option.getD_some] at header'
  refine ⟨m', ran, written.imp ?_, by rw [header']; exact header, ?_⟩
  · rintro a ⟨u, member, i, writes, rfl⟩
    obtain ⟨s, -, rfl⟩ := List.mem_map.1 member
    exact congrArg (block + ·) writes
  · rw [header', Header.forwardingAddress, header]
    exact if_congr ⟨ObjectState.code_injective, fun same => same ▸ rfl⟩ rfl rfl

/-- Wherever 24 bytes lie in one arena they can hold a header, whatever has been there before. -/
theorem keepsHeader_of_holds (regular : m.Regular) (inside : m.holds block headerSize = true) : m.KeepsHeader block where
  spelled := by
    have front := holds_of_range regular inside (Nat.le_refl block) (k := wordSize) (by unfold wordSize headerSize; omega)
    rw [readHeader, if_pos front, header_eq regular inside]
  valid := readObject_eq_ok_iff regular inside
  badMagic := readObject_badMagic regular inside
  badState := readObject_badState regular inside
  stored id size fits := by
    obtain ⟨m', ran, written, header, intact⟩ := storeHeader_fresh regular inside id fits
    refine ⟨m', ran, written, intact, ?_⟩
    rw [header]
    exact ⟨rfl, rfl, rfl⟩
  stateSet s := by
    refine ⟨_, HeaderUpdate.setState_ok regular inside s, .setByte m _ _, ?_⟩
    rw [byte_setByte (holds_sub regular inside 5 1 (by decide)), if_pos rfl]
  forwarded target fits := by
    obtain ⟨m', ran, written, header⟩ := (HeaderUpdate.forwardTo target).run_ok regular inside fits
    have regular' := regular.of_sameShape written.shape
    have inside' : m'.holds block headerSize = true := by rw [written.shape.holds]; exact inside
    refine ⟨m', ran, written.imp ?_, by rw [header]; rfl, forwardTo_states regular' inside' (by rw [header]; rfl)⟩
    rintro a ⟨i, writes, rfl⟩
    have place := HeaderUpdate.writes_place writes
    omega
  updated us fits := by
    obtain ⟨m', ran, written, header⟩ := HeaderUpdate.runAll_ok regular inside us fits
    refine ⟨m', ran, written.imp ?_, ?_⟩
    · rintro a ⟨u, -, i, writes, rfl⟩
      have place := HeaderUpdate.writes_place writes
      omega
    · rw [header, HeaderUpdate.foldl_apply_eq]
      exact ⟨rfl, rfl, rfl, rfl⟩

/-- In the middle of a payload, where no header stands, there is room for one; what is there now is told apart from a
header by its magic byte. -/
theorem keepsHeader_of_mixed : ofMixed.Regular ∧ ofMixed.holds (origin + 24) headerSize = true ∧
    ofMixed.KeepsHeader (origin + 24) ∧
    ofMixed.readObject (origin + 48) = .error (.corrupted (origin + 48) (.badMagic 0)) := by
  have inside : ofMixed.holds (origin + 24) headerSize = true := by decide +kernel
  have keeps := keepsHeader_of_holds regular_ofMixed inside
  have blank : ofMixed.byte (origin + 24 + 4) = 0 := by decide +kernel
  have refused := keeps.badMagic (by rw [blank]; decide)
  rw [blank] at refused
  exact ⟨regular_ofMixed, inside, keeps, refused⟩

end Memory

end TracingHeap
