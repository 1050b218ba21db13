import TracingHeap.Proofs.Library.Sequence

/-! What becomes of a list when a reference is added to it.

A list that is full gets a larger slab first. The request for it may move the list, its slab, the reference to be added
and the objects that are in the list already, so all of them are read again from the slots that lead to them. -/

set_option autoImplicit false

namespace TracingHeap

namespace Library

/-- Move the items of a list to a larger slab. -/
def regrow (list : Slot) (length grown : Nat) : Access Unit := do
  let current ← liveAt list
  let old ← Access.loadWord (slotAt current wordSize)
  if old ≠ 0 then copyElements old grown 0 length
  Access.storeWord (slotAt current wordSize) grown

/-- Store a reference behind the items of a list that has room for it. -/
def append (list value : Slot) (length : Nat) : Access Unit := do
  let current ← liveAt list
  let slab ← live (← Access.loadWord (slotAt current wordSize))
  Access.storeWord (elementAt slab length) (← Access.loadSlot value)
  Access.storeWord current (Word.wrap (length + 1))

/-- What a list that is to be added to looks like. -/
def inspect (list : Slot) : Access (Nat × Nat) := do
  let current ← liveAt list
  return (← listLength current, ← listCapacity current)

/-- The size of the slab that takes the place of a full one. -/
def nextCapacity (capacity : Nat) : Nat := max (Word.wrap (2 * capacity)) 4

theorem growList_eq (lib : Library) (list : Slot) (length capacity : Nat) : lib.growList list length capacity = (do
    let grown ← lib.allocSlab (nextCapacity capacity)
    Heap.access (regrow list length grown)) := rfl

theorem listPush_eq (lib : Library) (list value : Slot) : lib.listPush list value = (do
    let (length, capacity) ← Heap.access (inspect list)
    if length = capacity then lib.growList list length capacity
    Heap.access (append list value length)) := rfl

variable {lib : Library} {w w' : World} {p q capacity v : Nat} {items : List Nat} {list value : Slot}

theorem inspect_ok (holds : lib.Holds w p q capacity items) (anchors : w.Anchors list p) :
    inspect list w.memory = .ok (items.length, capacity) w.memory := by
  unfold inspect
  rw [run_bind (liveAt_ok anchors holds.list.usable holds.list.pos), run_bind holds.listLength_eq,
    run_bind holds.listCapacity_eq]
  rfl

-- By induction on what is left to copy. An element that has been copied is not written to again.
theorem copyElements_ok {source target size size' : Nat} (old : lib.SlabAt w source size)
    (grown : lib.SlabAt w target size') (apart : source ≠ target) {i n : Nat} (fits : i + n ≤ size)
    (fits' : i + n ≤ size') : ∃ m', copyElements source target i n w.memory = .ok () m' ∧
      w.Keeps { w with memory := m' } (fun p k => p = target ∧ ∃ j, i ≤ j ∧ k = elementPlace j) ∧
      (∀ j, i ≤ j → j < i + n →
        m'.word (blockOf target + elementPlace j) = w.memory.word (blockOf source + elementPlace j)) ∧
      m'.cells = w.memory.cells := by
  induction n generalizing w i with
  | zero => exact ⟨w.memory, rfl, .refl old.usable _, fun j first last => absurd last (by omega), rfl⟩
  | succ n ih =>
    obtain ⟨m₁, stored, puts⟩ := grown.put (i := i) (by omega) (old.isReference (i := i) (by omega))
    have old₁ := old.keep puts.keeps fun written => apart written.1
    have grown₁ := grown.keep puts.keeps fun written => elementPlace_ne_countPlace i written.2.symm
    obtain ⟨m₂, ran, keeps, copied, cells⟩ := ih old₁ grown₁ (i := i + 1) (by omega) (by omega)
    refine ⟨m₂, ?_, ?_, fun j first last => ?_, cells.trans puts.cells⟩
    · rw [copyElements, run_bind (old.load (by omega)), run_bind stored]
      exact ran
    · refine (puts.keeps.mono ?_).trans (keeps.mono ?_)
      · rintro _ _ ⟨rfl, rfl⟩
        exact ⟨rfl, i, Nat.le_refl _, rfl⟩
      · rintro _ _ ⟨rfl, j, first, rfl⟩
        exact ⟨rfl, j, by omega, rfl⟩
    · by_cases here : j = i
      · subst here
        refine (grown₁.element_keep keeps (by omega) ?_).trans puts.word
        rintro ⟨-, j', first, same⟩
        rw [elementPlace_inj] at same
        omega
      · refine (copied j (by omega) (by omega)).trans (old.element_keep puts.keeps (by omega) ?_)
        exact fun written => apart written.1

/-- A slab that is as large takes the place of the one that a list has. -/
theorem regrow_ok (holds : lib.Holds w p q capacity items) (anchors : w.Anchors list p) {q' capacity' : Nat}
    (grown : lib.SlabAt w q' capacity') (apart : q ≠ q') (room : items.length ≤ capacity') :
    ∃ m', regrow list items.length q' w.memory = .ok () m' ∧ lib.Holds { w with memory := m' } p q' capacity' items ∧
      w.Keeps { w with memory := m' } (fun r _ => r = p ∨ r = q') ∧ m'.cells = w.memory.cells := by
  have different := holds.list.ne_slab grown
  obtain ⟨m₁, copies, keeps, copied, cells⟩ := copyElements_ok holds.slab grown apart (i := 0) (n := items.length)
    (by have room := holds.room; omega) (by omega)
  have list₁ := holds.list.keep keeps (fun written => different written.1) fun written => different written.1
  have grown₁ := grown.keep keeps fun ⟨_, j, _, same⟩ => elementPlace_ne_countPlace j same.symm
  obtain ⟨m₂, stored, list₂, puts⟩ := list₁.putSlab grown₁.held
  refine ⟨m₂, ?_, ⟨list₂, grown₁.keep puts.keeps fun written => different written.1.symm, room, fun j item found => ?_⟩, ?_,
    puts.cells.trans cells⟩
  · unfold regrow
    rw [run_bind (liveAt_ok anchors holds.list.usable holds.list.pos), run_bind holds.list.loadSlab, if_pos holds.slab.pos,
      run_bind copies]
    exact stored
  · have lt := (List.getElem?_eq_some_iff.1 found).1
    refine (grown₁.element_keep puts.keeps (by omega) fun written => different written.1.symm).trans ?_
    exact (copied j (Nat.zero_le _) (by omega)).trans (holds.element j item found)
  · refine (keeps.mono fun r k written => .inr written.1).trans (puts.keeps.mono fun r k written => .inl written.1)

/-- A reference is stored behind the items of a list that has room for it. -/
theorem append_ok (holds : lib.Holds w p q capacity items) (anchors : w.Anchors list p) (given : w.Anchors value v)
    (room : items.length < capacity) : ∃ m', append list value items.length w.memory = .ok () m' ∧
      lib.Holds { w with memory := m' } p q capacity (items ++ [v]) ∧
      w.Keeps { w with memory := m' } (fun r _ => r = p ∨ r = q) ∧ m'.cells = w.memory.cells := by
  have usable := holds.list.usable
  have different := holds.list.ne_slab holds.slab
  obtain ⟨m₁, stored, puts₁⟩ := holds.slab.put room (given.isReference usable)
  have slab₁ := holds.slab.keep puts₁.keeps fun written => elementPlace_ne_countPlace _ written.2.symm
  have list₁ := holds.list.keep puts₁.keeps (fun written => different written.1) fun written => different written.1
  have isWord : items.length + 1 < wordLimit := by
    have double := holds.slab.double_lt
    unfold wordLimit at *
    omega
  obtain ⟨m₂, counted, list₂, puts₂⟩ := list₁.putCount isWord
  have element (j : Nat) (lt : j < capacity) :
      m₂.word (blockOf q + elementPlace j) = m₁.word (blockOf q + elementPlace j) :=
    slab₁.element_keep puts₂.keeps lt fun written => different written.1.symm
  refine ⟨m₂, ?_, ⟨?_, slab₁.keep puts₂.keeps fun written => different written.1.symm, ?_, fun j item found => ?_⟩, ?_,
    puts₂.cells.trans puts₁.cells⟩
  · have live' : live q w.memory = .ok q w.memory := by
      rw [live, if_neg holds.slab.pos]
      rfl
    unfold append
    rw [run_bind (liveAt_ok anchors usable holds.list.pos), run_bind holds.list.loadSlab, run_bind live',
      run_bind (given.load usable), run_bind stored, Word.wrap_of_lt isWord]
    exact counted
  · rw [List.length_append]
    exact list₂
  · rw [List.length_append]
    exact room
  · rw [List.getElem?_append] at found
    split at found
    · next lt =>
      refine (element j (by omega)).trans ?_
      refine (holds.slab.element_keep puts₁.keeps (by omega) fun written => ?_).trans (holds.element j item found)
      have same := elementPlace_inj.1 written.2
      omega
    · next behind =>
      obtain ⟨last, rfl⟩ := List.getElem?_eq_some_iff.1 found
      have here : j = items.length := by
        rw [List.length_singleton] at last
        omega
      subst here
      refine (element _ room).trans ?_
      simpa using puts₁.word
  · exact (puts₁.keeps.mono fun r k written => .inr written.1).trans (puts₂.keeps.mono fun r k written => .inl written.1)

/-! ### The request for a larger slab -/

theorem lt_nextCapacity (small : 2 * capacity < wordLimit) : capacity < nextCapacity capacity := by
  unfold nextCapacity
  rw [Word.wrap_of_lt small]
  omega

/-- The world after the one request that adding to a list may make. -/
def requested (lib : Library) (list : Slot) (w : World) : World :=
  match inspect list w.memory with
  | .ok (length, capacity) _ => if length = capacity then after (lib.allocSlab (nextCapacity capacity) w) else w
  | .error _ _ => w

-- The objects are carried by the request, and nothing but the list and its slab is written to after that. The slab is
-- the one that the list had, or a new one.
/-- What comes of adding a reference to a list. -/
inductive Pushed (lib : Library) (w u : World) (f : Nat → Nat) (p q : Nat) (items : List Nat) (v : Nat) :
    EStateM.Result Failure World Unit → Prop where
  | done {w' : World} {q' capacity' : Nat} : lib.Holds w' (f p) q' capacity' ((items ++ [v]).map (relocated f)) →
      u.Keeps w' (fun r _ => r = f p ∨ r = q') → w'.heap = u.heap → w'.memory.cells = u.memory.cells →
      (∀ r, w.Reaches r → r ≠ q → f r ≠ q') → Pushed lib w u f p q items v (.ok () w')
  | denied {e : HeapError} : e.IsOutOfMemory → Pushed lib w u f p q items v (.error (.violation e) u)

section

variable (holds : lib.Holds w p q capacity items) (anchors : w.Anchors list p) (given : w.Anchors value v)

include holds anchors

theorem requested_eq : lib.requested list w =
    if items.length = capacity then after (lib.allocSlab (nextCapacity capacity) w) else w := by
  simp only [requested, inspect_ok holds anchors]

include given

theorem listPush_room (room : items.length < capacity) : Pushed lib w w id p q items v (lib.listPush list value w) := by
  obtain ⟨m', ran, holds', keeps, cells⟩ := append_ok holds anchors given room
  have pushed : lib.listPush list value w = .ok () { w with memory := m' } := by
    rw [listPush_eq, run_bind (Heap.access_ok (inspect_ok holds anchors))]
    simp only [if_neg (Nat.ne_of_lt room)]
    exact Heap.access_ok ran
  rw [← List.map_id'' relocated_id (items ++ [v])] at holds'
  rw [pushed]
  exact .done holds' keeps rfl cells fun r _ other => other

theorem listPush_full (full : items.length = capacity) : ∃ f, w.Carries (lib.requested list w) f ∧
    (lib.requested list w).heap.roots = w.heap.roots ∧
    Pushed lib w (lib.requested list w) f p q items v (lib.listPush list value w) := by
  have usable := holds.list.usable
  have more := lt_nextCapacity holds.slab.double_lt
  have answers := allocSlab_answers usable holds.list.known (nextCapacity capacity)
  have same := requested_eq holds anchors
  rw [if_pos full] at same
  rw [same]
  rw [listPush_eq, run_bind (Heap.access_ok (inspect_ok holds anchors))]
  simp only [if_pos full, growList_eq]
  cases requested : lib.allocSlab (nextCapacity capacity) w with
  | error x u =>
    rw [requested] at answers
    cases answers with
    | refused carries roots exhausted =>
      refine ⟨_, carries, roots, ?_⟩
      rw [run_bind_error (run_bind_error requested)]
      exact .denied exhausted
  | ok grown u =>
    rw [requested] at answers
    cases answers with
    | @served _ f _ carries roots enters =>
      have reach := anchors.reaches holds.list.pos
      have reach' := holds.list.reaches reach holds.slab.pos
      have carried := holds.carry carries reach
      have anchors₁ := anchors.carry carries
      have given₁ := given.carry carries
      rw [relocated_of_ne holds.list.pos] at anchors₁
      obtain ⟨m₁, regrown, holds₁, keeps₁, cells₁⟩ := regrow_ok carried anchors₁
        (.of_enters holds.list.known carries enters) (enters.fresh q reach')
        (by rw [List.length_map, full]; exact Nat.le_of_lt more)
      have anchors₂ : World.Anchors { u with memory := m₁ } list (f p) := anchors₁.stay carries.usable rfl cells₁
      have given₂ : World.Anchors { u with memory := m₁ } value (relocated f v) := given₁.stay carries.usable rfl cells₁
      obtain ⟨m₂, appended, holds₂, keeps₂, cells₂⟩ := append_ok holds₁ anchors₂ given₂
        (by rw [List.length_map, full]; exact more)
      rw [List.length_map] at regrown appended
      refine ⟨f, carries, roots, ?_⟩
      rw [run_bind ((run_bind requested).trans (Heap.access_ok regrown)),
        show Heap.access (append list value items.length) { u with memory := m₁ } = .ok () { u with memory := m₂ } from
          Heap.access_ok appended]
      have same : items.map (relocated f) ++ [relocated f v] = (items ++ [v]).map (relocated f) := by simp
      rw [same] at holds₂
      exact .done holds₂ (keeps₁.trans keeps₂) rfl (cells₂.trans cells₁) fun r reach _ => enters.fresh r reach

/-- A reference is added to a list, or there is no room for a larger slab. -/
theorem listPush_spec : ∃ f, w.Carries (lib.requested list w) f ∧ (lib.requested list w).heap.roots = w.heap.roots ∧
    Pushed lib w (lib.requested list w) f p q items v (lib.listPush list value w) := by
  rcases Nat.lt_or_eq_of_le holds.room with room | full
  · have same := requested_eq holds anchors
    rw [if_neg (Nat.ne_of_lt room)] at same
    rw [same]
    exact ⟨id, holds.list.usable.carries, rfl, listPush_room holds anchors given room⟩
  · exact listPush_full holds anchors given full

end

end Library

end TracingHeap
