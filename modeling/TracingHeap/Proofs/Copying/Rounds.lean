import Mathlib.Algebra.BigOperators.Group.List.Basic
import TracingHeap.Proofs.Copying.Scan

/-! All copies are looked through.

Before each round the words of the copies in front of the next block have been rewritten, and those behind it
have not. Copies are longer than nothing and fit into the reserve, so there is a round for each. -/

set_option autoImplicit false

namespace TracingHeap

section

variable {size : Nat → Nat} {start p j : Nat} {l : List Nat}

theorem eq_take_append (at' : l[j]? = some p) : l = l.take j ++ p :: l.drop (j + 1) := by
  obtain ⟨below, here⟩ := List.getElem?_eq_some_iff.1 at'
  rw [← here, List.getElem_cons_drop, List.take_append_drop]

theorem notMem_take (nodup : l.Nodup) (at' : l[j]? = some p) : p ∉ l.take j := by
  intro earlier
  rw [eq_take_append at'] at nodup
  exact (List.nodup_append.1 nodup).2.2 p earlier p List.mem_cons_self rfl

theorem placed_getElem? (nodup : l.Nodup) (at' : l[j]? = some p) :
    placed size start l p = start + ((l.take j).map size).sum := by
  conv => lhs; rw [eq_take_append at']
  rw [placed_of_notMem (notMem_take nodup at'), placed, if_pos rfl]

end

theorem take_succ_of_extends {l l' : List Nat} {j p : Nat} (grown : l <+: l') (at' : l[j]? = some p) :
    l'.take (j + 1) = l.take j ++ [p] := by
  obtain ⟨rest, rfl⟩ := grown
  obtain ⟨below, here⟩ := List.getElem?_eq_some_iff.1 at'
  rw [List.take_append_of_le_length (by omega), List.take_add_one, at']
  rfl

namespace Evacuate

variable {types : TypeTable} {resident : Std.TreeSet Nat} {e : Evacuation} {block : Nat}

theorem scan_of_top (rounds : Nat) (done : e.reserve.top ≤ block) : scan types resident rounds block e = .ok () e := by
  cases rounds <;> rw [scan, run_bind_get, if_pos done] <;> rfl

theorem scan_succ (rounds : Nat) {h : Header} (more : ¬ e.reserve.top ≤ block)
    (header : e.memory.readHeader block = .ok h) : scan types resident (rounds + 1) block e =
      (scanObject types resident (payloadOf block) >>= fun _ => scan types resident rounds (block + h.footprint)) e := by
  rw [scan, run_bind_get, if_neg more]
  exact run_bind (look_ok header)

end Evacuate

/-- One round more: the words of the next copy have been rewritten, and the list may have become longer. -/
theorem Origin.passed_next {types : TypeTable} {roots : List Slot} {m₀ : Memory} {l l' : List Nat}
    {done done' : List Origin} {j p : Nat} (at' : l[j]? = some p) (grown : l <+: l')
    (passed : ∀ o, o ∈ done ↔ o.Valid types roots m₀ l ∧ o.Passed (l.take j))
    (known : ∀ o, o ∈ done' ↔ o ∈ done ∨ o.Valid types roots m₀ l' ∧ ∃ k, o = .word p k) (o : Origin) :
    o ∈ done' ↔ o.Valid types roots m₀ l' ∧ o.Passed (l'.take (j + 1)) := by
  rw [known, take_succ_of_extends grown at']
  constructor
  · rintro (old | ⟨valid, k, rfl⟩)
    · obtain ⟨valid, scanned⟩ := (passed o).1 old
      refine ⟨valid.grow grown, ?_⟩
      cases o with
      | root i => trivial
      | word q k => exact List.mem_append_left _ scanned
    · exact ⟨valid, List.mem_append_right _ List.mem_cons_self⟩
  · rintro ⟨valid, scanned⟩
    cases o with
    | root i => exact .inl ((passed _).2 ⟨valid, trivial⟩)
    | word q k =>
      rcases List.mem_append.1 scanned with earlier | here
      · exact .inl ((passed _).2 ⟨⟨List.mem_of_mem_take earlier, valid.2⟩, earlier⟩)
      · obtain rfl := List.mem_singleton.1 here
        exact .inr ⟨valid, k, rfl⟩

/-- Each copy takes some of the reserve. -/
theorem Footing.length_le {types : TypeTable} {roots : List Slot} {resident : Std.TreeSet Nat} {space : Space}
    {m₀ : Memory} {live : Nat → Prop} {l : List Nat} (footing : Footing types roots resident space m₀ live)
    (nodup : l.Nodup) (reached : ∀ p ∈ l, live p ∧ m₀.Unmarked p) : l.length ≤ space.size := by
  have bytes := List.length_le_sum_of_one_le (l.map m₀.blockSize) fun n known => by
    obtain ⟨p, member, rfl⟩ := List.mem_map.1 known
    exact Nat.le_trans (by decide) (footing.large (reached p member))
  rw [List.length_map] at bytes
  exact Nat.le_trans bytes (footing.total l nodup reached)

/-- The end of a collection: every word that is followed in a copy has been rewritten. -/
structure Arrived (types : TypeTable) (roots : List Slot) (space : Space) (m₀ : Memory) (live : Nat → Prop)
    (l : List Nat) (done : List Origin) (e : Evacuation) : Prop extends Moving types roots space m₀ live l done e where
  complete : ∀ o, o ∈ done ↔ o.Valid types roots m₀ l
  counted : ∀ p ∈ l, types.excess m₀ p = none

namespace Moving

variable {types : TypeTable} {roots : List Slot} {resident : Std.TreeSet Nat} {space : Space} {m₀ : Memory}
  {live : Nat → Prop} {l : List Nat} {done : List Origin} {e : Evacuation} {p : Nat}
  (footing : Footing types roots resident space m₀ live) (moving : Moving types roots space m₀ live l done e)

include footing moving

theorem length_le : l.length ≤ space.size := footing.length_le moving.nodup moving.reached

/-- The next block holds the copy of the next object. -/
theorem readHeader_next {j : Nat} (at' : l[j]? = some p) :
    blockOf (copyOf space m₀ l p) = space.start + ((l.take j).map m₀.blockSize).sum ∧
      ∃ h, e.memory.readHeader (blockOf (copyOf space m₀ l p)) = .ok h ∧ h.footprint = m₀.blockSize p := by
  have member := List.mem_of_getElem? at'
  obtain ⟨d, framed⟩ := footing.framed p (moving.reached _ member)
  refine ⟨(blockOf_copyOf ..).trans (placed_getElem? moving.nodup at'), _,
    (moving.framed_copy footing member framed).readHeader_eq (moving.regular footing), ?_⟩
  rw [moving.header_copy footing member]
  rfl

omit footing in
/-- Behind the last copy nothing is left to do. -/
theorem scan_finish (rounds : Nat) {j : Nat} (last : l.length ≤ j)
    (passed : ∀ o, o ∈ done ↔ o.Valid types roots m₀ l ∧ o.Passed (l.take j))
    (counted : ∀ p ∈ l.take j, types.excess m₀ p = none) :
    Evacuate.scan types resident rounds (space.start + ((l.take j).map m₀.blockSize).sum) e = .ok () e ∧
      Arrived types roots space m₀ live l done e := by
  rw [List.take_of_length_le last] at passed counted ⊢
  constructor
  · refine Evacuate.scan_of_top rounds ?_
    rw [moving.reserve]
    exact Nat.le_refl _
  · refine ⟨moving, fun o => (passed o).trans ⟨And.left, fun valid => ⟨valid, ?_⟩⟩, counted⟩
    cases o with
    | root i => trivial
    | word p k => exact valid.1

-- The invariant of the rounds: rewritten are the roots and the words of the copies in front of the next one. A
-- round may lengthen the list, but it rewrites the words of one copy.
theorem scan_spec (rounds j : Nat) (reached : j ≤ l.length) (enough : space.size ≤ rounds + j)
    (passed : ∀ o, o ∈ done ↔ o.Valid types roots m₀ l ∧ o.Passed (l.take j))
    (counted : ∀ p ∈ l.take j, types.excess m₀ p = none) :
    match visitFrom types resident space m₀ rounds j l with
    | .ok l' => ∃ e' done',
        Evacuate.scan types resident rounds (space.start + ((l.take j).map m₀.blockSize).sum) e = .ok () e' ∧
        Arrived types roots space m₀ live l' done' e'
    | .error x => ∃ e' l' done',
        Evacuate.scan types resident rounds (space.start + ((l.take j).map m₀.blockSize).sum) e = .error x e' ∧
        Moving types roots space m₀ live l' done' e' ∧ Stops resident space m₀ l' x := by
  induction rounds generalizing j l done e with
  | zero =>
    have last : l.length ≤ j := by have := moving.length_le footing; omega
    exact ⟨e, done, moving.scan_finish 0 last passed counted⟩
  | succ rounds ih =>
    rw [visitFrom]
    cases at' : l[j]? with
    | none => exact ⟨e, done, moving.scan_finish (rounds + 1) (List.getElem?_eq_none_iff.1 at') passed counted⟩
    | some p =>
      have member := List.mem_of_getElem? at'
      have below := (List.getElem?_eq_some_iff.1 at').1
      have fresh : p ∉ l.take j := notMem_take moving.nodup at'
      obtain ⟨block, h, header, size⟩ := moving.readHeader_next footing at'
      have bounds := copyOf_bounds space m₀ member
      have large := footing.large (moving.reached _ member)
      have more : ¬ e.reserve.top ≤ blockOf (copyOf space m₀ l p) := by
        rw [moving.reserve, Space.top]
        unfold headerSize at large
        simp only
        omega
      have payload : payloadOf (blockOf (copyOf space m₀ l p)) = copyOf space m₀ l p := by
        rw [blockOf_copyOf]
        rfl
      have object := moving.scanObject_spec footing member fun k old => fresh ((passed _).1 old).2
      rw [← block, Evacuate.scan_succ rounds more header, payload]
      cases visited : visit types resident space m₀ l p with
      | error x =>
        rw [visited] at object
        obtain ⟨e', l', done', failed, next⟩ := object
        simp only [visited, bind, Except.bind]
        exact ⟨e', l', done', run_bind_error failed, next⟩
      | ok l₁ =>
        rw [visited] at object
        obtain ⟨e₁, done₁, ran, next, known⟩ := object
        have grown := visit_extends visited
        have later := ih next (j + 1) (Nat.le_trans below grown.length_le) (by omega)
          (Origin.passed_next at' grown passed known) fun q earlier => by
            rw [take_succ_of_extends grown at'] at earlier
            rcases List.mem_append.1 earlier with before | here
            · exact counted q before
            · rw [List.mem_singleton.1 here]
              exact (visit_eq_ok visited).1
        have advanced : space.start + ((l₁.take (j + 1)).map m₀.blockSize).sum =
            blockOf (copyOf space m₀ l p) + h.footprint := by
          rw [take_succ_of_extends grown at', List.map_append, List.sum_append, block, size]
          simp [Nat.add_assoc]
        rw [advanced] at later
        rw [run_bind ran]
        simp only [visited, bind, Except.bind]
        exact later

end Moving

/-! ### The whole collection -/

/-- Roots outside the arenas are cells. -/
theorem exists_cells {slots : List Slot} (cells : ∀ s ∈ slots, ∃ i, s = .cell i) :
    ∃ indices : List Nat, slots = indices.map Slot.cell := by
  induction slots with
  | nil => exact ⟨[], rfl⟩
  | cons s rest ih =>
    obtain ⟨i, rfl⟩ := cells s List.mem_cons_self
    obtain ⟨indices, rfl⟩ := ih fun s later => cells s (List.mem_cons_of_mem _ later)
    exact ⟨i :: indices, rfl⟩

section

variable {types : TypeTable} {roots : List Slot} {resident : Std.TreeSet Nat} {space : Space} {m₀ : Memory}
  {live : Nat → Prop}

/-- Before the collection nothing has been copied. -/
theorem Moving.start (unused : space.cursor = 0) :
    Moving types roots space m₀ live [] [] { memory := m₀, reserve := space } := by
  constructor
  case nodup => exact List.nodup_nil
  case reached => exact fun p member => absurd member List.not_mem_nil
  case valid => exact fun o member => absurd member List.not_mem_nil
  case settled => exact fun o member => absurd member List.not_mem_nil
  case reserve => show space = _; rw [List.map_nil, List.sum_nil, ← unused]
  case copies => simp
  case forwarded => simp
  case objects => rfl
  case bytes => rfl
  case shape => exact .refl m₀
  case stayed => exact fun _ _ _ _ _ => rfl
  case left => exact fun p member => absurd member List.not_mem_nil
  case copied => exact fun p member => absurd member List.not_mem_nil
  case rewritten => exact fun p k member => absurd member List.not_mem_nil
  case elsewhere => exact fun _ _ _ => rfl
  case cell => exact fun i => (if_neg List.not_mem_nil).symm

/-- A collection comes to what follows from the memory before it. Where it fails, what has been copied until then is in
order. -/
theorem evacuateAll_spec (footing : Footing types roots resident space m₀ live) (unused : space.cursor = 0) :
    match departures types roots resident space m₀ with
    | .ok l => ∃ e done, Copying.evacuateAll types roots resident { memory := m₀, reserve := space } = .ok () e ∧
        Arrived types roots space m₀ live l done e
    | .error x => ∃ e l done, Copying.evacuateAll types roots resident { memory := m₀, reserve := space } = .error x e ∧
        Moving types roots space m₀ live l done e ∧ Stops resident space m₀ l x := by
  have got (e : Evacuation) : (get : Evacuate Evacuation) e = .ok e e := rfl
  obtain ⟨indices, cells⟩ := exists_cells fun s (member : s ∈ distinctSlots roots) =>
    (footing.cells s (mem_distinctSlots.1 member)).imp fun _ => And.left
  have distinct : indices.Nodup := (List.pairwise_map.1 (cells ▸ nodup_distinctSlots roots)).imp
    fun different same => different (congrArg Slot.cell same)
  have registered (i : Nat) : i ∈ indices ↔ Slot.cell i ∈ roots := by
    rw [← mem_distinctSlots, cells]
    simp
  have started : Moving types roots space m₀ live [] [] { memory := m₀, reserve := space } := .start unused
  have first := started.forwardSlots_spec footing (indices.map .root)
    (fun o member => by
      obtain ⟨i, here, rfl⟩ := List.mem_map.1 member
      exact (registered i).1 here)
    (fun o _ => List.not_mem_nil)
    (List.pairwise_map.2 (distinct.imp fun different same => different (Origin.root.inj same)))
  have slots : (indices.map Origin.root).map (·.slot space m₀ []) = distinctSlots roots := by
    rw [cells, List.map_map]
    rfl
  have words : (indices.map Origin.root).map (·.original m₀) = (distinctSlots roots).map m₀.slot := by
    rw [cells, List.map_map, List.map_map]
    rfl
  rw [slots, words] at first
  unfold departures Copying.evacuateAll
  cases met : ((distinctSlots roots).map m₀.slot).foldlM (meet resident space m₀) [] with
  | error x =>
    rw [met] at first
    obtain ⟨e, l, done, ran, moving, -, stops⟩ := first
    exact ⟨e, l, done, run_bind_error ran, moving, .inl stops⟩
  | ok l =>
    rw [met] at first
    obtain ⟨e, ran, moving⟩ := first
    have scanned := moving.scan_spec footing space.size 0 (Nat.zero_le _) (Nat.le_add_right _ _)
      (fun o => by
        rw [List.append_nil, List.mem_reverse, List.mem_map, List.take_zero]
        constructor
        · rintro ⟨i, here, rfl⟩
          exact ⟨(registered i).1 here, trivial⟩
        · rintro ⟨valid, passed⟩
          cases o with
          | root i => exact ⟨i, (registered i).2 valid, rfl⟩
          | word p k => exact absurd passed List.not_mem_nil)
      fun p none => absurd none List.not_mem_nil
    have reserve : e.reserve.size = space.size ∧ e.reserve.start = space.start := by rw [moving.reserve]; exact ⟨rfl, rfl⟩
    rw [List.take_zero, List.map_nil, List.sum_nil, Nat.add_zero, ← reserve.2] at scanned
    rw [run_bind ran, run_bind (got e), reserve.1]
    exact scanned

end

end TracingHeap
